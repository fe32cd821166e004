import Magnos.Loader.Elf

/-!
# Where the loader writes

The loader checks no address.  It stays inside the user region exactly if every loadable
segment it meets lies there, and for a file whose headers lie outside the region that is a
condition on the file's program header table alone.
-/

namespace Magnos

open Framework

/-- A program header whose segment, file bytes and zeros, lies inside the user region. -/
def SegmentInRegion (h : ProgramHeader) : Prop :=
  h.pType = ptLoad → UserRun (.ofNat h.pVaddr) (max h.pFilesz h.pMemsz)

/-- The file's header and program header table lie outside the user region, as they do in the
kernel's buffers. -/
def HeadersOutside (mem : Memory) (elf : UInt32) : Prop :=
  (∀ j < 52, ¬ UserAddr (elf + .ofNat j)) ∧
    ∀ j < 32 * ePhnum mem elf, ¬ UserAddr (phTable mem elf + .ofNat j)

/-- Two memories that differ in the user region only. -/
def SameOutside (mem mem' : Memory) : Prop := ∀ a, ¬ UserAddr a → mem' a = mem a

theorem SameOutside.storeAll {mem mem' : Memory} (hsame : SameOutside mem mem')
    (stores : List (UInt32 × UInt8)) (huser : ∀ store ∈ stores, UserAddr store.1) :
    SameOutside mem (mem'.storeAll stores) := by
  intro a ha
  have hne : ∀ store ∈ stores, store.1 ≠ a := by
    intro store hs heq
    exact ha (by rw [← heq]; exact huser store hs)
  rw [Memory.storeAll_of_not_mem _ _ _ hne]
  exact hsame a ha

section Headers

variable {mem mem' : Memory} {elf : UInt32}

theorem le32_congr {s s' : Sector} {i : Nat} (h : ∀ j < 4, s' (i + j) = s (i + j)) :
    le32 s' i = le32 s i := by
  have h0 := h 0 (by omega)
  have h1 := h 1 (by omega)
  have h2 := h 2 (by omega)
  have h3 := h 3 (by omega)
  simp only [Nat.add_zero] at h0
  simp only [le32, le16, h0, h1, h2, Nat.add_assoc, h3, Nat.reduceAdd]

theorem programHeader_congr {ph : UInt32} {i : Nat}
    (hsame : ∀ j < 32, mem' (ph + .ofNat (32 * i + j)) = mem (ph + .ofNat (32 * i + j))) :
    programHeader mem' ph i = programHeader mem ph i := by
  have hword : ∀ off, off + 4 ≤ 32 → le32 (mem'.view (ph + .ofNat (32 * i))) off =
      le32 (mem.view (ph + .ofNat (32 * i))) off := by
    intro off hoff
    apply le32_congr
    intro j hj
    rw [Memory.view_add, Memory.view_add]
    exact hsame _ (by omega)
  simp only [programHeader, hword 0 (by omega), hword 4 (by omega), hword 8 (by omega),
    hword 16 (by omega), hword 20 (by omega)]

theorem HeadersOutside.ePhnum_eq (hout : HeadersOutside mem elf) (hsame : SameOutside mem mem') :
    ePhnum mem' elf = ePhnum mem elf := by
  have h44 := hsame _ (hout.1 44 (by omega))
  have h45 := hsame _ (hout.1 45 (by omega))
  simp only [ePhnum, le16, Memory.view, h44, h45]

theorem HeadersOutside.programHeader_eq (hout : HeadersOutside mem elf)
    (hsame : SameOutside mem mem') (i : Nat) (hi : i < ePhnum mem elf) :
    programHeader mem' (phTable mem elf) i = programHeader mem (phTable mem elf) i := by
  apply programHeader_congr
  intro j hj
  exact hsame _ (hout.2 _ (by omega))

theorem HeadersOutside.segmentFits_iff (hout : HeadersOutside mem elf)
    (hsame : SameOutside mem mem') (i : Nat) (hi : i < ePhnum mem elf) :
    SegmentFits mem' elf (phTable mem elf) i ↔
      SegmentInRegion (programHeader mem (phTable mem elf) i) := by
  have hheader := hout.programHeader_eq hsame i hi
  unfold SegmentFits SegmentInRegion
  dsimp only
  rw [hheader]
  apply imp_congr_right
  intro _
  set h := programHeader mem (phTable mem elf) i with hh
  have hcopied : UserRun (.ofNat h.pVaddr) h.pFilesz →
      programHeader (mem'.storeAll (fileStores mem' elf (phTable mem elf) i)) (phTable mem elf) i =
        h := by
    intro hrun
    apply hout.programHeader_eq (hsame.storeAll _ ?_) i hi
    intro store hs
    apply (userRun_iff _ _).mp hrun
    have haddr := copyStores_addresses mem' (.ofNat h.pVaddr) (elf + .ofNat h.pOffset) h.pFilesz
    rw [fileStores, hheader] at hs
    rw [← haddr]
    exact List.mem_map_of_mem hs
  have hsplit : max h.pFilesz h.pMemsz = h.pFilesz + (h.pMemsz - h.pFilesz) := by omega
  rw [hsplit, userRun_add]
  exact and_congr_right fun hrun => by rw [hcopied hrun]

theorem HeadersOutside.segmentsFit_iff (hout : HeadersOutside mem elf)
    (hsame : SameOutside mem mem') (rounds i : Nat) (hrounds : ePhnum mem elf ≤ i + rounds) :
    SegmentsFit elf (phTable mem elf) rounds i mem' ↔
      ∀ j, i ≤ j → j < ePhnum mem elf →
        SegmentInRegion (programHeader mem (phTable mem elf) j) := by
  induction rounds generalizing i mem' with
  | zero =>
      simp only [SegmentsFit, true_iff]
      intro j hij hj
      omega
  | succ rounds ih =>
      rw [SegmentsFit, hout.ePhnum_eq hsame]
      by_cases hmore : i < ePhnum mem elf
      · have hone := hout.segmentFits_iff hsame i hmore
        have hrest (hfits : SegmentFits mem' elf (phTable mem elf) i) :=
          ih (hsame.storeAll (placeSegment mem' elf (phTable mem elf) i)
            ((placeSegment_user_iff _ _ _ _).mpr hfits)) (i + 1) (by omega)
        refine ⟨?_, ?_⟩
        · intro hall j hij hj
          obtain ⟨hfits, hlater⟩ := hall hmore
          rcases Nat.eq_or_lt_of_le hij with rfl | hlt
          · exact hone.mp hfits
          · exact (hrest hfits).mp hlater j hlt hj
        · intro hall _
          have hfits := hone.mpr (hall i (Nat.le_refl i) hmore)
          exact ⟨hfits, (hrest hfits).mpr fun j hij hj => hall j (by omega) hj⟩
      · refine ⟨fun _ j hij hj => by omega, fun _ h => (hmore h).elim⟩

end Headers

/-- The loader writes inside the user region exactly if it refuses the header or every
segment it meets lies there.  For a file with its headers outside the region, that and the
rejection of files with other segments come down to the file's own program headers. -/
theorem elfStores_confined_iff (mem : Memory) (elf : UInt32) :
    ((∀ store ∈ elfStores mem elf, UserAddr store.1) ↔
        ¬ ElfHeaderValid mem elf ∨ SegmentsFit elf (phTable mem elf) (2 ^ 16) 0 mem) ∧
      (HeadersOutside mem elf →
        ((∀ store ∈ elfStores mem elf, UserAddr store.1) ∧
            ((∃ i < ePhnum mem elf, ¬ SegmentInRegion (programHeader mem (phTable mem elf) i)) →
              ¬ ElfHeaderValid mem elf) ↔
          ¬ ElfHeaderValid mem elf ∨
            ∀ i < ePhnum mem elf, SegmentInRegion (programHeader mem (phTable mem elf) i))) := by
  refine ⟨elfStores_user_iff mem elf, ?_⟩
  intro hout
  have hphnum : ePhnum mem elf < 2 ^ 16 := le16_lt _ _
  have htable := hout.segmentsFit_iff (fun _ _ => rfl) (2 ^ 16) 0 (by omega)
  simp only [Nat.zero_le, forall_const] at htable
  rw [elfStores_user_iff, htable]
  refine ⟨And.left, ?_⟩
  intro hcond
  refine ⟨hcond, ?_⟩
  rintro ⟨i, hi, hoff⟩
  exact hcond.elim id fun hall => (hoff (hall i hi)).elim

/-- An executable with one segment: a single zero byte. -/
def sampleElf (vaddr : Nat) : List UInt8 :=
  [0x7F, 0x45, 0x4C, 0x46, 1, 1, 1, 0, 0, 0, 0, 0, 0, 0, 0, 0, 2, 0, 3, 0] ++ leBytes 1 ++
    leBytes vaddr ++ leBytes 52 ++ leBytes 0 ++ leBytes 0 ++ [52, 0, 32, 0, 1, 0, 0, 0, 0, 0, 0, 0] ++
    leBytes 1 ++ leBytes 0 ++ leBytes vaddr ++ leBytes vaddr ++ leBytes 0 ++ leBytes 1 ++
    leBytes 7 ++ leBytes 0x1000

/-- An executable with two segments: four bytes of the file and four zeros, and four zeros. -/
def twoSegmentElf (vaddr other : Nat) : List UInt8 :=
  [0x7F, 0x45, 0x4C, 0x46, 1, 1, 1, 0, 0, 0, 0, 0, 0, 0, 0, 0, 2, 0, 3, 0] ++ leBytes 1 ++
    leBytes vaddr ++ leBytes 52 ++ leBytes 0 ++ leBytes 0 ++ [52, 0, 32, 0, 2, 0, 0, 0, 0, 0, 0, 0] ++
    leBytes 1 ++ leBytes 0 ++ leBytes vaddr ++ leBytes vaddr ++ leBytes 4 ++ leBytes 8 ++
    leBytes 7 ++ leBytes 0x1000 ++
    leBytes 1 ++ leBytes 0 ++ leBytes other ++ leBytes other ++ leBytes 0 ++ leBytes 4 ++
    leBytes 7 ++ leBytes 0x1000

theorem elfStores_confined_sample :
    ElfHeaderValid (Memory.ofBytes 0x100000 (sampleElf 0x200000)) 0x100000 ∧
      ∀ store ∈ elfStores (Memory.ofBytes 0x100000 (sampleElf 0x200000)) 0x100000,
        UserAddr store.1 := by
  refine ⟨by decide, ?_⟩
  have hiff := (elfStores_confined_iff (Memory.ofBytes 0x100000 (sampleElf 0x200000)) 0x100000).2
    (by unfold HeadersOutside; decide)
  refine (hiff.mpr (.inr ?_)).1
  unfold SegmentInRegion
  decide

/-- A file with a segment at `0x1000` is loaded over the kernel. -/
theorem elfStores_overwrites_kernel :
    ¬ ∀ (mem : Memory) (elf : UInt32),
      (∀ store ∈ elfStores mem elf, UserAddr store.1) ∧
        ((∃ i < ePhnum mem elf, ¬ SegmentInRegion (programHeader mem (phTable mem elf) i)) →
          ¬ ElfHeaderValid mem elf) := by
  intro hclaim
  have hstore : ((0x1000, 0) : UInt32 × UInt8) ∈
      elfStores (Memory.ofBytes 0x100000 (sampleElf 0x1000)) 0x100000 := by decide
  exact absurd ((hclaim _ _).1 _ hstore) (by decide)

end Magnos
