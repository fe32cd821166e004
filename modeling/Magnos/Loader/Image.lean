import Magnos.Loader.Segments

/-!
# The image of a well-formed file

The loader copies and clears segment after segment, in memory that also holds the file.  For a
well-formed file every address ends up with one source: the byte of a segment, a zero, or what was
there before; and the sources depend on the set of program headers, not on their order.
-/

namespace Magnos

open Framework

/-- An address of the file of `size` bytes at `elf`. -/
def InFile (elf : UInt32) (size : Nat) (a : UInt32) : Prop := (a - elf).toNat < size

def ePhentsize (mem : Memory) (elf : UInt32) : Nat := le16 (mem.view elf) 42

def programHeaders (mem : Memory) (elf : UInt32) : List ProgramHeader :=
  (List.range (ePhnum mem elf)).map (programHeader mem (phTable mem elf))

namespace ProgramHeader

/-- How far an address is in the segment. -/
def distance (h : ProgramHeader) (a : UInt32) : Nat := (a - .ofNat h.pVaddr).toNat

/-- An address of a loadable segment's memory. -/
def Covers (h : ProgramHeader) (a : UInt32) : Prop := h.pType = ptLoad ∧ h.distance a < h.pMemsz

instance (h : ProgramHeader) (a : UInt32) : Decidable (h.Covers a) :=
  inferInstanceAs (Decidable (_ ∧ _))

/-- Where a segment's byte comes from; it is zero if it comes from nowhere. -/
def source (h : ProgramHeader) (elf a : UInt32) : Option UInt32 :=
  if h.distance a < h.pFilesz then some (elf + .ofNat (h.pOffset + h.distance a)) else none

end ProgramHeader

/-- Where the byte of an address comes from after the file is loaded. -/
def imageSource (hs : List ProgramHeader) (elf a : UInt32) : Option UInt32 :=
  match hs.find? fun h => decide (h.Covers a) with
  | some h => h.source elf a
  | none => some a

/-- The memory after the file is loaded. -/
def imageByte (hs : List ProgramHeader) (mem : Memory) (elf a : UInt32) : UInt8 :=
  (imageSource hs elf a).elim 0 mem

/-- A well-formed file: its header is accepted, its tables and the file bytes of its segments lie in
the file, and the memory of its segments is apart from the file and from each other. -/
structure WellFormedImage (mem : Memory) (elf size : UInt32) : Prop where
  valid : ElfHeaderValid mem elf
  entrySize : ePhentsize mem elf = 32
  header : 52 ≤ size.toNat
  table : ePhoff mem elf + 32 * ePhnum mem elf ≤ size.toNat
  contents : ∀ h ∈ programHeaders mem elf, h.pType = ptLoad → h.pOffset + h.pFilesz ≤ size.toNat
  sizes : ∀ h ∈ programHeaders mem elf, h.pType = ptLoad → h.pFilesz ≤ h.pMemsz
  outside : ∀ h ∈ programHeaders mem elf, ∀ a, h.Covers a → ¬ InFile elf size.toNat a
  apart : (programHeaders mem elf).Pairwise fun h h' => ∀ a, h.Covers a → ¬ h'.Covers a

/-- Memories with the same file. -/
def SameFile (elf : UInt32) (size : Nat) (mem mem' : Memory) : Prop :=
  ∀ a, InFile elf size a → mem' a = mem a

section Loop

variable {mem mem' : Memory} {elf size : UInt32}

theorem inFile_add {size : Nat} {n : Nat} (hn : n < size) (hsize : size ≤ 2 ^ 32) :
    InFile elf size (elf + .ofNat n) := by
  rw [InFile, toNat_add_ofNat_sub (by omega)]
  exact hn

theorem SameFile.ePhnum_eq (hsame : SameFile elf size.toNat mem mem') (hsize : 46 ≤ size.toNat) :
    ePhnum mem' elf = ePhnum mem elf := by
  have hlt := size.toNat_lt
  have hbyte : ∀ n < 46, mem' (elf + .ofNat n) = mem (elf + .ofNat n) :=
    fun n hn => hsame _ (inFile_add (by omega) (by omega))
  simp only [ePhnum, le16, Memory.view, hbyte 44 (by omega), hbyte 45 (by omega)]

theorem SameFile.programHeader_eq (hsame : SameFile elf size.toNat mem mem')
    (htable : ePhoff mem elf + 32 * ePhnum mem elf ≤ size.toNat) {i : Nat}
    (hi : i < ePhnum mem elf) :
    programHeader mem' (phTable mem elf) i = programHeader mem (phTable mem elf) i := by
  have hlt := size.toNat_lt
  apply programHeader_congr
  intro j hj
  rw [phTable, UInt32.add_assoc, ← UInt32.ofNat_add]
  exact hsame _ (inFile_add (by omega) (by omega))

theorem fileStores_eq (hwf : WellFormedImage mem elf size)
    (hsame : SameFile elf size.toNat mem mem') {i : Nat} (hi : i < ePhnum mem elf) {h : ProgramHeader}
    (hh : programHeader mem (phTable mem elf) i = h) (hload : h.pType = ptLoad) :
    fileStores mem' elf (phTable mem elf) i = storesAt (.ofNat h.pVaddr)
      ((List.range h.pFilesz).map fun k => mem (elf + .ofNat (h.pOffset + k))) := by
  have hlt := size.toNat_lt
  have hmem : h ∈ programHeaders mem elf := List.mem_map.mpr ⟨i, List.mem_range.mpr hi, hh⟩
  have hcontents := hwf.contents h hmem hload
  have hsizes := hwf.sizes h hmem hload
  have hsource : ∀ k < h.pFilesz, InFile elf size.toNat (elf + .ofNat h.pOffset + .ofNat k) := by
    intro k hk
    rw [UInt32.add_assoc, ← UInt32.ofNat_add]
    exact inFile_add (by omega) (by omega)
  rw [fileStores, hsame.programHeader_eq hwf.table hi, hh, copyStores_eq]
  · congr 1
    apply List.map_congr_left
    intro k hk
    rw [hsame _ (hsource k (List.mem_range.mp hk)), UInt32.add_assoc, ← UInt32.ofNat_add]
  · intro j hj k hk heq
    refine hwf.outside h hmem _ ⟨hload, ?_⟩ (heq ▸ hsource j hj)
    rw [ProgramHeader.distance, toNat_add_ofNat_sub (by omega)]
    omega

theorem SameFile.storesAt (hsame : SameFile elf size.toNat mem mem') {h : ProgramHeader}
    (hload : h.pType = ptLoad) (houtside : ∀ a, h.Covers a → ¬ InFile elf size.toNat a)
    {bytes : List UInt8} (hlen : bytes.length ≤ h.pMemsz) (hbound : h.pMemsz ≤ 2 ^ 32) :
    SameFile elf size.toNat mem (mem'.storeAll (storesAt (.ofNat h.pVaddr) bytes)) := by
  intro a ha
  have hnot : ¬ (a - .ofNat h.pVaddr).toNat < bytes.length := by
    intro hlt
    exact houtside a ⟨hload, by rw [ProgramHeader.distance]; omega⟩ ha
  rw [Memory.storeAll_storesAt _ _ (by omega), if_neg hnot]
  exact hsame a ha

theorem placeSegment_byte (hwf : WellFormedImage mem elf size)
    (hsame : SameFile elf size.toNat mem mem') {i : Nat} (hi : i < ePhnum mem elf) {h : ProgramHeader}
    (hh : programHeader mem (phTable mem elf) i = h) (a : UInt32) :
    mem'.storeAll (placeSegment mem' elf (phTable mem elf) i) a =
      if h.Covers a then (h.source elf a).elim 0 mem else mem' a := by
  have hheader := (hsame.programHeader_eq hwf.table hi).trans hh
  rw [placeSegment, hheader]
  by_cases hload : h.pType = ptLoad
  · have hmem : h ∈ programHeaders mem elf := List.mem_map.mpr ⟨i, List.mem_range.mpr hi, hh⟩
    have hsizes := hwf.sizes h hmem hload
    have hbound : h.pMemsz < 2 ^ 32 := by
      rw [← hh]
      exact le32_lt _ _
    have hlength : ((List.range h.pFilesz).map fun k => mem (elf + .ofNat (h.pOffset + k))).length =
        h.pFilesz := by simp
    have hfile := fileStores_eq hwf hsame hi hh hload
    have hcopied : programHeader (mem'.storeAll (fileStores mem' elf (phTable mem elf) i))
        (phTable mem elf) i = h := by
      rw [hfile]
      have hstays := hsame.storesAt hload (hwf.outside h hmem) (hlength.trans_le hsizes) hbound.le
      exact (hstays.programHeader_eq hwf.table hi).trans hh
    simp only [hload, if_true]
    rw [bssStores, hcopied, Memory.storeAll_append, hfile]
    rw [Memory.storeAll_storesAt _ _ (by simp; omega), Memory.storeAll_storesAt _ _ (by simp; omega),
      toNat_sub_add_ofNat (by omega)]
    generalize hk : (a - UInt32.ofNat h.pVaddr).toNat = k
    have hdistance : h.distance a = k := hk
    by_cases hfromFile : k < h.pFilesz
    · have hbefore : ¬ h.pFilesz ≤ k := by omega
      have hpast : ¬ k + 4294967296 - h.pFilesz < h.pMemsz - h.pFilesz := by omega
      have hcovers : h.Covers a := ⟨hload, by omega⟩
      simp [hcovers, ProgramHeader.source, hdistance, hbefore, hpast, hfromFile]
    · have hafter : h.pFilesz ≤ k := by omega
      by_cases hinside : k < h.pMemsz
      · have hzero : k - h.pFilesz < h.pMemsz - h.pFilesz := by omega
        have hcovers : h.Covers a := ⟨hload, by omega⟩
        simp [hcovers, ProgramHeader.source, hdistance, hafter, hzero, hfromFile]
      · have hpast : ¬ k - h.pFilesz < h.pMemsz - h.pFilesz := by omega
        have hcovers : ¬ h.Covers a := fun hcovers => hinside (hdistance ▸ hcovers.2)
        simp [hcovers, hafter, hpast, hfromFile]
  · have hnot : ¬ h.Covers a := fun hcovers => hload hcovers.1
    simp [hload, hnot, Memory.storeAll]

theorem placeSegment_sameFile (hwf : WellFormedImage mem elf size)
    (hsame : SameFile elf size.toNat mem mem') {i : Nat} (hi : i < ePhnum mem elf) :
    SameFile elf size.toNat mem (mem'.storeAll (placeSegment mem' elf (phTable mem elf) i)) := by
  intro a ha
  have hmem : programHeader mem (phTable mem elf) i ∈ programHeaders mem elf :=
    List.mem_map_of_mem (List.mem_range.mpr hi)
  rw [placeSegment_byte hwf hsame hi rfl, if_neg fun hcovers => hwf.outside _ hmem a hcovers ha]
  exact hsame a ha

theorem loadSegments_byte (hwf : WellFormedImage mem elf size)
    (hsame : SameFile elf size.toNat mem mem') {rounds i : Nat}
    (hrounds : ePhnum mem elf ≤ i + rounds) (a : UInt32) :
    mem'.storeAll (loadSegments elf (phTable mem elf) rounds i mem') a =
      (((programHeaders mem elf).drop i).find? fun h => decide (h.Covers a)).elim (mem' a)
        fun h => (h.source elf a).elim 0 mem := by
  have hlength : (programHeaders mem elf).length = ePhnum mem elf := by simp [programHeaders]
  induction rounds generalizing mem' i with
  | zero =>
      rw [List.drop_eq_nil_of_le (by omega)]
      rfl
  | succ rounds ih =>
      rw [loadSegments, hsame.ePhnum_eq (Nat.le_trans (by decide) hwf.header)]
      by_cases hmore : i < ePhnum mem elf
      · rw [if_pos hmore, Memory.storeAll_append,
          ih (placeSegment_sameFile hwf hsame hmore) (by omega)]
        have hcons : (programHeaders mem elf).drop i =
            programHeader mem (phTable mem elf) i :: (programHeaders mem elf).drop (i + 1) := by
          rw [List.drop_eq_getElem_cons (hlength ▸ hmore)]
          simp [programHeaders]
        have hapart := hwf.apart.sublist (List.drop_sublist i _)
        rw [hcons, List.pairwise_cons] at hapart
        have hfirst := placeSegment_byte hwf hsame hmore rfl a
        rw [hcons]
        by_cases hcovers : (programHeader mem (phTable mem elf) i).Covers a
        · -- no later segment overwrites the byte
          have hnone : ((programHeaders mem elf).drop (i + 1)).find?
              (fun h => decide (h.Covers a)) = none := by
            rw [List.find?_eq_none]
            intro h hh
            simpa using hapart.1 h hh a hcovers
          rw [hnone, List.find?_cons_of_pos (by simpa using hcovers), Option.elim_none, Option.elim_some,
            hfirst, if_pos hcovers]
        · rw [List.find?_cons_of_neg (by simpa using hcovers), hfirst, if_neg hcovers]
      · rw [if_neg hmore, List.drop_eq_nil_of_le (by omega)]
        rfl

theorem elfStores_byte (hwf : WellFormedImage mem elf size) (a : UInt32) :
    mem.storeAll (elfStores mem elf) a = imageByte (programHeaders mem elf) mem elf a := by
  have hphnum : ePhnum mem elf < 2 ^ 16 := le16_lt _ _
  rw [elfStores, if_pos hwf.valid,
    loadSegments_byte hwf (fun _ _ => rfl) (by omega), List.drop_zero, imageByte, imageSource]
  cases (programHeaders mem elf).find? fun h => decide (h.Covers a) <;> rfl

theorem WellFormedImage.covers_inj (hwf : WellFormedImage mem elf size) {h h' : ProgramHeader}
    (hh : h ∈ programHeaders mem elf) (hh' : h' ∈ programHeaders mem elf) {a : UInt32}
    (hcovers : h.Covers a) (hcovers' : h'.Covers a) : h = h' := by
  by_contra hne
  have hsymm : Std.Symm fun h h' : ProgramHeader => ∀ a, h.Covers a → ¬ h'.Covers a :=
    ⟨fun _ _ hapart b hb' hb => hapart b hb hb'⟩
  exact hwf.apart.forall hh hh' hne a hcovers hcovers'

theorem WellFormedImage.find_eq (hwf : WellFormedImage mem elf size) {h : ProgramHeader}
    (hh : h ∈ programHeaders mem elf) {a : UInt32} (hcovers : h.Covers a)
    {hs : List ProgramHeader} (hperm : hs.Perm (programHeaders mem elf)) :
    hs.find? (fun h => decide (h.Covers a)) = some h := by
  have hsome : (hs.find? fun h => decide (h.Covers a)).isSome :=
    List.find?_isSome.mpr ⟨h, hperm.mem_iff.mpr hh, by simpa using hcovers⟩
  obtain ⟨h', hfind⟩ := Option.isSome_iff_exists.mp hsome
  have hmem' := hperm.mem_iff.mp (List.mem_of_find?_eq_some hfind)
  have hcovers' : h'.Covers a := by simpa using List.find?_some hfind
  rw [hfind, hwf.covers_inj hmem' hh hcovers' hcovers]

/-- The sources do not depend on the order of the headers. -/
theorem WellFormedImage.imageSource_perm (hwf : WellFormedImage mem elf size)
    {hs : List ProgramHeader} (hperm : hs.Perm (programHeaders mem elf)) (a : UInt32) :
    imageSource hs elf a = imageSource (programHeaders mem elf) elf a := by
  by_cases hany : ∃ h ∈ programHeaders mem elf, h.Covers a
  · obtain ⟨h, hh, hcovers⟩ := hany
    rw [imageSource, imageSource, hwf.find_eq hh hcovers hperm, hwf.find_eq hh hcovers (.refl _)]
  · have hnone : ∀ l : List ProgramHeader, (∀ h ∈ l, h ∈ programHeaders mem elf) →
        l.find? (fun h => decide (h.Covers a)) = none := by
      intro l hl
      rw [List.find?_eq_none]
      intro h hh
      simpa using fun hcovers => hany ⟨h, hl h hh, hcovers⟩
    rw [imageSource, imageSource, hnone hs fun h hh => hperm.mem_iff.mp hh, hnone _ fun _ hh => hh]

end Loop

/-- Loading a well-formed file gives every address of a segment its file byte or a zero, changes no
other address, and gives the same for every other order of the program headers: where the source
of a byte is the same in both files, so is the byte. -/
theorem elfStores_image (mem : Memory) (elf size : UInt32) (hwf : WellFormedImage mem elf size) :
    (∀ h ∈ programHeaders mem elf, h.pType = ptLoad →
      (∀ k < h.pFilesz, mem.storeAll (elfStores mem elf) (.ofNat h.pVaddr + .ofNat k) =
        mem (elf + .ofNat (h.pOffset + k))) ∧
      ∀ k < h.pMemsz, h.pFilesz ≤ k →
        mem.storeAll (elfStores mem elf) (.ofNat h.pVaddr + .ofNat k) = 0) ∧
    (∀ a, (∀ h ∈ programHeaders mem elf, ¬ h.Covers a) →
      mem.storeAll (elfStores mem elf) a = mem a) ∧
    ∀ mem', WellFormedImage mem' elf size →
      (programHeaders mem' elf).Perm (programHeaders mem elf) →
      ∀ a, (∀ b, imageSource (programHeaders mem elf) elf a = some b → mem' b = mem b) →
        mem'.storeAll (elfStores mem' elf) a = mem.storeAll (elfStores mem elf) a := by
  refine ⟨?_, ?_, ?_⟩
  · intro h hh hload
    have hbound : h.pMemsz < 2 ^ 32 := by
      obtain ⟨i, -, rfl⟩ := List.mem_map.mp hh
      exact le32_lt _ _
    have hsizes := hwf.sizes h hh hload
    have hbyte : ∀ k < h.pMemsz, mem.storeAll (elfStores mem elf) (.ofNat h.pVaddr + .ofNat k) =
        (if k < h.pFilesz then some (elf + .ofNat (h.pOffset + k)) else none).elim 0 mem := by
      intro k hk
      have hdistance : h.distance (.ofNat h.pVaddr + .ofNat k) = k := toNat_add_ofNat_sub (by omega)
      have hcovers : h.Covers (.ofNat h.pVaddr + .ofNat k) := ⟨hload, by rw [hdistance]; exact hk⟩
      rw [elfStores_byte hwf, imageByte, imageSource, hwf.find_eq hh hcovers (.refl _)]
      simp only [ProgramHeader.source, hdistance]
    refine ⟨?_, ?_⟩
    · intro k hk
      rw [hbyte k (by omega), if_pos hk]
      rfl
    · intro k hk hfile
      rw [hbyte k hk, if_neg (by omega)]
      rfl
  · intro a hnone
    rw [elfStores_byte hwf, imageByte, imageSource, List.find?_eq_none.mpr (by simpa using hnone)]
    rfl
  · intro mem' hwf' hperm a hsource
    rw [elfStores_byte hwf, elfStores_byte hwf', imageByte, imageByte, hwf.imageSource_perm hperm]
    cases hcase : imageSource (programHeaders mem elf) elf a with
    | none => rfl
    | some b => exact hsource b hcase

/-- The executable with two segments, read to 1 MB. -/
def sampleImage : Memory := .ofBytes 0x100000 (twoSegmentElf 0x200000 0x200010)

theorem programHeaders_sample :
    programHeaders sampleImage 0x100000 = [⟨1, 0, 0x200000, 4, 8⟩, ⟨1, 0, 0x200010, 0, 4⟩] := rfl

theorem wellFormedImage_sample : WellFormedImage sampleImage 0x100000 116 := by
  refine ⟨by decide, by decide, by decide, by decide, ?_, ?_, ?_, ?_⟩ <;> rw [programHeaders_sample]
  · simp
  · simp
  · intro h hh a hcovers hfile
    have hdistance := hcovers.2
    have ha := a.toNat_lt
    rcases List.mem_pair.mp hh with rfl | rfl <;>
      simp only [ProgramHeader.distance, InFile, UInt32.toNat_sub, UInt32.reduceOfNat,
        UInt32.reduceToNat] at hdistance hfile <;>
      omega
  · rw [List.pairwise_pair]
    intro a hfirst hsecond
    have ha := a.toNat_lt
    have hnear := hfirst.2
    have hfar := hsecond.2
    simp only [ProgramHeader.distance, UInt32.toNat_sub, UInt32.reduceOfNat,
      UInt32.reduceToNat] at hnear hfar
    omega

/-- A file byte and a zero of the first segment and a zero of the second. -/
theorem elfStores_image_sample :
    WellFormedImage sampleImage 0x100000 116 ∧
      sampleImage.storeAll (elfStores sampleImage 0x100000) 0x200000 = 0x7F ∧
      sampleImage.storeAll (elfStores sampleImage 0x100000) 0x200004 = 0 ∧
      sampleImage.storeAll (elfStores sampleImage 0x100000) 0x200013 = 0 := by
  have hsegments := (elfStores_image _ _ _ wellFormedImage_sample).1
  rw [programHeaders_sample] at hsegments
  have hfirst := hsegments _ List.mem_cons_self rfl
  have hsecond := hsegments _ (List.mem_cons_of_mem _ List.mem_cons_self) rfl
  exact ⟨wellFormedImage_sample, hfirst.1 0 (by decide), hfirst.2 4 (by decide) (by decide),
    hsecond.2 3 (by decide) (by decide)⟩

end Magnos
