import Magnos.Loader.Image

/-!
# Which bytes the loader reads

`elf_load_and_exec` gets the size of the file and does not use it: the header, the program headers
and the contents of the segments are read where the fields say, inside the file or not.  The
addresses that it reads are listed here in the order of the source.  A load that reads only the
file is the same in every memory that holds the file.
-/

namespace Magnos

open Framework

/-- A test of `elf_validate_header`: the answer, and the bytes of the header that it depends on. -/
structure HeaderCheck where
  off : Nat
  len : Nat
  ok : Sector → Bool
  ok_congr : ∀ h h' : Sector, (∀ j < len, h' (off + j) = h (off + j)) → ok h' = ok h

/-- A test of one byte. -/
def byteCheck (off : Nat) (test : UInt8 → Bool) : HeaderCheck where
  off := off
  len := 1
  ok := fun h => test (h off)
  ok_congr := fun _ _ hsame => congrArg test (hsame 0 Nat.one_pos)

/-- A test of a 16-bit field. -/
def halfCheck (off : Nat) (test : Nat → Bool) : HeaderCheck where
  off := off
  len := 2
  ok := fun h => test (le16 h off)
  ok_congr := fun _ _ hsame => by
    have hlow := hsame 0 Nat.two_pos
    have hhigh := hsame 1 Nat.one_lt_two
    rw [Nat.add_zero] at hlow
    simp only [le16, hlow, hhigh]

/-- The tests in the order of the source. -/
def headerChecks : List HeaderCheck :=
  [byteCheck 0 (· = 0x7F), byteCheck 1 (· = 0x45), byteCheck 2 (· = 0x4C), byteCheck 3 (· = 0x46),
    byteCheck 4 (· = 1), byteCheck 5 (· = 1), halfCheck 18 (· = 3),
    halfCheck 16 fun eType => eType = 2 ∨ eType = 3]

/-- The reads of the tests up to the first one that fails. -/
def checkReads (mem : Memory) (elf : UInt32) : List HeaderCheck → List UInt32
  | [] => []
  | check :: checks =>
      addressRun (elf + .ofNat check.off) check.len ++
        if check.ok (mem.view elf) then checkReads mem elf checks else []

/-- The reads of the loop's body: the fields, the bytes to copy, and the fields again after the
copy. -/
def segmentReads (mem : Memory) (elf ph : UInt32) (i : Nat) : List UInt32 :=
  let entry := ph + .ofNat (32 * i)
  let h := programHeader mem ph i
  addressRun entry 4 ++
    if h.pType = ptLoad then
      addressRun (entry + 8) 4 ++ addressRun (entry + 16) 4 ++
        (if 0 < h.pFilesz then addressRun (entry + 4) 4 ++ addressRun (elf + .ofNat h.pOffset) h.pFilesz
          else []) ++
        addressRun (entry + 20) 4 ++ addressRun (entry + 16) 4
    else []

def loopReads (elf ph : UInt32) : (rounds i : Nat) → Memory → List UInt32
  | 0, _, _ => []
  | rounds + 1, i, mem =>
      addressRun (elf + 44) 2 ++
        if i < ePhnum mem elf then
          segmentReads mem elf ph i ++
            loopReads elf ph rounds (i + 1) (mem.storeAll (placeSegment mem elf ph i))
        else []

/-- Everything that `elf_load_and_exec` reads of the file and as the file. -/
def elfReads (mem : Memory) (elf : UInt32) : List UInt32 :=
  checkReads mem elf headerChecks ++
    if ElfHeaderValid mem elf then
      addressRun (elf + 28) 4 ++ loopReads elf (phTable mem elf) (2 ^ 16) 0 mem ++
        addressRun (elf + 24) 4
    else []

/-- `elf_load_and_exec` up to the jump: none if the header is refused, else the stores and the entry
point, which is read after them. -/
def elfLoad (mem : Memory) (elf : UInt32) : Option (List (UInt32 × UInt8) × Nat) :=
  if ElfHeaderValid mem elf then
    some (elfStores mem elf, eEntry (mem.storeAll (elfStores mem elf)) elf)
  else none

/-- The header, the table and the segments are taken from the file's own bytes, so that the load is
the same whatever lies behind the file. -/
structure OwnBytesOnly (mem : Memory) (elf size : UInt32) : Prop where
  reads : ∀ a ∈ elfReads mem elf, InFile elf size.toNat a
  same : ∀ mem', SameFile elf size.toNat mem mem' → elfLoad mem' elf = elfLoad mem elf

/-- A run of bytes of the file, given by its offset, which wraps like the address. -/
abbrev FileRun (size : UInt32) (off n : Nat) : Prop := RunFits 0 size.toNat (.ofNat off) n

/-- The tests up to the first one that fails are about bytes of the file. -/
def ChecksInFile (size : UInt32) (header : Sector) : List HeaderCheck → Prop
  | [] => True
  | check :: checks =>
      FileRun size check.off check.len ∧ (check.ok header = true → ChecksInFile size header checks)

/-- What the loop's body reads of a program header and its segment lies in the file; a header that
is not loadable is read no further than its type. -/
def SegmentInFile (size : UInt32) (mem : Memory) (elf : UInt32) (phoff i : Nat) : Prop :=
  let h := programHeader mem (elf + .ofNat phoff) i
  FileRun size (phoff + 32 * i) 4 ∧
    (h.pType = ptLoad →
      FileRun size (phoff + 32 * i + 8) 4 ∧ FileRun size (phoff + 32 * i + 16) 4 ∧
        (0 < h.pFilesz → FileRun size (phoff + 32 * i + 4) 4 ∧ FileRun size h.pOffset h.pFilesz) ∧
        FileRun size (phoff + 32 * i + 20) 4)

def SegmentsInFile (size elf : UInt32) (phoff : Nat) : (rounds i : Nat) → Memory → Prop
  | 0, _, _ => True
  | rounds + 1, i, mem =>
      i < ePhnum mem elf → SegmentInFile size mem elf phoff i ∧
        SegmentsInFile size elf phoff rounds (i + 1)
          (mem.storeAll (placeSegment mem elf (elf + .ofNat phoff) i))

/-- The header is refused by a test inside the file, or it lies in the file and so does everything
that the loop meets. -/
def FileComplete (mem : Memory) (elf size : UInt32) : Prop :=
  ChecksInFile size (mem.view elf) headerChecks ∧
    (ElfHeaderValid mem elf → 46 ≤ size.toNat ∧
      SegmentsInFile size elf (ePhoff mem elf) (2 ^ 16) 0 mem)

theorem elfHeaderValid_iff (mem : Memory) (elf : UInt32) :
    ElfHeaderValid mem elf ↔ ∀ check ∈ headerChecks, check.ok (mem.view elf) = true := by
  simp [ElfHeaderValid, headerChecks, byteCheck, halfCheck]
  tauto

section Reads

variable {mem mem' : Memory} {elf size : UInt32}

theorem inFile_run_iff (off n : Nat) :
    (∀ a ∈ addressRun (elf + .ofNat off) n, InFile elf size.toNat a) ↔ FileRun size off n := by
  have hin : ∀ x : UInt32, InFile elf size.toNat (elf + x) ↔ Window 0 size.toNat x := by
    intro x
    rw [InFile, UInt32.add_comm, UInt32.add_sub_cancel]
    simp [Window]
  rw [FileRun, runFits_iff_addressRun size.toNat_lt]
  simp only [addressRun, List.forall_mem_map, UInt32.add_assoc, hin]

theorem checkReads_iff (checks : List HeaderCheck) :
    (∀ a ∈ checkReads mem elf checks, InFile elf size.toNat a) ↔
      ChecksInFile size (mem.view elf) checks := by
  induction checks with
  | nil => simp [checkReads, ChecksInFile]
  | cons check checks ih =>
      rw [checkReads, ChecksInFile, List.forall_mem_append, inFile_run_iff]
      by_cases hok : check.ok (mem.view elf) = true
      · simp [hok, ih]
      · simp [hok]

theorem segmentReads_iff (phoff i : Nat) :
    (∀ a ∈ segmentReads mem elf (elf + .ofNat phoff) i, InFile elf size.toNat a) ↔
      SegmentInFile size mem elf phoff i := by
  have hentry : elf + UInt32.ofNat phoff + .ofNat (32 * i) = elf + .ofNat (phoff + 32 * i) := by
    rw [UInt32.add_assoc, ← UInt32.ofNat_add]
  have hfield : ∀ off : Nat, elf + UInt32.ofNat (phoff + 32 * i) + .ofNat off =
      elf + .ofNat (phoff + 32 * i + off) := by
    intro off
    rw [UInt32.add_assoc, ← UInt32.ofNat_add]
  have h4 := hfield 4
  have h8 := hfield 8
  have h16 := hfield 16
  have h20 := hfield 20
  simp only [UInt32.reduceOfNat] at h4 h8 h16 h20
  rw [segmentReads, SegmentInFile, List.forall_mem_append, hentry, inFile_run_iff, h4, h8, h16, h20]
  by_cases hload : (programHeader mem (elf + .ofNat phoff) i).pType = ptLoad
  · by_cases hfile : 0 < (programHeader mem (elf + .ofNat phoff) i).pFilesz
    · simp only [hload, hfile, if_true, List.forall_mem_append, inFile_run_iff, forall_const]
      tauto
    · simp only [hload, hfile, if_true, if_false, List.forall_mem_append, inFile_run_iff, forall_const,
        List.not_mem_nil, false_imp_iff, and_true, true_and]
      tauto
  · simp [hload]

theorem loopReads_iff (hsize : 46 ≤ size.toNat) (phoff rounds i : Nat) :
    (∀ a ∈ loopReads elf (elf + .ofNat phoff) rounds i mem, InFile elf size.toNat a) ↔
      SegmentsInFile size elf phoff rounds i mem := by
  induction rounds generalizing i mem with
  | zero => simp [loopReads, SegmentsInFile]
  | succ rounds ih =>
      have hphnum : ∀ a ∈ addressRun (elf + 44) 2, InFile elf size.toNat a :=
        (inFile_run_iff 44 2).mpr (.inr ⟨Nat.zero_le _, hsize⟩)
      rw [loopReads, SegmentsInFile, List.forall_mem_append]
      by_cases hmore : i < ePhnum mem elf
      · simp only [hmore, if_true, List.forall_mem_append, segmentReads_iff, ih, forall_const]
        exact and_iff_right hphnum
      · simpa [hmore] using hphnum

theorem elfReads_iff :
    (∀ a ∈ elfReads mem elf, InFile elf size.toNat a) ↔ FileComplete mem elf size := by
  rw [elfReads, FileComplete, List.forall_mem_append, checkReads_iff]
  refine and_congr_right fun _ => ?_
  by_cases hvalid : ElfHeaderValid mem elf
  · simp only [hvalid, if_true, List.forall_mem_append, forall_const]
    have hphoff : (∀ a ∈ addressRun (elf + 28) 4, InFile elf size.toNat a) ↔ 32 ≤ size.toNat := by
      rw [show elf + 28 = elf + .ofNat 28 from rfl, inFile_run_iff]
      simp [RunFits]
    have hentry : (∀ a ∈ addressRun (elf + 24) 4, InFile elf size.toNat a) ↔ 28 ≤ size.toNat := by
      rw [show elf + 24 = elf + .ofNat 24 from rfl, inFile_run_iff]
      simp [RunFits]
    rw [hphoff, hentry]
    constructor
    · rintro ⟨⟨-, hloop⟩, -⟩
      have hsize : 46 ≤ size.toNat := by
        rw [show 2 ^ 16 = 65535 + 1 from rfl, loopReads, List.forall_mem_append] at hloop
        have hrun := (inFile_run_iff 44 2).mp hloop.1
        simpa [RunFits] using hrun
      exact ⟨hsize, (loopReads_iff hsize _ _ _).mp hloop⟩
    · rintro ⟨hsize, hloop⟩
      exact ⟨⟨by omega, (loopReads_iff hsize _ _ _).mpr hloop⟩, by omega⟩
  · simp [hvalid]

theorem SameFile.storeAll {size : Nat} (hsame : SameFile elf size mem mem')
    (stores : List (UInt32 × UInt8)) :
    SameFile elf size (mem.storeAll stores) (mem'.storeAll stores) :=
  fun a ha => Memory.storeAll_congr (hsame a ha) stores

theorem SameFile.le32_eq (hsame : SameFile elf size.toNat mem mem') {base off : Nat}
    (hrun : FileRun size (base + off) 4) :
    le32 (mem'.view (elf + .ofNat base)) off = le32 (mem.view (elf + .ofNat base)) off := by
  have hin : ∀ a ∈ addressRun (elf + .ofNat (base + off)) 4, InFile elf size.toNat a :=
    (inFile_run_iff _ _).mpr hrun
  apply le32_congr
  intro j hj
  rw [Memory.view_add, Memory.view_add]
  apply hsame
  apply hin
  rw [addressRun, List.mem_map]
  refine ⟨j, List.mem_range.mpr hj, ?_⟩
  rw [UInt32.add_assoc, ← UInt32.ofNat_add, Nat.add_assoc]

theorem SameFile.field_eq (hsame : SameFile elf size.toNat mem mem') {phoff i : Nat} (off : Nat)
    (hrun : FileRun size (phoff + 32 * i + off) 4) :
    le32 (mem'.view (elf + .ofNat phoff + .ofNat (32 * i))) off =
      le32 (mem.view (elf + .ofNat phoff + .ofNat (32 * i))) off := by
  rw [UInt32.add_assoc, ← UInt32.ofNat_add]
  exact hsame.le32_eq hrun

theorem SameFile.placeSegment_eq (hsame : SameFile elf size.toNat mem mem') {phoff i : Nat}
    (hin : SegmentInFile size mem elf phoff i) :
    placeSegment mem' elf (elf + .ofNat phoff) i = placeSegment mem elf (elf + .ofNat phoff) i := by
  obtain ⟨htype, hrest⟩ := hin
  have hpType : (programHeader mem' (elf + .ofNat phoff) i).pType =
      (programHeader mem (elf + .ofNat phoff) i).pType := hsame.field_eq 0 htype
  rw [placeSegment, placeSegment, hpType]
  by_cases hload : (programHeader mem (elf + .ofNat phoff) i).pType = ptLoad
  · obtain ⟨hvaddr, hfilesz, hcontents, hmemsz⟩ := hrest hload
    have hpVaddr : (programHeader mem' (elf + .ofNat phoff) i).pVaddr =
        (programHeader mem (elf + .ofNat phoff) i).pVaddr := hsame.field_eq 8 hvaddr
    have hpFilesz : (programHeader mem' (elf + .ofNat phoff) i).pFilesz =
        (programHeader mem (elf + .ofNat phoff) i).pFilesz := hsame.field_eq 16 hfilesz
    have hfile : fileStores mem' elf (elf + .ofNat phoff) i =
        fileStores mem elf (elf + .ofNat phoff) i := by
      rw [fileStores, fileStores, hpVaddr, hpFilesz]
      by_cases hpos : 0 < (programHeader mem (elf + .ofNat phoff) i).pFilesz
      · obtain ⟨hoffset, hrun⟩ := hcontents hpos
        have hpOffset : (programHeader mem' (elf + .ofNat phoff) i).pOffset =
            (programHeader mem (elf + .ofNat phoff) i).pOffset := hsame.field_eq 4 hoffset
        rw [hpOffset]
        exact copyStores_congr hsame ((inFile_run_iff _ _).mpr hrun) _
      · rw [Nat.eq_zero_of_not_pos hpos, copyStores, copyStores]
    simp only [hload, if_true]
    rw [hfile, hpVaddr, bssStores, bssStores]
    have hcopied := hsame.storeAll (fileStores mem elf (elf + .ofNat phoff) i)
    have hmem : (programHeader (mem'.storeAll (fileStores mem elf (elf + .ofNat phoff) i))
          (elf + .ofNat phoff) i).pMemsz =
        (programHeader (mem.storeAll (fileStores mem elf (elf + .ofNat phoff) i))
          (elf + .ofNat phoff) i).pMemsz := hcopied.field_eq 20 hmemsz
    have hsz : (programHeader (mem'.storeAll (fileStores mem elf (elf + .ofNat phoff) i))
          (elf + .ofNat phoff) i).pFilesz =
        (programHeader (mem.storeAll (fileStores mem elf (elf + .ofNat phoff) i))
          (elf + .ofNat phoff) i).pFilesz := hcopied.field_eq 16 hfilesz
    rw [hmem, hsz]
  · simp only [hload, if_false]

theorem SameFile.loadSegments_eq (hsame : SameFile elf size.toNat mem mem') (hsize : 46 ≤ size.toNat)
    {phoff rounds i : Nat} (hin : SegmentsInFile size elf phoff rounds i mem) :
    loadSegments elf (elf + .ofNat phoff) rounds i mem' =
      loadSegments elf (elf + .ofNat phoff) rounds i mem := by
  induction rounds generalizing i mem mem' with
  | zero => rfl
  | succ rounds ih =>
      rw [loadSegments, loadSegments, hsame.ePhnum_eq hsize]
      rw [SegmentsInFile] at hin
      by_cases hmore : i < ePhnum mem elf
      · have hplace := hsame.placeSegment_eq (hin hmore).1
        rw [if_pos hmore, if_pos hmore, hplace]
        dsimp only
        rw [ih (hsame.storeAll _) (hin hmore).2]
      · rw [if_neg hmore, if_neg hmore]

theorem SameFile.checks_iff (hsame : SameFile elf size.toNat mem mem') {checks : List HeaderCheck}
    (hin : ChecksInFile size (mem.view elf) checks) :
    (∀ check ∈ checks, check.ok (mem'.view elf) = true) ↔
      ∀ check ∈ checks, check.ok (mem.view elf) = true := by
  induction checks with
  | nil => simp
  | cons check checks ih =>
      have hrun : ∀ a ∈ addressRun (elf + .ofNat check.off) check.len, InFile elf size.toNat a :=
        (inFile_run_iff _ _).mpr hin.1
      have hok : check.ok (mem'.view elf) = check.ok (mem.view elf) := by
        apply check.ok_congr
        intro j hj
        apply hsame
        apply hrun
        rw [addressRun, List.mem_map]
        refine ⟨j, List.mem_range.mpr hj, ?_⟩
        rw [UInt32.ofNat_add, UInt32.add_assoc]
      rw [List.forall_mem_cons, List.forall_mem_cons, hok]
      exact and_congr_right fun hpass => ih (hin.2 hpass)

/-- A load that meets only the file's bytes is the same in every memory that holds the file. -/
theorem FileComplete.elfLoad_eq (hcomplete : FileComplete mem elf size)
    (hsame : SameFile elf size.toNat mem mem') : elfLoad mem' elf = elfLoad mem elf := by
  have hvalid : ElfHeaderValid mem' elf ↔ ElfHeaderValid mem elf := by
    rw [elfHeaderValid_iff, elfHeaderValid_iff]
    exact hsame.checks_iff hcomplete.1
  by_cases haccepted : ElfHeaderValid mem elf
  · obtain ⟨hsize, hsegments⟩ := hcomplete.2 haccepted
    have hword : ∀ {m m' : Memory}, SameFile elf size.toNat m m' → ∀ off, off + 4 ≤ 46 →
        le32 (m'.view elf) off = le32 (m.view elf) off := by
      intro m m' hm off hoff
      have hlt := size.toNat_lt
      apply le32_congr
      intro j hj
      exact hm _ (inFile_add (by omega) (by omega))
    have hphoff : ePhoff mem' elf = ePhoff mem elf := hword hsame 28 (by omega)
    have hstores : elfStores mem' elf = elfStores mem elf := by
      rw [elfStores, elfStores, if_pos haccepted, if_pos (hvalid.mpr haccepted), phTable, phTable,
        hphoff]
      exact hsame.loadSegments_eq hsize hsegments
    have hentry := hword (hsame.storeAll (elfStores mem elf)) 24 (by omega)
    rw [elfLoad, elfLoad, if_pos haccepted, if_pos (hvalid.mpr haccepted), hstores, eEntry,
      eEntry, hentry]
  · rw [elfLoad, elfLoad, if_neg haccepted, if_neg fun h => haccepted (hvalid.mp h)]

theorem SegmentInFile.of_sameFile {phoff i : Nat} (hin : SegmentInFile size mem elf phoff i)
    (hsame : SameFile elf size.toNat mem mem') : SegmentInFile size mem' elf phoff i := by
  obtain ⟨htype, hrest⟩ := hin
  have hpType : (programHeader mem' (elf + .ofNat phoff) i).pType =
      (programHeader mem (elf + .ofNat phoff) i).pType := hsame.field_eq 0 htype
  refine ⟨htype, ?_⟩
  rw [hpType]
  intro hload
  obtain ⟨hvaddr, hfilesz, hcontents, hmemsz⟩ := hrest hload
  have hpFilesz : (programHeader mem' (elf + .ofNat phoff) i).pFilesz =
      (programHeader mem (elf + .ofNat phoff) i).pFilesz := hsame.field_eq 16 hfilesz
  refine ⟨hvaddr, hfilesz, ?_, hmemsz⟩
  rw [hpFilesz]
  intro hpos
  obtain ⟨hoffset, hrun⟩ := hcontents hpos
  have hpOffset : (programHeader mem' (elf + .ofNat phoff) i).pOffset =
      (programHeader mem (elf + .ofNat phoff) i).pOffset := hsame.field_eq 4 hoffset
  rw [hpOffset]
  exact ⟨hoffset, hrun⟩

theorem SameFile.symm {size : Nat} (hsame : SameFile elf size mem mem') :
    SameFile elf size mem' mem :=
  fun a ha => (hsame a ha).symm

theorem segmentsInFile_iff (hsize : 46 ≤ size.toNat) {phoff rounds i : Nat}
    (hsame : SameFile elf size.toNat mem mem') (hrounds : ePhnum mem elf ≤ i + rounds)
    (houtside : ∀ store ∈ loadSegments elf (elf + .ofNat phoff) rounds i mem',
      ¬ InFile elf size.toNat store.1) :
    SegmentsInFile size elf phoff rounds i mem' ↔
      ∀ j, i ≤ j → j < ePhnum mem elf → SegmentInFile size mem elf phoff j := by
  induction rounds generalizing mem' i with
  | zero =>
      simp only [SegmentsInFile, true_iff]
      intro j hij hj
      omega
  | succ rounds ih =>
      have hphnum := hsame.ePhnum_eq hsize
      rw [SegmentsInFile, hphnum]
      by_cases hmore : i < ePhnum mem elf
      · rw [loadSegments, hphnum, if_pos hmore, List.forall_mem_append] at houtside
        have hkeep : SameFile elf size.toNat mem
            (mem'.storeAll (placeSegment mem' elf (elf + .ofNat phoff) i)) := by
          intro a ha
          rw [Memory.storeAll_of_not_mem _ _ _ fun store hs heq => houtside.1 store hs (heq ▸ ha)]
          exact hsame a ha
        have hone : SegmentInFile size mem' elf phoff i ↔ SegmentInFile size mem elf phoff i :=
          ⟨fun h => h.of_sameFile hsame.symm, fun h => h.of_sameFile hsame⟩
        rw [hone, ih hkeep (by omega) houtside.2]
        simp only [hmore, forall_const]
        constructor
        · rintro ⟨hfirst, hlater⟩ j hij hj
          rcases Nat.eq_or_lt_of_le hij with rfl | hlt
          · exact hfirst
          · exact hlater j hlt hj
        · intro hall
          exact ⟨hall i le_rfl hmore, fun j hij hj => hall j (by omega) hj⟩
      · simp only [hmore, false_imp_iff, true_iff]
        intro j hij hj
        omega

theorem checksInFile_headerChecks (hsize : 46 ≤ size.toNat) (header : Sector) :
    ChecksInFile size header headerChecks := by
  have hrun : ∀ off n, off + n ≤ 20 → FileRun size off n := by
    intro off n hn
    refine .inr ⟨Nat.zero_le _, ?_⟩
    rw [UInt32.toNat_ofNat_of_lt' (show off < 2 ^ 32 by omega)]
    omega
  simp [headerChecks, ChecksInFile, byteCheck, halfCheck, hrun]

end Reads

/-- The loader takes a file from the file's own bytes exactly if the file is complete.  For a file
that is accepted and that its own segments do not overwrite, this is a condition on its size and
its program headers. -/
theorem elfLoad_ownBytes_iff (mem : Memory) (elf size : UInt32) :
    (OwnBytesOnly mem elf size ↔ FileComplete mem elf size) ∧
      (ElfHeaderValid mem elf → (∀ store ∈ elfStores mem elf, ¬ InFile elf size.toNat store.1) →
        (OwnBytesOnly mem elf size ↔
          46 ≤ size.toNat ∧
            ∀ i < ePhnum mem elf, SegmentInFile size mem elf (ePhoff mem elf) i)) := by
  have hiff : OwnBytesOnly mem elf size ↔ FileComplete mem elf size := by
    constructor
    · intro hown
      exact elfReads_iff.mp hown.reads
    · intro hcomplete
      exact ⟨elfReads_iff.mpr hcomplete, fun _ hsame => hcomplete.elfLoad_eq hsame⟩
  refine ⟨hiff, ?_⟩
  intro hvalid houtside
  rw [elfStores, if_pos hvalid] at houtside
  have hphnum : ePhnum mem elf < 2 ^ 16 := le16_lt _ _
  rw [hiff, FileComplete]
  simp only [hvalid, forall_const]
  constructor
  · rintro ⟨-, hsize, hsegments⟩
    have hall := (segmentsInFile_iff hsize (fun _ _ => rfl) (by omega) houtside).mp hsegments
    exact ⟨hsize, fun i hi => hall i (Nat.zero_le i) hi⟩
  · rintro ⟨hsize, hall⟩
    refine ⟨checksInFile_headerChecks hsize _, hsize, ?_⟩
    exact (segmentsInFile_iff hsize (fun _ _ => rfl) (by omega) houtside).mpr fun i _ hi => hall i hi

/-- The sample with another address in its program header, behind the first 60 bytes. -/
def otherElf : List UInt8 :=
  (sampleElf 0x200000).take 60 ++ leBytes 0x300000 ++ (sampleElf 0x200000).drop 64

/-- The sample, cut in its program header: what lies behind it says where to load it. -/
theorem elfLoad_reads_leftovers :
    ¬ ∀ (elf size : UInt32) (mem mem' : Memory), SameFile elf size.toNat mem mem' →
      elfLoad mem' elf = elfLoad mem elf := by
  intro hclaim
  have hsame : SameFile 0x100000 60 (.ofBytes 0x100000 (sampleElf 0x200000))
      (.ofBytes 0x100000 otherElf) := by
    intro a ha
    have hbytes : ∀ n < 60, otherElf.getD n 0 = (sampleElf 0x200000).getD n 0 := by decide
    exact hbytes _ ha
  have hload := hclaim 0x100000 60 _ _ hsame
  revert hload
  decide +kernel

end Magnos
