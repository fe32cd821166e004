import Magnos.Fat32.Volume
import Magnos.Syscall.UserSpace

/-!
# The ELF loader

The first half of `elf_load_and_exec`: the header check and the loop that places the segments
of a program.  The file is read in memory, where the loop also writes, so every field is read
at the moment the source reads it.
-/

namespace Magnos

open Framework

/-- `elf_validate_header` returns 0. -/
def ElfHeaderValid (mem : Memory) (elf : UInt32) : Prop :=
  let header := mem.view elf
  (header 0 = 0x7F ∧ header 1 = 0x45 ∧ header 2 = 0x4C ∧ header 3 = 0x46) ∧
    header 4 = 1 ∧ header 5 = 1 ∧ le16 header 18 = 3 ∧ (le16 header 16 = 2 ∨ le16 header 16 = 3)

instance (mem : Memory) (elf : UInt32) : Decidable (ElfHeaderValid mem elf) :=
  inferInstanceAs (Decidable ((_ ∧ _) ∧ _))

def eEntry (mem : Memory) (elf : UInt32) : Nat := le32 (mem.view elf) 24

def ePhoff (mem : Memory) (elf : UInt32) : Nat := le32 (mem.view elf) 28

def ePhnum (mem : Memory) (elf : UInt32) : Nat := le16 (mem.view elf) 44

/-- The fields of `elf32_phdr_t` that the loader reads. -/
structure ProgramHeader where
  pType : Nat
  pOffset : Nat
  pVaddr : Nat
  pFilesz : Nat
  pMemsz : Nat

def ptLoad : Nat := 1

/-- `ph[i]`. -/
def programHeader (mem : Memory) (ph : UInt32) (i : Nat) : ProgramHeader :=
  let entry := mem.view (ph + .ofNat (32 * i))
  { pType := le32 entry 0
    pOffset := le32 entry 4
    pVaddr := le32 entry 8
    pFilesz := le32 entry 16
    pMemsz := le32 entry 20 }

/-- The stores of `memcpy` for a segment's file bytes. -/
def fileStores (mem : Memory) (elf ph : UInt32) (i : Nat) : List (UInt32 × UInt8) :=
  let h := programHeader mem ph i
  copyStores mem (.ofNat h.pVaddr) (elf + .ofNat h.pOffset) h.pFilesz

/-- The stores of `memset` for the rest of a segment that is placed at `dest`. -/
def bssStores (mem : Memory) (dest ph : UInt32) (i : Nat) : List (UInt32 × UInt8) :=
  let h := programHeader mem ph i
  storesAt (dest + .ofNat h.pFilesz) (List.replicate (h.pMemsz - h.pFilesz) 0)

/-- The body of the loop; both copies are empty where the source skips them. -/
def placeSegment (mem : Memory) (elf ph : UInt32) (i : Nat) : List (UInt32 × UInt8) :=
  let h := programHeader mem ph i
  if h.pType = ptLoad then
    let copied := fileStores mem elf ph i
    copied ++ bssStores (mem.storeAll copied) (.ofNat h.pVaddr) ph i
  else []

/-- The loop over the program headers from the `i`-th on. -/
def loadSegments (elf ph : UInt32) : (rounds i : Nat) → Memory → List (UInt32 × UInt8)
  | 0, _, _ => []
  | rounds + 1, i, mem =>
      if i < ePhnum mem elf then
        let placed := placeSegment mem elf ph i
        placed ++ loadSegments elf ph rounds (i + 1) (mem.storeAll placed)
      else []

/-- The address of the program header table. -/
def phTable (mem : Memory) (elf : UInt32) : UInt32 := elf + .ofNat (ePhoff mem elf)

/-- Everything the loader stores; a file whose header is refused is not loaded.  `e_phnum` is
a 16-bit number, so the loop ends. -/
def elfStores (mem : Memory) (elf : UInt32) : List (UInt32 × UInt8) :=
  if ElfHeaderValid mem elf then loadSegments elf (phTable mem elf) (2 ^ 16) 0 mem else []

/-- A segment, as the loop meets it, that is placed inside the user region. -/
def SegmentFits (mem : Memory) (elf ph : UInt32) (i : Nat) : Prop :=
  let h := programHeader mem ph i
  h.pType = ptLoad →
    UserRun (.ofNat h.pVaddr) h.pFilesz ∧
      let h' := programHeader (mem.storeAll (fileStores mem elf ph i)) ph i
      UserRun (.ofNat h.pVaddr + .ofNat h'.pFilesz) (h'.pMemsz - h'.pFilesz)

/-- Every segment the loop meets is placed inside the user region. -/
def SegmentsFit (elf ph : UInt32) : (rounds i : Nat) → Memory → Prop
  | 0, _, _ => True
  | rounds + 1, i, mem =>
      i < ePhnum mem elf → SegmentFits mem elf ph i ∧
        SegmentsFit elf ph rounds (i + 1) (mem.storeAll (placeSegment mem elf ph i))

theorem placeSegment_user_iff (mem : Memory) (elf ph : UInt32) (i : Nat) :
    (∀ store ∈ placeSegment mem elf ph i, UserAddr store.1) ↔ SegmentFits mem elf ph i := by
  have hrun : ∀ (stores : List (UInt32 × UInt8)) (addr : UInt32) (n : Nat),
      stores.map Prod.fst = addressRun addr n →
      ((∀ store ∈ stores, UserAddr store.1) ↔ UserRun addr n) := by
    intro stores addr n haddr
    rw [userRun_iff, ← haddr]
    simp
  have hfile := hrun _ _ _ (copyStores_addresses mem
    (.ofNat (programHeader mem ph i).pVaddr) (elf + .ofNat (programHeader mem ph i).pOffset)
    (programHeader mem ph i).pFilesz)
  have hbss := fun (m : Memory) => hrun _ _ _ (storesAt_addresses
    (.ofNat (programHeader mem ph i).pVaddr + .ofNat (programHeader m ph i).pFilesz)
    (List.replicate ((programHeader m ph i).pMemsz - (programHeader m ph i).pFilesz) 0))
  unfold placeSegment SegmentFits
  by_cases hload : (programHeader mem ph i).pType = ptLoad
  · simp only [hload, if_true, forall_const, List.forall_mem_append]
    refine and_congr hfile ?_
    rw [bssStores, hbss, List.length_replicate]
  · simp [hload]

theorem loadSegments_user_iff (elf ph : UInt32) (rounds i : Nat) (mem : Memory) :
    (∀ store ∈ loadSegments elf ph rounds i mem, UserAddr store.1) ↔
      SegmentsFit elf ph rounds i mem := by
  induction rounds generalizing i mem with
  | zero => simp [loadSegments, SegmentsFit]
  | succ rounds ih =>
      rw [loadSegments, SegmentsFit]
      by_cases hmore : i < ePhnum mem elf
      · rw [if_pos hmore]
        simp only [List.forall_mem_append, placeSegment_user_iff, ih, hmore, forall_const]
      · simp [hmore]

theorem elfStores_user_iff (mem : Memory) (elf : UInt32) :
    (∀ store ∈ elfStores mem elf, UserAddr store.1) ↔
      ¬ ElfHeaderValid mem elf ∨ SegmentsFit elf (phTable mem elf) (2 ^ 16) 0 mem := by
  unfold elfStores
  by_cases hvalid : ElfHeaderValid mem elf
  · rw [if_pos hvalid, loadSegments_user_iff]
    simp [hvalid]
  · simp [hvalid]

end Magnos
