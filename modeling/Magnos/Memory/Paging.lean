import Magnos.Memory.Heap

/-!
# Paging

The two-level page tables of `paging.c`.  A page that serves as directory or table is an
array of entries at its physical address; `kernel_page_directory` and the tables are read
and written through the identity mapping.
-/

namespace Magnos

open Framework

variable {Pages : Type}

def pagePresent : Nat := 0x01

def pageWritable : Nat := 0x02

def pageUser : Nat := 0x04

def pdIndex (virt : Nat) : Nat := virt >>> 22 &&& 0x3FF

def ptIndex (virt : Nat) : Nat := virt >>> 12 &&& 0x3FF

def pageFrame (entry : Nat) : Nat := entry &&& 0xFFFFF000

/-- `kernel_page_directory` and the entries of every page read as an array of words. -/
structure Paging where
  directory : Nat
  entry : Nat → Nat → Nat

def Paging.zeroPage (m : Paging) (page : Nat) : Paging :=
  { m with entry := Function.update m.entry page fun _ => 0 }

def Paging.setEntry (m : Paging) (page i value : Nat) : Paging :=
  { m with entry := Function.update m.entry page (Function.update (m.entry page) i value) }

def identityMapEntries : Nat := 4

/-- The table that identity-maps the `i`-th 4 MB. -/
@[irreducible]
def fillTable (m : Paging) (pt i : Nat) : Paging :=
  (List.range 1024).foldl
    (fun m j => m.setEntry pt j ((i * 1024 + j) * pageSize ||| pagePresent ||| pageWritable)) m

/-- One round of the loop of `paging_init`. -/
def initTable (src : PageSource Pages) (dir : Nat) (state : Paging × Pages) (i : Nat) :
    Paging × Pages :=
  let pt := (src.alloc state.2).1
  let m := fillTable (state.1.zeroPage pt) pt i
  (m.setEntry dir i (pt ||| pagePresent ||| pageWritable), (src.alloc state.2).2)

def pagingInit (src : PageSource Pages) (m : Paging) (pages : Pages) : Paging × Pages :=
  let dir := (src.alloc pages).1
  let m := { m with directory := dir }.zeroPage dir
  (List.range identityMapEntries).foldl (initTable src dir) (m, (src.alloc pages).2)

/-- The end of `paging_map`, once the directory entry is present. -/
def mapEntry (m : Paging) (virt phys flags : Nat) : Paging :=
  let m :=
    if flags &&& pageUser ≠ 0 then
      m.setEntry m.directory (pdIndex virt) (m.entry m.directory (pdIndex virt) ||| pageUser)
    else m
  let pt := pageFrame (m.entry m.directory (pdIndex virt))
  m.setEntry pt (ptIndex virt) (phys &&& 0xFFFFF000 ||| flags &&& 0xFFF ||| pagePresent)

def pagingMap (src : PageSource Pages) (m : Paging) (pages : Pages) (virt phys flags : Nat) :
    Paging × Pages :=
  if m.entry m.directory (pdIndex virt) &&& pagePresent = 0 then
    let pt := (src.alloc pages).1
    if pt = 0 then (m, (src.alloc pages).2)
    else
      let m := (m.zeroPage pt).setEntry m.directory (pdIndex virt)
        (pt ||| pagePresent ||| pageWritable)
      (mapEntry m virt phys flags, (src.alloc pages).2)
  else (mapEntry m virt phys flags, pages)

def pagingUnmap (m : Paging) (virt : Nat) : Paging :=
  if m.entry m.directory (pdIndex virt) &&& pagePresent = 0 then m
  else
    let pt := pageFrame (m.entry m.directory (pdIndex virt))
    m.setEntry pt (ptIndex virt) 0

def pagingGetPhys (m : Paging) (virt : Nat) : Nat :=
  if m.entry m.directory (pdIndex virt) &&& pagePresent = 0 then 0
  else
    let pt := pageFrame (m.entry m.directory (pdIndex virt))
    if m.entry pt (ptIndex virt) &&& pagePresent = 0 then 0
    else pageFrame (m.entry pt (ptIndex virt)) ||| virt &&& 0xFFF

/-- The flags with which `elf_load_and_exec` maps the pages of a program. -/
def userFlags : Nat := pagePresent ||| pageWritable ||| pageUser

/-- One round of the loop of `elf_load_and_exec` that opens the user region. -/
def mapUserPage (src : PageSource Pages) (state : Paging × Pages) (i : Nat) : Paging × Pages :=
  pagingMap src state.1 state.2 (0x200000 + i * pageSize) (0x200000 + i * pageSize) userFlags

def userPageCount : Nat := (0x300000 - 0x200000) / pageSize

theorem userPageCount_eq : userPageCount = 0x100 := rfl

/-- The mapping loop of `elf_load_and_exec` and the user stack's page after it. -/
def mapUserPages (src : PageSource Pages) (m : Paging) (pages : Pages) : Paging × Pages :=
  let region := (List.range userPageCount).foldl (mapUserPage src) (m, pages)
  pagingMap src region.1 region.2 0x300000 0x300000 userFlags

/-- Some virtual page is mapped to the frame with `PAGE_USER` in both entries. -/
def UserMapped (m : Paging) (frame : Nat) : Prop :=
  ∃ i < 1024, ∃ j < 1024,
    let pde := m.entry m.directory i
    let pte := m.entry (pageFrame pde) j
    pde &&& pagePresent ≠ 0 ∧ pde &&& pageUser ≠ 0 ∧
      pte &&& pagePresent ≠ 0 ∧ pte &&& pageUser ≠ 0 ∧ pageFrame pte = frame

theorem pageFrame_or (q l : Nat) (hq : q * pageSize < 2 ^ 32) (hl : l < pageSize) :
    pageFrame (q * pageSize ||| l) = q * pageSize := by
  have hlt : q * pageSize + l < 2 ^ 32 := by
    simp only [pageSize] at hq hl ⊢
    have hpage : q < 2 ^ 20 := by omega
    linarith
  have hdiv : (q * pageSize + l) / 2 ^ 12 * 2 ^ 12 = q * pageSize := by
    simp only [pageSize] at hl ⊢
    omega
  have hsum : q * pageSize ||| l = q * pageSize + l := or_low 12 q l hl
  have hmask : (q * pageSize + l) &&& 0xFFFFF000 = (q * pageSize + l) / 2 ^ 12 * 2 ^ 12 :=
    and_highMask 12 _ (by decide) hlt
  rw [pageFrame, hsum, hmask, hdiv]

theorem and_flag (q l flag : Nat) (hflag : flag < pageSize) :
    (q * pageSize ||| l) &&& flag = l &&& flag :=
  or_low_and 12 q l flag hflag

theorem pageFrame_eq (phys : Nat) (hphys : phys < 2 ^ 32) :
    phys &&& 0xFFFFF000 = phys / pageSize * pageSize :=
  and_highMask 12 phys (by decide) hphys

/-- A directory entry for a table: a page-aligned address and flags that include
`PAGE_PRESENT`. -/
def IsTableEntry (pde pt : Nat) : Prop :=
  ∃ q l, pde = q * pageSize ||| l ∧ pt = q * pageSize ∧ pt < 2 ^ 32 ∧ l < pageSize ∧
    l &&& pagePresent ≠ 0

theorem IsTableEntry.pageFrame {pde pt : Nat} (hentry : IsTableEntry pde pt) :
    Magnos.pageFrame pde = pt := by
  obtain ⟨q, l, rfl, rfl, hq, hl, -⟩ := hentry
  exact pageFrame_or q l hq hl

theorem IsTableEntry.present {pde pt : Nat} (hentry : IsTableEntry pde pt) :
    pde &&& pagePresent ≠ 0 := by
  obtain ⟨q, l, rfl, -, -, -, hflag⟩ := hentry
  rwa [and_flag q l pagePresent (by decide)]

theorem IsTableEntry.or_user {pde pt : Nat} (hentry : IsTableEntry pde pt) :
    IsTableEntry (pde ||| pageUser) pt ∧ (pde ||| pageUser) &&& pageUser ≠ 0 := by
  obtain ⟨q, l, rfl, rfl, hq, hl, hflag⟩ := hentry
  rw [Nat.or_assoc]
  refine ⟨⟨q, l ||| pageUser, rfl, rfl, hq, ?_, ?_⟩, ?_⟩
  · exact Nat.or_lt_two_pow (n := 12) hl (by decide)
  · rw [Nat.and_or_distrib_right]
    intro hzero
    exact hflag (Nat.or_eq_zero_iff.mp hzero).1
  · rw [and_flag q _ pageUser (by decide), Nat.and_or_distrib_right]
    intro hzero
    exact absurd (Nat.or_eq_zero_iff.mp hzero).2 (by decide)

theorem isTableEntry_fresh (pt : Nat) (haligned : pt % pageSize = 0) (hpt : pt < 2 ^ 32) :
    IsTableEntry (pt ||| pagePresent ||| pageWritable) pt := by
  have hmul : pt = pt / pageSize * pageSize := by
    simp only [pageSize] at *
    omega
  refine ⟨pt / pageSize, 3, ?_, hmul, hpt, by decide, by decide⟩
  rw [Nat.or_assoc, ← hmul]
  rfl

theorem mapped_entry (phys flags : Nat) (hphys : phys < 2 ^ 32) :
    pageFrame (phys &&& 0xFFFFF000 ||| flags &&& 0xFFF ||| pagePresent) =
        phys / pageSize * pageSize ∧
      (phys &&& 0xFFFFF000 ||| flags &&& 0xFFF ||| pagePresent) &&& pagePresent ≠ 0 ∧
      (phys &&& 0xFFFFF000 ||| flags &&& 0xFFF ||| pagePresent) &&& pageUser =
        flags &&& pageUser := by
  have hlow : flags &&& 0xFFF < pageSize := Nat.and_lt_two_pow flags (n := 12) (by decide)
  rw [pageFrame_eq phys hphys, Nat.or_assoc]
  refine ⟨?_, ?_, ?_⟩
  · apply pageFrame_or
    · simp only [pageSize]
      omega
    · exact Nat.or_lt_two_pow (n := 12) hlow (by decide)
  · rw [and_flag _ _ pagePresent (by decide), Nat.and_or_distrib_right]
    intro hzero
    exact absurd (Nat.or_eq_zero_iff.mp hzero).2 (by decide)
  · rw [and_flag _ _ pageUser (by decide), Nat.and_or_distrib_right, Nat.and_assoc]
    have hmask : 0xFFF &&& pageUser = pageUser := by decide
    have hother : pagePresent &&& pageUser = 0 := by decide
    rw [hmask, hother, Nat.or_zero]

end Magnos
