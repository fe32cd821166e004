import Magnos.Framework.Word32
import Magnos.Memory.Pmm

/-!
# Kernel heap

The first-fit allocator of `heap.c`.  Block headers are `struct block_header` objects at
their addresses, linked through `next`; the loops over the list take the number of steps
they may run, and `none` is a loop that has not ended.  Pages come from any `PageSource`,
of which the physical memory manager is one.
-/

namespace Magnos

open Framework

/-- A supplier of physical pages: the result `0` is a refusal, every other result is a
page-aligned 32-bit address that the supplier had not given out before. -/
structure PageSource (Pages : Type) where
  alloc : Pages → Nat × Pages
  Available : Pages → Nat → Prop
  aligned : ∀ s p, Available s p → p % pageSize = 0
  bounded : ∀ s p, Available s p → p < 2 ^ 32
  alloc_available : ∀ s, (alloc s).1 ≠ 0 → Available s (alloc s).1
  alloc_taken : ∀ s, (alloc s).1 ≠ 0 → ¬ Available (alloc s).2 (alloc s).1
  alloc_shrinks : ∀ s p, Available (alloc s).2 p → Available s p

theorem freePage_aligned (bitmap : Bitmap) (p : Nat)
    (havail : p % pageSize = 0 ∧ PageFree bitmap (p / pageSize)) : p % pageSize = 0 := havail.1

theorem freePage_bounded (bitmap : Bitmap) (p : Nat)
    (havail : p % pageSize = 0 ∧ PageFree bitmap (p / pageSize)) : p < 2 ^ 32 := by
  have hpage := havail.2.1
  rw [totalPages_eq] at hpage
  simp only [pageSize] at hpage
  omega

theorem pmmAlloc_available (bitmap : Bitmap) (hne : (pmmAlloc bitmap).1 ≠ 0) :
    (pmmAlloc bitmap).1 % pageSize = 0 ∧ PageFree bitmap ((pmmAlloc bitmap).1 / pageSize) := by
  rcases pmmAlloc_cases bitmap with ⟨p, hlow, halloc⟩ | ⟨-, halloc⟩
  · rw [halloc, Nat.mul_mod_left, Nat.mul_div_cancel _ (by decide)]
    exact ⟨rfl, hlow.1⟩
  · exact (hne (by rw [halloc])).elim

theorem pmmAlloc_taken (bitmap : Bitmap) (hne : (pmmAlloc bitmap).1 ≠ 0) :
    ¬ ((pmmAlloc bitmap).1 % pageSize = 0 ∧
      PageFree (pmmAlloc bitmap).2 ((pmmAlloc bitmap).1 / pageSize)) := by
  rcases pmmAlloc_cases bitmap with ⟨p, hlow, halloc⟩ | ⟨-, halloc⟩
  · rw [halloc, Nat.mul_div_cancel _ (by decide)]
    exact fun havail => ((pageFree_bitmapSet bitmap p p).mp havail.2).1 rfl
  · exact (hne (by rw [halloc])).elim

theorem pmmAlloc_shrinks (bitmap : Bitmap) (p : Nat)
    (havail : p % pageSize = 0 ∧ PageFree (pmmAlloc bitmap).2 (p / pageSize)) :
    p % pageSize = 0 ∧ PageFree bitmap (p / pageSize) := by
  rcases pmmAlloc_cases bitmap with ⟨q, hlow, halloc⟩ | ⟨-, halloc⟩
  · rw [halloc] at havail
    exact ⟨havail.1, ((pageFree_bitmapSet bitmap q _).mp havail.2).2⟩
  · rwa [halloc] at havail

/-- The physical memory manager as a supplier. -/
def pmmSource : PageSource Bitmap where
  alloc := pmmAlloc
  Available bitmap p := p % pageSize = 0 ∧ PageFree bitmap (p / pageSize)
  aligned := freePage_aligned
  bounded := freePage_bounded
  alloc_available := pmmAlloc_available
  alloc_taken := pmmAlloc_taken
  alloc_shrinks := pmmAlloc_shrinks

def headerSize : Nat := 16

def minAlloc : Nat := 16

def initialPages : Nat := 16

/-- `block_header_t`, without its padding word. -/
structure BlockHeader where
  size : Nat
  isFree : Nat
  next : Nat
deriving DecidableEq

/-- The heap's statics, the headers in memory and the page supplier.  `taken` lists the
pages obtained so far; no code reads it. -/
structure Heap (Pages : Type) where
  hdr : Nat → BlockHeader
  freeList : Nat
  heapPages : Nat
  pages : Pages
  taken : List Nat

variable {Pages : Type}

/-- Overwrite the header at an address. -/
def Heap.setHdr (h : Heap Pages) (a : Nat) (b : BlockHeader) : Heap Pages :=
  { h with hdr := Function.update h.hdr a b }

/-- No walk over distinct 16-byte aligned 32-bit addresses takes more steps. -/
def walkLimit : Nat := 2 ^ 28

/-- The walk of `list_insert` from `cur` to the block after which `block` goes. -/
def listInsertWalk (hdr : Nat → BlockHeader) (block : Nat) : Nat → Nat → Option Nat
  | 0, _ => none
  | steps + 1, cur =>
      if (hdr cur).next ≠ 0 ∧ (hdr cur).next < block then
        listInsertWalk hdr block steps (hdr cur).next
      else some cur

def listInsert (h : Heap Pages) (block : Nat) : Option (Heap Pages) :=
  let h := h.setHdr block { h.hdr block with isFree := 1 }
  if h.freeList = 0 ∨ block < h.freeList then
    let h' := h.setHdr block { h.hdr block with next := h.freeList }
    some { h' with freeList := block }
  else
    (listInsertWalk h.hdr block walkLimit h.freeList).map fun cur =>
      let h := h.setHdr block { h.hdr block with next := (h.hdr cur).next }
      h.setHdr cur { h.hdr cur with next := block }

def coalesceForward (h : Heap Pages) (block : Nat) : Heap Pages :=
  let b := h.hdr block
  if b.next = 0 then h
  else
    let stop := (block + headerSize + b.size) % 2 ^ 32
    if stop = b.next ∧ (h.hdr b.next).isFree ≠ 0 then
      h.setHdr block
        { b with
          size := (b.size + (headerSize + (h.hdr b.next).size)) % 2 ^ 32
          next := (h.hdr b.next).next }
    else h

/-- The loop that coalesces every block of the list with its neighbour. -/
def coalesceAll : Nat → Nat → Heap Pages → Option (Heap Pages)
  | 0, _, _ => none
  | steps + 1, cur, h =>
      if cur = 0 then some h
      else
        let h := coalesceForward h cur
        coalesceAll steps (h.hdr cur).next h

/-- The end of `heap_add_page` and of `kfree`. -/
def insertAndCoalesce (h : Heap Pages) (block : Nat) : Option (Heap Pages) := do
  let h ← listInsert h block
  coalesceAll walkLimit h.freeList h

/-- A fresh page as one block. -/
def formatPage (h : Heap Pages) (page : Nat) : Heap Pages :=
  { h.setHdr page { size := pageSize - headerSize, isFree := 1, next := 0 } with
    heapPages := (h.heapPages + 1) % 2 ^ 32
    taken := page :: h.taken }

/-- `heap_add_page` with the page's address, `0` when no page was left. -/
def heapAddPage (src : PageSource Pages) (h : Heap Pages) : Option (Nat × Heap Pages) :=
  let page := (src.alloc h.pages).1
  let h := { h with pages := (src.alloc h.pages).2 }
  if page = 0 then some (0, h)
  else (insertAndCoalesce (formatPage h page) page).map fun h => (page, h)

/-- `n` rounds of `heap_add_page`, whatever they return. -/
def addPages (src : PageSource Pages) : Nat → Heap Pages → Option (Heap Pages)
  | 0, h => some h
  | n + 1, h => do
      let (_, h) ← heapAddPage src h
      addPages src n h

def heapInit (src : PageSource Pages) (h : Heap Pages) : Option (Heap Pages) :=
  addPages src initialPages h

/-- Cut the tail off a block that is large enough to be split. -/
def splitBlock (h : Heap Pages) (cur size : Nat) : Heap Pages :=
  let c := h.hdr cur
  if c.size ≥ (size + headerSize + minAlloc) % 2 ^ 32 then
    let newBlock := (cur + headerSize + size) % 2 ^ 32
    let h := h.setHdr newBlock
      { size := sub32 (sub32 c.size size) headerSize, isFree := 1, next := c.next }
    h.setHdr cur { h.hdr cur with next := newBlock, size := size }
  else h

/-- Remove a block from the free list; `prev` is the block before it, `0` at the head. -/
def unlinkBlock (h : Heap Pages) (cur prev : Nat) : Heap Pages :=
  let h := h.setHdr cur { h.hdr cur with isFree := 0 }
  let h :=
    if prev ≠ 0 then h.setHdr prev { h.hdr prev with next := (h.hdr cur).next }
    else { h with freeList := (h.hdr cur).next }
  h.setHdr cur { h.hdr cur with next := 0 }

/-- What the first-fit search does with the block it has chosen. -/
def takeBlock (h : Heap Pages) (cur prev size : Nat) : Heap Pages :=
  unlinkBlock (splitBlock h cur size) cur prev

/-- The first-fit loop of `kmalloc`: the pointer it returns, if it finds a block. -/
def kmallocSearch (h : Heap Pages) (size : Nat) :
    Nat → Nat → Nat → Option (Option Nat × Heap Pages)
  | 0, _, _ => none
  | steps + 1, cur, prev =>
      if cur = 0 then some (none, h)
      else if (h.hdr cur).isFree ≠ 0 ∧ (h.hdr cur).size ≥ size then
        some (some ((cur + headerSize) % 2 ^ 32), takeBlock h cur prev size)
      else kmallocSearch h size steps (h.hdr cur).next cur

/-- The growth loop of `kmalloc`; `false` when a page was refused. -/
def growHeap (src : PageSource Pages) : Nat → Heap Pages → Option (Bool × Heap Pages)
  | 0, h => some (true, h)
  | n + 1, h => do
      let (page, h) ← heapAddPage src h
      if page = 0 then return (false, h) else growHeap src n h

/-- The size `kmalloc` searches for. -/
def allocSize (size : Nat) : Nat :=
  let size := (size + 16 - 1) % 2 ^ 32 &&& 0xFFFFFFF0
  if size < minAlloc then minAlloc else size

def pagesNeeded (size : Nat) : Nat := (size + headerSize + pageSize - 1) % 2 ^ 32 / pageSize

/-- `kmalloc` with the pointer it returns, `0` for a refusal. -/
def kmalloc (src : PageSource Pages) (h : Heap Pages) (size : Nat) :
    Option (Nat × Heap Pages) :=
  if size = 0 then some (0, h)
  else do
    let size := allocSize size
    let (found, h) ← kmallocSearch h size walkLimit h.freeList 0
    match found with
    | some p => return (p, h)
    | none =>
        let (grown, h) ← growHeap src (pagesNeeded size) h
        if grown = false then return (0, h)
        else
          let (found, h) ← kmallocSearch h size walkLimit h.freeList 0
          return (found.getD 0, h)

def kfree (h : Heap Pages) (ptr : Nat) : Option (Heap Pages) :=
  if ptr = 0 then some h else insertAndCoalesce h (sub32 ptr headerSize)

structure HeapStats where
  totalBytes : Nat
  freeBytes : Nat
  usedBytes : Nat
  numFreeBlocks : Nat
  numPages : Nat
deriving DecidableEq

/-- The loop of `heap_get_stats`: free bytes and free blocks. -/
def heapStatsWalk (hdr : Nat → BlockHeader) : Nat → Nat → Nat × Nat → Option (Nat × Nat)
  | 0, _, _ => none
  | steps + 1, cur, (bytes, blocks) =>
      if cur = 0 then some (bytes, blocks)
      else if (hdr cur).isFree ≠ 0 then
        heapStatsWalk hdr steps (hdr cur).next
          ((bytes + (hdr cur).size) % 2 ^ 32, (blocks + 1) % 2 ^ 32)
      else heapStatsWalk hdr steps (hdr cur).next (bytes, blocks)

def heapGetStats (h : Heap Pages) : Option HeapStats := do
  let total := h.heapPages * pageSize % 2 ^ 32
  let (bytes, blocks) ← heapStatsWalk h.hdr walkLimit h.freeList (0, 0)
  return ⟨total, bytes, sub32 total bytes, blocks, h.heapPages⟩

section Pages

variable {src : PageSource Pages} {h h' : Heap Pages}

theorem coalesceForward_pages (h : Heap Pages) (block : Nat) :
    (coalesceForward h block).pages = h.pages := by
  unfold coalesceForward
  dsimp only
  split
  · rfl
  · split <;> rfl

theorem coalesceAll_pages {steps cur : Nat} (hrun : coalesceAll steps cur h = some h') :
    h'.pages = h.pages := by
  induction steps generalizing cur h with
  | zero => simp [coalesceAll] at hrun
  | succ steps ih =>
      simp only [coalesceAll] at hrun
      split at hrun
      · rw [Option.some.inj hrun]
      · rw [ih hrun, coalesceForward_pages]

theorem listInsert_pages {block : Nat} (hrun : listInsert h block = some h') :
    h'.pages = h.pages := by
  simp only [listInsert] at hrun
  split at hrun
  · rw [← Option.some.inj hrun]
    rfl
  · obtain ⟨cur, -, rfl⟩ := Option.map_eq_some_iff.mp hrun
    rfl

theorem insertAndCoalesce_pages {block : Nat} (hrun : insertAndCoalesce h block = some h') :
    h'.pages = h.pages := by
  obtain ⟨h₁, hinsert, hcoalesce⟩ := Option.bind_eq_some_iff.mp hrun
  rw [coalesceAll_pages hcoalesce, listInsert_pages hinsert]

theorem heapAddPage_pages {page : Nat} (hrun : heapAddPage src h = some (page, h')) :
    h'.pages = (src.alloc h.pages).2 := by
  simp only [heapAddPage] at hrun
  split at hrun
  · simp only [Option.some.injEq, Prod.mk.injEq] at hrun
    rw [← hrun.2]
  · obtain ⟨h₁, hinsert, heq⟩ := Option.map_eq_some_iff.mp hrun
    simp only [Prod.mk.injEq] at heq
    rw [← heq.2, insertAndCoalesce_pages hinsert]
    rfl

theorem takeBlock_pages (h : Heap Pages) (cur prev size : Nat) :
    (takeBlock h cur prev size).pages = h.pages := by
  simp only [takeBlock, unlinkBlock, splitBlock, Heap.setHdr]
  split <;> split <;> rfl

theorem kmallocSearch_pages {size steps cur prev : Nat} {found : Option Nat}
    (hrun : kmallocSearch h size steps cur prev = some (found, h')) : h'.pages = h.pages := by
  induction steps generalizing cur prev with
  | zero => simp [kmallocSearch] at hrun
  | succ steps ih =>
      simp only [kmallocSearch] at hrun
      split at hrun
      · simp only [Option.some.injEq, Prod.mk.injEq] at hrun
        rw [← hrun.2]
      · split at hrun
        · simp only [Option.some.injEq, Prod.mk.injEq] at hrun
          rw [← hrun.2, takeBlock_pages]
        · exact ih hrun

theorem kfree_pages {ptr : Nat} (hrun : kfree h ptr = some h') : h'.pages = h.pages := by
  simp only [kfree] at hrun
  split at hrun
  · rw [Option.some.inj hrun]
  · exact insertAndCoalesce_pages hrun

theorem addPages_pages {P : Nat → Pages → Prop}
    (hstep : ∀ k s, P k s → P (k + 1) (src.alloc s).2) {n k : Nat}
    (hrun : addPages src n h = some h') (hpages : P k h.pages) : P (k + n) h'.pages := by
  induction n generalizing h k with
  | zero =>
      rw [← Option.some.inj hrun]
      exact hpages
  | succ n ih =>
      obtain ⟨⟨page, h₁⟩, hadd, hrest⟩ := Option.bind_eq_some_iff.mp hrun
      have hnext := ih hrest (k := k + 1) (by rw [heapAddPage_pages hadd]; exact hstep k _ hpages)
      rwa [Nat.add_right_comm, Nat.add_assoc] at hnext

variable {P : Pages → Prop} (hstep : ∀ s, P s → P (src.alloc s).2)

include hstep

theorem growHeap_pages {n : Nat} {grown : Bool}
    (hrun : growHeap src n h = some (grown, h')) (hpages : P h.pages) : P h'.pages := by
  induction n generalizing h with
  | zero =>
      simp only [growHeap, Option.some.injEq, Prod.mk.injEq] at hrun
      exact hrun.2 ▸ hpages
  | succ n ih =>
      obtain ⟨⟨page, h₁⟩, hadd, hrest⟩ := Option.bind_eq_some_iff.mp hrun
      have hnext : P h₁.pages := by
        rw [heapAddPage_pages hadd]
        exact hstep _ hpages
      dsimp only at hrest
      split at hrest
      · simp only [Option.pure_def, Option.some.injEq, Prod.mk.injEq] at hrest
        exact hrest.2 ▸ hnext
      · exact ih hrest hnext

/-- What every request keeps, `kmalloc` keeps. -/
theorem kmalloc_pages {size p : Nat} (hrun : kmalloc src h size = some (p, h'))
    (hpages : P h.pages) : P h'.pages := by
  simp only [kmalloc] at hrun
  split at hrun
  · simp only [Option.some.injEq, Prod.mk.injEq] at hrun
    exact hrun.2 ▸ hpages
  obtain ⟨⟨found, h₁⟩, hsearch, hrun⟩ := Option.bind_eq_some_iff.mp hrun
  have hpages₁ : P h₁.pages := (kmallocSearch_pages hsearch).symm ▸ hpages
  cases found with
  | some q =>
      simp only [Option.pure_def, Option.some.injEq, Prod.mk.injEq] at hrun
      exact hrun.2 ▸ hpages₁
  | none =>
      obtain ⟨⟨grown, h₂⟩, hgrow, hrun⟩ := Option.bind_eq_some_iff.mp hrun
      have hpages₂ := growHeap_pages hstep hgrow hpages₁
      dsimp only at hrun
      split at hrun
      · simp only [Option.pure_def, Option.some.injEq, Prod.mk.injEq] at hrun
        exact hrun.2 ▸ hpages₂
      · obtain ⟨⟨found, h₃⟩, hsearch, hrun⟩ := Option.bind_eq_some_iff.mp hrun
        simp only [Option.pure_def, Option.some.injEq, Prod.mk.injEq] at hrun
        rw [← hrun.2, kmallocSearch_pages hsearch]
        exact hpages₂

end Pages

end Magnos
