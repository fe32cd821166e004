import Magnos.Memory.HeapJoin

/-!
# How the heap grows

A request that no free block can serve takes pages from the physical memory manager one at a
time, the lowest first, and never gives one back.  The free list is then the old one with the
pages inserted and coalesced one by one; whether the request is served depends on how far the
pages join.
-/

namespace Magnos

open Framework

/-- The states of the page allocator after `pmm_init`. -/
abbrev PagePool := { bitmap : Bitmap // 0 ∉ freePages bitmap }

section Loops

variable {h : Heap PagePool} {free live : List Block}

theorem HeapInv.heapAddPage_pool (hinv : HeapInv pmmPool h free live) :
    (∃ p h', IsLeast (freePages h.pages.1 : Set Nat) p ∧ p * pageSize ≠ 0 ∧
        Magnos.heapAddPage pmmPool h = some (p * pageSize, h') ∧
        HeapInv pmmPool h' (coalesceList (insertBlock (pageBlock p) free)) live ∧
        freePages h'.pages.1 = (freePages h.pages.1).erase p) ∨
      freePages h.pages.1 = ∅ ∧ ∃ h', Magnos.heapAddPage pmmPool h = some (0, h') ∧
        HeapInv pmmPool h' free live ∧ h'.pages = h.pages := by
  rcases pmmAlloc_pool h.pages.1 h.pages.2 with ⟨p, hleast, hpos, hpage, hfree⟩ | ⟨hnone, halloc⟩
  · have halloc : (pmmPool.alloc h.pages).1 = p * pageSize := hpage
    have hne : p * pageSize ≠ 0 := (Nat.mul_pos hpos (by decide)).ne'
    rcases hinv.heapAddPage with ⟨h', hzero, -⟩ | ⟨h', -, hadd, hinv'⟩
    · exact absurd (halloc.symm.trans hzero) hne
    · have hpages := heapAddPage_pages hadd
      rw [halloc] at hadd hinv'
      refine .inl ⟨p, h', hleast, hne, hadd, hinv', ?_⟩
      rw [hpages]
      exact hfree
  · have halloc : (pmmPool.alloc h.pages).1 = 0 := congrArg Prod.fst halloc
    rcases hinv.heapAddPage with ⟨h', -, hadd, hinv'⟩ | ⟨h', hne, -⟩
    · refine .inr ⟨hnone, h', hadd, hinv', ?_⟩
      rw [heapAddPage_pages hadd]
      exact pmmPool_refuse h.pages halloc
    · exact absurd halloc hne

theorem HeapInv.addPages_pool (n : Nat) (hinv : HeapInv pmmPool h free live) :
    ∃ h', Magnos.addPages pmmPool n h = some h' ∧
      HeapInv pmmPool h' (grownList free (lowest (freePages h.pages.1) n)) live ∧
      freePages h'.pages.1 =
        freePages h.pages.1 \ (lowest (freePages h.pages.1) n).toFinset := by
  induction n generalizing h free with
  | zero => exact ⟨h, rfl, hinv, by simp⟩
  | succ n ih =>
      rcases hinv.heapAddPage_pool with
        ⟨p, h₁, hleast, -, hadd, hinv₁, hpages₁⟩ | ⟨hnone, h₁, hadd, hinv₁, hpages₁⟩
      · obtain ⟨h', hrest, hinv', hpages'⟩ := ih hinv₁
        rw [hpages₁] at hinv' hpages'
        refine ⟨h', (addPages_succ hadd).trans hrest, ?_, ?_⟩
        · rw [lowest_succ hleast, grownList_cons]
          exact hinv'
        · rw [hpages', erase_sdiff_lowest hleast]
      · obtain ⟨h', hrest, hinv', hpages'⟩ := ih hinv₁
        rw [hpages₁, hnone, lowest_empty] at hinv' hpages'
        refine ⟨h', (addPages_succ hadd).trans hrest, ?_, ?_⟩
        · rw [hnone, lowest_empty]
          exact hinv'
        · rw [hpages', hnone, lowest_empty]

theorem HeapInv.growHeap_pool (n : Nat) (hinv : HeapInv pmmPool h free live) :
    ∃ h', Magnos.growHeap pmmPool n h = some (decide (n ≤ (freePages h.pages.1).card), h') ∧
      HeapInv pmmPool h' (grownList free (lowest (freePages h.pages.1) n)) live ∧
      freePages h'.pages.1 =
        freePages h.pages.1 \ (lowest (freePages h.pages.1) n).toFinset := by
  induction n generalizing h free with
  | zero => exact ⟨h, by simp [Magnos.growHeap], hinv, by simp⟩
  | succ n ih =>
      rcases hinv.heapAddPage_pool with
        ⟨p, h₁, hleast, hne, hadd, hinv₁, hpages₁⟩ | ⟨hnone, h₁, hadd, hinv₁, hpages₁⟩
      · obtain ⟨h', hrest, hinv', hpages'⟩ := ih hinv₁
        have hcard := Finset.card_erase_add_one hleast.1
        rw [hpages₁] at hrest hinv' hpages'
        refine ⟨h', ?_, ?_, ?_⟩
        · simp [Magnos.growHeap, hadd, hne, hrest, ← hcard]
        · rw [lowest_succ hleast, grownList_cons]
          exact hinv'
        · rw [hpages', erase_sdiff_lowest hleast]
      · refine ⟨h₁, ?_, ?_, ?_⟩
        · simp [Magnos.growHeap, hadd, hnone]
        · rw [hnone, lowest_empty]
          exact hinv₁
        · rw [hpages₁, hnone, lowest_empty]
          simp

end Loops

section Requests

/-- A size rounded up to a multiple of 16. -/
def round16 (size : Nat) : Nat := (size + 15) / 16 * 16

/-- The pages that a rounded request and its header fill. -/
def requiredPages (size : Nat) : Nat := (round16 size + 16 + 4095) / 4096

theorem allocSize_of_le {size : Nat} (hpos : size ≠ 0) (hle : size ≤ 0xFFFFFFF0) :
    allocSize size = round16 size := by
  simp only [allocSize, alignUp_mask, minAlloc, round16]
  split <;> omega

theorem allocSize_of_gt {size : Nat} (hgt : 0xFFFFFFF0 < size) (hlt : size < 2 ^ 32) :
    allocSize size = 16 := by
  simp only [allocSize, alignUp_mask, minAlloc]
  split <;> omega

theorem pagesNeeded_required {size : Nat} (hpos : size ≠ 0) (hle : size ≤ 2 ^ 31) :
    pagesNeeded (allocSize size) = requiredPages size := by
  rw [allocSize_of_le hpos (by omega)]
  simp only [pagesNeeded, requiredPages, round16, headerSize, pageSize]
  omega

theorem pagesNeeded_eq_zero {size : Nat} (hpos : size ≠ 0) (hlt : size < 2 ^ 32) :
    pagesNeeded (allocSize size) = 0 ↔ 0xFFFFEFF0 < size ∧ size ≤ 0xFFFFFFF0 := by
  by_cases hle : size ≤ 0xFFFFFFF0
  · rw [allocSize_of_le hpos hle]
    simp only [pagesNeeded, round16, headerSize, pageSize]
    omega
  · rw [allocSize_of_gt (by omega) hlt]
    simp only [pagesNeeded, headerSize, pageSize]
    omega

end Requests

section SmallestBlock

variable {Pages : Type} {src : PageSource Pages} {h : Heap Pages} {free live : List Block}

theorem HeapInv.kmalloc_smallest (hinv : HeapInv src h free live) {size : Nat} (hsize : size ≠ 0)
    (hsmall : allocSize size = 16) :
    ∃ p h', Magnos.kmalloc src h size = some (p, h') ∧
      (p = 0 ↔ free = [] ∧ (src.alloc h.pages).1 = 0) := by
  have hone : pagesNeeded (allocSize size) = 1 := by rw [hsmall]; decide
  have hempty : ∀ {h : Heap Pages} {l : List Block}, HeapInv src h l live →
      (∀ d ∈ l, d.size < allocSize size) → l = [] := by
    intro h l hl hlt
    rw [List.eq_nil_iff_forall_not_mem]
    intro d hd
    have hpos := (hl.shape.free_ok d hd).size_pos
    have hlt := hlt d hd
    omega
  have hnonempty : ∀ {l : List Block} {p : Nat} {h h' : Heap Pages},
      ServedFrom src h l live (allocSize size) p h' → l ≠ [] := by
    intro l p h h' hserved
    obtain ⟨b, hb, -⟩ := hserved.fits
    exact List.ne_nil_of_mem hb
  rcases hinv.heapAddPage with ⟨h₁, hzero, hadd, hinv₁⟩ | ⟨h₁, hpage, hadd, hinv₁⟩
  · have hgrow : Magnos.growHeap src (pagesNeeded (allocSize size)) h = some (false, h₁) := by
      simp [hone, Magnos.growHeap, hadd]
    obtain ⟨p, h', hrun, hserved | ⟨hnone, ⟨hgrown, -⟩ | ⟨-, hp, -⟩⟩⟩ :=
      hinv.kmalloc_cases hsize hgrow hinv₁
    · exact ⟨p, h', hrun, by simp [hserved.ne_zero, hnonempty hserved]⟩
    · cases hgrown
    · exact ⟨p, h', hrun, by simp [hp, hempty hinv hnone, hzero]⟩
  · have hgrow : Magnos.growHeap src (pagesNeeded (allocSize size)) h = some (true, h₁) := by
      simp [hone, Magnos.growHeap, hadd, hpage]
    obtain ⟨p, h', hrun, hserved | ⟨-, ⟨-, hserved⟩ | ⟨hsmall₁, -⟩⟩⟩ :=
      hinv.kmalloc_cases hsize hgrow hinv₁
    · exact ⟨p, h', hrun, by simp [hserved.ne_zero, hpage]⟩
    · exact ⟨p, h', hrun, by simp [hserved.ne_zero, hpage]⟩
    · have hnil := hempty hinv₁ (hsmall₁.resolve_left (by simp))
      have hmem := (insertBlock_perm ⟨(src.alloc h.pages).1, pageSize - headerSize⟩ free).mem_iff.mpr
        List.mem_cons_self
      obtain ⟨d, l, hl⟩ := List.exists_cons_of_ne_nil (List.ne_nil_of_mem hmem)
      obtain ⟨m, rest, hrest⟩ := coalesceList_cons d l
      rw [hl, hrest] at hnil
      cases hnil

theorem HeapInv.returned_size (hinv : HeapInv src h free live) {size p : Nat} {h' : Heap Pages}
    (hrun : Magnos.kmalloc src h size = some (p, h')) (hne : p ≠ 0) :
    allocSize size ≤ (returnedBlock h' p).size ∧ (returnedBlock h' p).size < 0xFFFFF000 := by
  obtain ⟨p', h'', free', hrun', ⟨hzero, -⟩ | ⟨b, hp, hfits, hinv'⟩⟩ := hinv.kmalloc size
  · obtain ⟨hp, -⟩ : p = p' ∧ h' = h'' := by simpa [hrun] using hrun'
    exact absurd (hp.trans hzero) hne
  · obtain ⟨rfl, rfl⟩ : p = p' ∧ h' = h'' := by simpa [hrun] using hrun'
    have hbound := (hinv'.shape.live_ok b List.mem_cons_self).bounded
    have hge := hinv'.shape.addr_ge b (by simp)
    rw [hp, hinv'.returnedBlock_eq List.mem_cons_self]
    simp only [Block.fin, headerSize, pageSize] at *
    omega

end SmallestBlock

section Memory

variable {h h' : Heap PagePool} {free live : List Block}

/-- Calls of the heap and of the other users of the page allocator. -/
inductive MemoryOp where
  | heap (op : HeapOp)
  | pmmAlloc
  | pmmFree (addr : Nat)
deriving DecidableEq

/-- The others give back only pages that are not the heap's. -/
def memoryStep (s : HeapState PagePool) : MemoryOp → HeapState PagePool → Prop
  | .heap op, t => heapStep pmmPool s op t
  | .pmmAlloc, t => t = ⟨{ s.heap with pages := (pmmPool.alloc s.heap.pages).2 }, s.live⟩
  | .pmmFree addr, t => addr / pageSize * pageSize ∉ s.heap.taken ∧
      ∃ pages : PagePool, pages.1 = pmmFree s.heap.pages.1 addr ∧
        t = ⟨{ s.heap with pages := pages }, s.live⟩

theorem HeapInv.withPages (hinv : HeapInv pmmPool h free live) {pages : PagePool}
    (hfresh : ∀ p ∈ h.taken, ¬ pmmPool.Available pages p) :
    HeapInv pmmPool { h with pages := pages } free live :=
  ⟨hinv.chain, hinv.shape, hinv.stored, hinv.count, hfresh⟩

theorem memoryStep_inv (s t : HeapState PagePool) (op : MemoryOp)
    (hinv : ∃ free, HeapInv pmmPool s.heap free s.live) (hstep : memoryStep s op t) :
    ∃ free, HeapInv pmmPool t.heap free t.live := by
  cases op with
  | heap op => exact heapStep_inv s t op hinv hstep
  | pmmAlloc =>
      obtain ⟨free, hinv⟩ := hinv
      obtain rfl : t = _ := hstep
      refine ⟨free, hinv.withPages ?_⟩
      intro p hp havail
      exact hinv.fresh p hp (pmmPool.alloc_shrinks _ p havail)
  | pmmFree addr =>
      obtain ⟨free, hinv⟩ := hinv
      obtain ⟨hother, pages, hpages, rfl⟩ := hstep
      refine ⟨free, hinv.withPages ?_⟩
      rintro p hp ⟨haligned, havail⟩
      rw [hpages, pageFree_pmmFree] at havail
      rcases havail with ⟨heq, -⟩ | hstill
      · apply hother
        rwa [← heq, Nat.div_mul_cancel (Nat.dvd_of_mod_eq_zero haligned)]
      · exact hinv.fresh p hp ⟨haligned, hstill⟩

theorem memoryRun_inv (hdr : Nat → BlockHeader) (pages : PagePool) :
    ∃ h, heapInit pmmPool (unusedHeap hdr pages) = some h ∧
      ∀ ops s, Run memoryStep ⟨h, []⟩ ops s → ∃ free, HeapInv pmmPool s.heap free s.live := by
  obtain ⟨h, free₀, hinit, hinv₀⟩ := heapInit_inv pmmPool hdr pages
  refine ⟨h, hinit, ?_⟩
  intro ops s hrun
  exact hrun.invariant (fun s op t hs hst => memoryStep_inv s t op hs hst) ⟨free₀, hinv₀⟩

theorem pmmPool_alloc_eq_zero (pages : PagePool) :
    (pmmPool.alloc pages).1 = 0 ↔ freePages pages.1 = ∅ := by
  constructor
  · intro hzero
    by_contra hne
    exact pmmAlloc_ne_zero pages.1 pages.2 hne hzero
  · intro hempty
    rcases pmmAlloc_pool pages.1 pages.2 with ⟨p, hleast, -⟩ | ⟨-, halloc⟩
    · rw [hempty] at hleast
      exact absurd hleast.1 (by simp)
    · exact congrArg Prod.fst halloc

/-- A block that `kmalloc` returns is as large as the request, unless rounding the request up
wraps around; then it is too small, and only a heap without free blocks and pages refuses. -/
theorem kmalloc_fits_iff (hdr : Nat → BlockHeader) (pages : PagePool) :
    ∃ h, heapInit pmmPool (unusedHeap hdr pages) = some h ∧
      ∀ ops s, Run memoryStep ⟨h, []⟩ ops s → ∃ free, FreeChain s.heap free ∧
        ∀ size : UInt32,
          (∀ p h', kmalloc pmmPool s.heap size.toNat = some (p, h') → p ≠ 0 →
            size.toNat ≤ (returnedBlock h' p).size) ↔
          size.toNat ≤ 0xFFFFFFF0 ∨ free = [] ∧ freePages s.heap.pages.1 = ∅ := by
  obtain ⟨h, hinit, hruns⟩ := memoryRun_inv hdr pages
  refine ⟨h, hinit, ?_⟩
  intro ops s hrun
  obtain ⟨free, hinv⟩ := hruns ops s hrun
  refine ⟨free, hinv.chain, ?_⟩
  intro size
  by_cases hle : size.toNat ≤ 0xFFFFFFF0
  · simp only [hle, true_or, iff_true]
    intro p h' hkmalloc hne
    have hfits := (hinv.returned_size hkmalloc hne).1
    by_cases hzero : size.toNat = 0
    · omega
    · rw [allocSize_of_le hzero hle, round16] at hfits
      omega
  · obtain ⟨p, h', hkmalloc, hnull⟩ := hinv.kmalloc_smallest (by omega)
      (allocSize_of_gt (Nat.lt_of_not_le hle) size.toNat_lt)
    simp only [hle, false_or, ← pmmPool_alloc_eq_zero, ← hnull]
    constructor
    · intro hall
      by_contra hne
      have hfits := hall p h' hkmalloc hne
      have hbound := (hinv.returned_size hkmalloc hne).2
      omega
    · intro hzero p' h'' hrun' hne
      obtain ⟨rfl, -⟩ : p = p' ∧ h' = h'' := by simpa [hkmalloc] using hrun'
      exact absurd hzero hne

/-- The allocator after `pmm_init` of a kernel that ends at `0x20000`. -/
theorem exists_initialPool : ∃ pages : PagePool, pages.1 = pmmInit 0x20000 ∧
    ∀ p, p ∈ freePages pages.1 ↔
      (0x20 ≤ p ∧ p < 0x1F0 ∧ ¬ (0xA0 ≤ p ∧ p ≤ 0xFF)) ∨ 0x300 ≤ p ∧ p < 4096 := by
  refine ⟨⟨pmmInit 0x20000, zero_notMem_freePages_init _ (by decide) (by decide)⟩, rfl, ?_⟩
  intro p
  have hpage : kernelEndPage 0x20000 = 0x20 := by simp [kernelEndPage, pageSize]
  rw [mem_freePages, pageFree_pmmInit, totalPages_eq, hpage]

/-- The first request after `heap_init`, for 4 GB less one byte, is served. -/
theorem kmalloc_wraps_to_small_block :
    ∃ (pages : PagePool) (h : Heap PagePool) (p : Nat) (h' : Heap PagePool),
      pages.1 = pmmInit 0x20000 ∧
      heapInit pmmPool (unusedHeap (fun _ => ⟨0, 0, 0⟩) pages) = some h ∧
      kmalloc pmmPool h 0xFFFFFFFF = some (p, h') ∧ p ≠ 0 ∧
      (returnedBlock h' p).size < 0xFFFFFFFF := by
  obtain ⟨pages, hboot, hmem⟩ := exists_initialPool
  have hpage : (pmmPool.alloc pages).1 ≠ 0 := by
    rw [ne_eq, pmmPool_alloc_eq_zero]
    exact Finset.ne_empty_of_mem ((hmem 0x20).mpr (by omega))
  obtain ⟨h, c, rest, hinit, hinv, -⟩ := heapInit_large (fun _ => ⟨0, 0, 0⟩) pages hpage
  have hwrap : allocSize 0xFFFFFFFF = 16 := allocSize_of_gt (by decide) (by decide)
  obtain ⟨p, h', hkmalloc, hnull⟩ := hinv.kmalloc_smallest (by decide) hwrap
  have hne : p ≠ 0 := by simp [hnull]
  have hbound := (hinv.returned_size hkmalloc hne).2
  exact ⟨pages, h, p, h', hboot, hinit, hkmalloc, hne, by omega⟩

/-- The pages that a request asks for if no free block serves it. -/
def requestedPages (size : Nat) : Nat := if size = 0 then 0 else pagesNeeded (allocSize size)

theorem HeapInv.kmalloc_null (hinv : HeapInv pmmPool h free live) {size : Nat}
    (hrun : Magnos.kmalloc pmmPool h size = some (0, h')) :
    HeapInv pmmPool h' (grownList free (lowest (freePages h.pages.1) (requestedPages size))) live ∧
      freePages h'.pages.1 = freePages h.pages.1 \
        (lowest (freePages h.pages.1) (requestedPages size)).toFinset := by
  by_cases hsize : size = 0
  · obtain rfl : h = h' := by simpa [Magnos.kmalloc, hsize] using hrun
    rw [requestedPages, if_pos hsize, lowest_zero]
    exact ⟨hinv, by simp⟩
  · rw [requestedPages, if_neg hsize]
    obtain ⟨h₁, hgrow, hinv₁, hpages₁⟩ := hinv.growHeap_pool (pagesNeeded (allocSize size))
    obtain ⟨p, h'', hrun', hcases⟩ := hinv.kmalloc_cases hsize hgrow hinv₁
    obtain ⟨rfl, rfl⟩ : 0 = p ∧ h' = h'' := by simpa [hrun] using hrun'
    rcases hcases with hserved | ⟨-, ⟨-, hserved⟩ | ⟨-, -, rfl⟩⟩
    · exact absurd rfl hserved.ne_zero
    · exact absurd rfl hserved.ne_zero
    · exact ⟨hinv₁, hpages₁⟩

theorem HeapInv.heapPages_grown {pages : List Nat} (hinv : HeapInv pmmPool h free live)
    (hinv' : HeapInv pmmPool h' (grownList free pages) live) :
    h'.heapPages = h.heapPages + pages.length := by
  have htotal := hinv.shape.total
  have htotal' := hinv'.shape.total
  rw [List.map_append, List.sum_append] at htotal htotal'
  rw [grownList_total] at htotal'
  rw [hinv.count, hinv'.count]
  simp only [pageSize] at *
  omega

/-- A request that `kmalloc` refuses has moved the lowest free pages from the page allocator to
the free list, where they stay; the live blocks keep their sizes.  Nothing is moved exactly if
the request was for no bytes, its number of pages wraps around to none, or no page was free. -/
theorem kmalloc_refusal_keeps_pages (hdr : Nat → BlockHeader) (pages : PagePool) :
    ∃ h, heapInit pmmPool (unusedHeap hdr pages) = some h ∧
      ∀ ops s, Run memoryStep ⟨h, []⟩ ops s → ∃ free, FreeChain s.heap free ∧
        ∀ (size : UInt32) h', kmalloc pmmPool s.heap size.toNat = some (0, h') →
          (FreeChain h' (grownList free
              (lowest (freePages s.heap.pages.1) (requestedPages size.toNat))) ∧
            h'.heapPages = s.heap.heapPages +
              min (requestedPages size.toNat) (freePages s.heap.pages.1).card ∧
            freePages h'.pages.1 = freePages s.heap.pages.1 \
              (lowest (freePages s.heap.pages.1) (requestedPages size.toNat)).toFinset ∧
            ∀ b ∈ s.live, (h'.hdr b.addr).size = b.size) ∧
          (FreeChain h' free ∧ h'.heapPages = s.heap.heapPages ∧
              freePages h'.pages.1 = freePages s.heap.pages.1 ↔
            size.toNat = 0 ∨ 0xFFFFEFF0 < size.toNat ∧ size.toNat ≤ 0xFFFFFFF0 ∨
              freePages s.heap.pages.1 = ∅) := by
  obtain ⟨h, hinit, hruns⟩ := memoryRun_inv hdr pages
  refine ⟨h, hinit, ?_⟩
  intro ops s hrun
  obtain ⟨free, hinv⟩ := hruns ops s hrun
  refine ⟨free, hinv.chain, ?_⟩
  intro size h' hkmalloc
  obtain ⟨hinv', hpages⟩ := hinv.kmalloc_null hkmalloc
  have hcount := hinv.heapPages_grown hinv'
  have hlen := lowest_length (freePages s.heap.pages.1) (requestedPages size.toNat)
  have hnone : requestedPages size.toNat = 0 ↔
      size.toNat = 0 ∨ 0xFFFFEFF0 < size.toNat ∧ size.toNat ≤ 0xFFFFFFF0 := by
    unfold requestedPages
    split
    · simp [*]
    · next hsize => rw [pagesNeeded_eq_zero hsize size.toNat_lt, or_iff_right hsize]
  have hmoved : lowest (freePages s.heap.pages.1) (requestedPages size.toNat) = [] ↔
      size.toNat = 0 ∨ 0xFFFFEFF0 < size.toNat ∧ size.toNat ≤ 0xFFFFFFF0 ∨
        freePages s.heap.pages.1 = ∅ := by
    rw [← List.length_eq_zero_iff, hlen, Nat.min_eq_zero_iff, Finset.card_eq_zero, hnone, or_assoc]
  refine ⟨⟨hinv'.chain, by rw [hcount, hlen], hpages, fun b hb => (hinv'.stored b hb).1⟩, ?_⟩
  rw [← hmoved]
  constructor
  · rintro ⟨-, hsame, -⟩
    rw [← List.length_eq_zero_iff]
    omega
  · intro hnil
    have hchain := hinv'.chain
    rw [hnil] at hchain hpages hcount
    exact ⟨hchain, hcount, by rw [hpages, List.toFinset_nil, Finset.sdiff_empty]⟩

theorem HeapInv.kmalloc_null_iff (hinv : HeapInv pmmPool h free live) (size : Nat)
    (hsize : size ≠ 0) :
    ∃ p h', Magnos.kmalloc pmmPool h size = some (p, h') ∧
      (p = 0 ↔ (∀ b ∈ free, b.size < allocSize size) ∧
        ((freePages h.pages.1).card < pagesNeeded (allocSize size) ∨
          ∀ b ∈ grownList free (lowest (freePages h.pages.1) (pagesNeeded (allocSize size))),
            b.size < allocSize size)) := by
  obtain ⟨h₁, hgrow, hinv₁, -⟩ := hinv.growHeap_pool (pagesNeeded (allocSize size))
  obtain ⟨p, h', hrun, hcases⟩ := hinv.kmalloc_cases hsize hgrow hinv₁
  refine ⟨p, h', hrun, ?_⟩
  rcases hcases with hserved | ⟨hsmall, ⟨hgrown, hserved⟩ | ⟨hnone, hp, -⟩⟩
  · obtain ⟨b, hb, hfits⟩ := hserved.fits
    refine iff_of_false hserved.ne_zero ?_
    rintro ⟨hsmall, -⟩
    exact absurd (hsmall b hb) (Nat.not_lt_of_le hfits)
  · obtain ⟨b, hb, hfits⟩ := hserved.fits
    refine iff_of_false hserved.ne_zero ?_
    rintro ⟨-, hfew | hsmall⟩
    · exact absurd (of_decide_eq_true hgrown) (Nat.not_le_of_lt hfew)
    · exact absurd (hsmall b hb) (Nat.not_lt_of_le hfits)
  · refine iff_of_true hp ⟨hsmall, ?_⟩
    rcases hnone with hfew | hsmall₁
    · exact .inl (Nat.lt_of_not_le (of_decide_eq_false hfew))
    · exact .inr hsmall₁

theorem HeapInv.grown_lowest (hinv : HeapInv pmmPool h free live) {p n : Nat} (hn : 0 < n)
    (hlow : lowest (freePages h.pages.1) n = List.range' p n)
    (halone : ∀ x ∈ free, ∀ y ∈ free, x.fin = y.addr → y.fin ≠ p * pageSize) :
    ∃ b ∈ grownList free (lowest (freePages h.pages.1) n), n * pageSize ≤ headerSize + b.size := by
  have hmem : ∀ i < n, p + i ∈ freePages h.pages.1 := by
    intro i hi
    apply lowest_subset _ n
    rw [hlow, List.mem_range'_1]
    omega
  have hfirst : p ≠ 0 := by
    rintro rfl
    exact h.pages.2 (hmem 0 hn)
  have hlast := ((mem_freePages _ _).mp (hmem (n - 1) (by omega))).1
  have hnew : ∀ i < n, (p + i) * pageSize ∉ h.taken := by
    intro i hi hin
    refine hinv.fresh _ hin ⟨Nat.mul_mod_left _ _, ?_⟩
    rw [Nat.mul_div_cancel _ (by decide)]
    exact (mem_freePages _ _).mp (hmem i hi)
  rw [hlow]
  apply hinv.shape.grown_consecutive hn hnew (Nat.pos_of_ne_zero hfirst) _ halone
  rw [totalPages_eq] at hlast
  simp only [pageSize]
  omega

/-- When growing by the pages a request fills is enough: a free block fits, or the lowest free
pages, given to the heap one by one, join to one that does.  They do if they are consecutive and
no two neighbouring free blocks lie directly before them. -/
theorem kmalloc_enough_pages_iff (hdr : Nat → BlockHeader) (pages : PagePool) :
    ∃ h, heapInit pmmPool (unusedHeap hdr pages) = some h ∧
      ∀ ops s, Run memoryStep ⟨h, []⟩ ops s → ∃ free, FreeChain s.heap free ∧
        ∀ size, 1 ≤ size → size ≤ 2 ^ 31 →
          (∃ p h', kmalloc pmmPool s.heap size = some (p, h') ∧
            ((requiredPages size ≤ (freePages s.heap.pages.1).card → p ≠ 0) ↔
              (freePages s.heap.pages.1).card < requiredPages size ∨
              ∃ b ∈ free ++ grownList free (lowest (freePages s.heap.pages.1) (requiredPages size)),
                round16 size ≤ b.size)) ∧
          ∀ p, lowest (freePages s.heap.pages.1) (requiredPages size) =
              List.range' p (requiredPages size) →
            (∀ x ∈ free, ∀ y ∈ free, x.fin = y.addr → y.fin ≠ p * 4096) →
            ∃ b ∈ grownList free (lowest (freePages s.heap.pages.1) (requiredPages size)),
              round16 size ≤ b.size := by
  obtain ⟨h, hinit, hruns⟩ := memoryRun_inv hdr pages
  refine ⟨h, hinit, ?_⟩
  intro ops s hrun
  obtain ⟨free, hinv⟩ := hruns ops s hrun
  refine ⟨free, hinv.chain, ?_⟩
  intro size hpos hle
  have hsize : size ≠ 0 := by omega
  refine ⟨?_, ?_⟩
  · obtain ⟨p, h', hkmalloc, hnull⟩ := hinv.kmalloc_null_iff size hsize
    rw [pagesNeeded_required hsize hle, allocSize_of_le hsize (by omega)] at hnull
    refine ⟨p, h', hkmalloc, ?_⟩
    simp only [ne_eq, hnull, List.mem_append, or_and_right, exists_or]
    constructor
    · intro hserved
      by_contra hnone
      push Not at hnone
      exact hserved hnone.1 ⟨hnone.2.1, .inr hnone.2.2⟩
    · rintro hcond henough ⟨hsmall, hfew⟩
      rcases hcond with hfew' | ⟨b, hb, hfits⟩ | ⟨b, hb, hfits⟩
      · omega
      · exact absurd (hsmall b hb) (Nat.not_lt_of_le hfits)
      · rcases hfew with hfew | hsmall₁
        · omega
        · exact absurd (hsmall₁ b hb) (Nat.not_lt_of_le hfits)
  · intro p hlow halone
    have hn : 0 < requiredPages size := by
      simp only [requiredPages, round16]
      omega
    obtain ⟨b, hb, hfits⟩ := hinv.grown_lowest hn hlow halone
    refine ⟨b, hb, ?_⟩
    simp only [requiredPages, pageSize, headerSize, round16] at *
    omega

end Memory

section Hole

variable {h : Heap PagePool} {live : List Block} {c : Block}

theorem ServedFrom.takes_all {h₁ h' : Heap PagePool} {p : Nat} {size : UInt32}
    (hrun : kmalloc pmmPool h size.toNat = some (p, h'))
    (hserved : ServedFrom pmmPool h₁ [c] live c.size p h') :
    memoryStep ⟨h, live⟩ (.heap (.kmalloc size)) ⟨h', c :: live⟩ ∧
      HeapInv pmmPool h' [] (c :: live) ∧ h'.pages = h₁.pages := by
  obtain ⟨before, d, after, hfree, -, -, rfl, hpages, hinv⟩ := hserved
  obtain ⟨rfl, rfl, rfl⟩ : before = [] ∧ d = c ∧ after = [] := by
    cases before with
    | nil =>
        obtain ⟨rfl, rfl⟩ := List.cons_eq_cons.mp hfree
        exact ⟨rfl, rfl, rfl⟩
    | cons e before =>
        obtain ⟨-, hnil⟩ := List.cons_eq_cons.mp hfree
        simp at hnil
  have hsplit : ¬ d.size ≥ d.size + headerSize + minAlloc := by
    simp only [headerSize]
    omega
  rw [leftover, takenBlock, if_neg hsplit, if_neg hsplit] at hinv
  refine ⟨⟨d.addr + headerSize, h', hrun, ?_⟩, hinv, hpages⟩
  rw [if_neg (by simp [headerSize]), hinv.returnedBlock_eq List.mem_cons_self]

theorem HeapInv.kmalloc_only (hinv : HeapInv pmmPool h [c] live) (size : UInt32)
    (hsize : size.toNat ≠ 0) (hblock : allocSize size.toNat = c.size) :
    ∃ h', memoryStep ⟨h, live⟩ (.heap (.kmalloc size)) ⟨h', c :: live⟩ ∧
      HeapInv pmmPool h' [] (c :: live) ∧ h'.pages = h.pages := by
  obtain ⟨h₁, hgrow, hinv₁, -⟩ := hinv.growHeap_pool (pagesNeeded (allocSize size.toNat))
  obtain ⟨p, h', hrun, hserved | ⟨hsmall, -⟩⟩ := hinv.kmalloc_cases hsize hgrow hinv₁
  · rw [hblock] at hserved
    exact ⟨h', hserved.takes_all hrun⟩
  · have hlt := hsmall c List.mem_cons_self
    omega

theorem HeapInv.kmalloc_pages {p n : Nat} (hinv : HeapInv pmmPool h [] live) (size : UInt32)
    (hn : 0 < n) (hfill : size.toNat + 16 = n * 4096) (hle : size.toNat ≤ 2 ^ 31)
    (hlow : lowest (freePages h.pages.1) n = List.range' p n) :
    ∃ h', memoryStep ⟨h, live⟩ (.heap (.kmalloc size))
        ⟨h', ⟨p * pageSize, n * pageSize - headerSize⟩ :: live⟩ ∧
      HeapInv pmmPool h' [] (⟨p * pageSize, n * pageSize - headerSize⟩ :: live) ∧
      freePages h'.pages.1 = freePages h.pages.1 \ (List.range' p n).toFinset := by
  have hsize : size.toNat ≠ 0 := by omega
  have hblock : allocSize size.toNat = n * pageSize - headerSize := by
    rw [allocSize_of_le hsize (by omega)]
    simp only [round16, pageSize, headerSize]
    omega
  have hneeded : pagesNeeded (allocSize size.toNat) = n := by
    rw [pagesNeeded_required hsize hle]
    simp only [requiredPages, round16]
    omega
  have henough : n ≤ (freePages h.pages.1).card := by
    have hlen := lowest_length (freePages h.pages.1) n
    rw [hlow, List.length_range'] at hlen
    omega
  obtain ⟨h₁, hgrow, hinv₁, hpages₁⟩ := hinv.growHeap_pool n
  rw [hlow, grownList_fresh p n hn] at hinv₁
  rw [hlow] at hpages₁
  rw [← hneeded] at hgrow
  obtain ⟨p', h', hrun, hserved | ⟨-, ⟨-, hserved⟩ | ⟨hnone, -⟩⟩⟩ :=
    hinv.kmalloc_cases hsize hgrow hinv₁
  · obtain ⟨b, hb, -⟩ := hserved.fits
    cases hb
  · rw [hblock] at hserved
    obtain ⟨hstep, hinv', hpages⟩ := hserved.takes_all hrun
    exact ⟨h', hstep, hinv', by rw [hpages, hpages₁]⟩
  · rcases hnone with hfew | hsmall
    · rw [hneeded] at hfew
      exact absurd henough (of_decide_eq_false hfew)
    · have hlt := hsmall _ List.mem_cons_self
      rw [hblock] at hlt
      exact absurd hlt (Nat.lt_irrefl _)

theorem heapInit_boot (hdr : Nat → BlockHeader) (pages : PagePool)
    (hmem : ∀ p, p ∈ freePages pages.1 ↔
      (0x20 ≤ p ∧ p < 0x1F0 ∧ ¬ (0xA0 ≤ p ∧ p ≤ 0xFF)) ∨ 0x300 ≤ p ∧ p < 4096) :
    ∃ h, heapInit pmmPool (unusedHeap hdr pages) = some h ∧
      HeapInv pmmPool h [⟨0x20 * pageSize, 16 * pageSize - headerSize⟩] [] ∧
      freePages h.pages.1 = freePages pages.1 \ (List.range' 0x20 16).toFinset := by
  obtain ⟨h, hinit, hinv, hpages⟩ := (unusedHeap_inv pmmPool hdr pages).addPages_pool 16
  have hlow : lowest (freePages (unusedHeap hdr pages).pages.1) 16 = List.range' 0x20 16 := by
    apply lowest_eq_range'
    · intro p hp
      have hfree := (hmem p).mp hp
      omega
    · intro i hi
      exact (hmem _).mpr (by omega)
  rw [hlow, grownList_fresh 0x20 16 (by decide)] at hinv
  rw [hlow] at hpages
  exact ⟨h, hinit, hinv, hpages⟩

theorem run_up_to_hole (hdr : Nat → BlockHeader) (pages : PagePool)
    (hmem : ∀ p, p ∈ freePages pages.1 ↔
      (0x20 ≤ p ∧ p < 0x1F0 ∧ ¬ (0xA0 ≤ p ∧ p ≤ 0xFF)) ∨ 0x300 ≤ p ∧ p < 4096) :
    ∃ h s, heapInit pmmPool (unusedHeap hdr pages) = some h ∧
      Run memoryStep ⟨h, []⟩ [.heap (.kmalloc 65520), .heap (.kmalloc 454640)] s ∧
      HeapInv pmmPool s.heap [] s.live ∧
      lowest (freePages s.heap.pages.1) 2 = [0x9F, 0x100] := by
  obtain ⟨h, hinit, hinv, hpages⟩ := heapInit_boot hdr pages hmem
  obtain ⟨h₁, hstep₁, hinv₁, hpages₁⟩ := hinv.kmalloc_only 65520 (by decide) (by decide)
  have hmem₁ : ∀ p, p ∈ freePages h₁.pages.1 ↔
      (0x30 ≤ p ∧ p < 0x1F0 ∧ ¬ (0xA0 ≤ p ∧ p ≤ 0xFF)) ∨ 0x300 ≤ p ∧ p < 4096 := by
    intro p
    rw [hpages₁, hpages, Finset.mem_sdiff, List.mem_toFinset, List.mem_range'_1, hmem p]
    omega
  have hlow₁ : lowest (freePages h₁.pages.1) 111 = List.range' 0x30 111 := by
    apply lowest_eq_range'
    · intro p hp
      have hfree := (hmem₁ p).mp hp
      omega
    · intro i hi
      exact (hmem₁ _).mpr (by omega)
  obtain ⟨h₂, hstep₂, hinv₂, hpages₂⟩ :=
    hinv₁.kmalloc_pages 454640 (by decide) (by decide) (by decide) hlow₁
  have hmem₂ : ∀ p, p ∈ freePages h₂.pages.1 ↔
      (0x9F ≤ p ∧ p < 0x1F0 ∧ ¬ (0xA0 ≤ p ∧ p ≤ 0xFF)) ∨ 0x300 ≤ p ∧ p < 4096 := by
    intro p
    rw [hpages₂, Finset.mem_sdiff, List.mem_toFinset, List.mem_range'_1, hmem₁ p]
    omega
  refine ⟨h, _, hinit, .cons hstep₁ (.cons hstep₂ (.nil _)), hinv₂, ?_⟩
  have hfirst : IsLeast (freePages h₂.pages.1 : Set Nat) 0x9F := by
    refine ⟨(hmem₂ _).mpr (by omega), ?_⟩
    intro p hp
    have hfree := (hmem₂ p).mp hp
    omega
  have hsecond : IsLeast (((freePages h₂.pages.1).erase 0x9F : Finset Nat) : Set Nat) 0x100 := by
    refine ⟨Finset.mem_erase.mpr ⟨by decide, (hmem₂ _).mpr (by omega)⟩, ?_⟩
    intro p hp
    obtain ⟨hne, hp⟩ := Finset.mem_erase.mp hp
    have hfree := (hmem₂ p).mp hp
    omega
  rw [lowest_succ hfirst, lowest_succ hsecond]
  rfl

theorem HeapInv.kmalloc_at_hole (hinv : HeapInv pmmPool h [] live)
    (hlow : lowest (freePages h.pages.1) 2 = [0x9F, 0x100]) :
    ∃ h', Magnos.kmalloc pmmPool h 8176 = some (0, h') := by
  have hsize : allocSize 8176 = 8176 := by decide
  have hpages : pagesNeeded 8176 = 2 := by decide
  have hgrown : ∀ b ∈ grownList [] [0x9F, 0x100], b.size < 8176 := by decide
  obtain ⟨p, h', hkmalloc, hnull⟩ := hinv.kmalloc_null_iff 8176 (by decide)
  rw [hsize, hpages, hlow] at hnull
  have hzero : p = 0 := hnull.mpr ⟨by simp, .inr hgrown⟩
  exact ⟨h', by rw [hkmalloc, hzero]⟩

/-- A refused request has taken the last page before a hole and the first one behind it. -/
theorem kmalloc_refusal_takes_pages :
    ∃ (pages : PagePool) (h : Heap PagePool) (s : HeapState PagePool) (h' : Heap PagePool),
      pages.1 = pmmInit 0x20000 ∧
      heapInit pmmPool (unusedHeap (fun _ => ⟨0, 0, 0⟩) pages) = some h ∧
      Run memoryStep ⟨h, []⟩ [.heap (.kmalloc 65520), .heap (.kmalloc 454640)] s ∧
      kmalloc pmmPool s.heap 8176 = some (0, h') ∧ FreeChain s.heap [] ∧ ¬ FreeChain h' [] ∧
      h'.heapPages ≠ s.heap.heapPages ∧ freePages h'.pages.1 ≠ freePages s.heap.pages.1 := by
  obtain ⟨pages, hboot, hmem⟩ := exists_initialPool
  obtain ⟨h, s, hinit, hrun, hinv, hlow⟩ := run_up_to_hole (fun _ => ⟨0, 0, 0⟩) pages hmem
  obtain ⟨h', hkmalloc⟩ := hinv.kmalloc_at_hole hlow
  obtain ⟨hinv', hpages⟩ := hinv.kmalloc_null hkmalloc
  have hrequested : requestedPages 8176 = 2 := by decide
  rw [hrequested, hlow] at hinv' hpages
  have hcount := hinv.heapPages_grown hinv'
  refine ⟨pages, h, s, h', hboot, hinit, hrun, hkmalloc, hinv.chain, ?_, ?_, ?_⟩
  · have hchain := hinv'.chain
    have hlist : grownList [] [0x9F, 0x100] = [pageBlock 0x9F, pageBlock 0x100] := by decide
    rw [hlist] at hchain
    intro hempty
    exact hchain.2.1 (hchain.1.symm.trans hempty)
  · simp only [List.length_cons, List.length_nil] at hcount
    omega
  · intro hsame
    have hmem : 0x9F ∈ freePages s.heap.pages.1 :=
      lowest_subset _ 2 _ (by rw [hlow]; exact List.mem_cons_self)
    rw [← hsame, hpages] at hmem
    simp at hmem

/-- Two pages are free, but they do not join to a block for a request that would fill them. -/
theorem kmalloc_refused_at_hole :
    ∃ (pages : PagePool) (h : Heap PagePool) (s : HeapState PagePool) (h' : Heap PagePool),
      pages.1 = pmmInit 0x20000 ∧
      heapInit pmmPool (unusedHeap (fun _ => ⟨0, 0, 0⟩) pages) = some h ∧
      Run memoryStep ⟨h, []⟩ [.heap (.kmalloc 65520), .heap (.kmalloc 454640)] s ∧
      requiredPages 8176 ≤ (freePages s.heap.pages.1).card ∧
      kmalloc pmmPool s.heap 8176 = some (0, h') := by
  obtain ⟨pages, hboot, hmem⟩ := exists_initialPool
  obtain ⟨h, s, hinit, hrun, hinv, hlow⟩ := run_up_to_hole (fun _ => ⟨0, 0, 0⟩) pages hmem
  obtain ⟨h', hkmalloc⟩ := hinv.kmalloc_at_hole hlow
  refine ⟨pages, h, s, h', hboot, hinit, hrun, ?_, hkmalloc⟩
  have hrequired : requiredPages 8176 = 2 := by decide
  have hlen := lowest_length (freePages s.heap.pages.1) 2
  rw [hlow] at hlen
  rw [hrequired]
  simp only [List.length_cons, List.length_nil] at hlen
  omega

end Hole

end Magnos
