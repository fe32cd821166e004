import Magnos.Framework.Transition
import Magnos.Memory.HeapFreeList

/-!
# Runs of the kernel heap

`HeapInv` ties the headers in memory to a partition of the pages into free and live blocks.
Every operation of `heap.c` returns and keeps it, whatever pages the supplier gives.
-/

namespace Magnos

open Framework

variable {Pages : Type}

/-- The headers in memory describe a partition of the heap's pages. -/
structure HeapInv (src : PageSource Pages) (h : Heap Pages) (free live : List Block) : Prop where
  chain : FreeChain h free
  shape : HeapShape free live h.taken
  stored : ∀ b ∈ live, (h.hdr b.addr).size = b.size ∧ (h.hdr b.addr).isFree = 0
  count : h.heapPages = h.taken.length
  fresh : ∀ p ∈ h.taken, ¬ src.Available h.pages p

variable {src : PageSource Pages} {h : Heap Pages} {free live : List Block}

/-- A request is served from the first of the free blocks that is large enough. -/
def ServedFrom (src : PageSource Pages) (h : Heap Pages) (free live : List Block) (size p : Nat)
    (h' : Heap Pages) : Prop :=
  ∃ before c after, free = before ++ c :: after ∧ (∀ d ∈ before, d.size < size) ∧
    size ≤ c.size ∧ p = c.addr + headerSize ∧ h'.pages = h.pages ∧
    HeapInv src h' (before ++ (leftover c size ++ after)) (takenBlock c size :: live)

theorem release_spec (src : PageSource Pages) (b : Block) (hchain : FreeChain h free)
    (hshape : HeapShape free (b :: live) h.taken) (hsize : (h.hdr b.addr).size = b.size)
    (hstored : ∀ c ∈ live, (h.hdr c.addr).size = c.size ∧ (h.hdr c.addr).isFree = 0)
    (hcount : h.heapPages = h.taken.length) (hfresh : ∀ p ∈ h.taken, ¬ src.Available h.pages p) :
    ∃ h', insertAndCoalesce h b.addr = some h' ∧
      HeapInv src h' (coalesceList (insertBlock b free)) live := by
  have hnew := hshape.live_addr_notMem b (by simp)
  have hpos := (hshape.live_ok b (by simp)).addr_pos
  have hshape₁ := hshape.insert
  obtain ⟨h₁, hinsert, hchain₁, hsame₁⟩ := listInsert_spec h b free hchain hshape.sorted
    hshape.length_lt (by omega) hnew hsize
  obtain ⟨h₂, hcoalesce, hchain₂, hlist, hsame₂⟩ := coalesceAll_spec (insertBlock b free) h₁
    h₁.freeList walkLimit hchain₁ hshape₁.free_ok hshape₁.free_nodup hshape₁.length_lt
  have htaken : h₂.taken = h.taken := hsame₂.taken.trans hsame₁.taken
  have hpages : h₂.pages = h.pages := hsame₂.pages.trans hsame₁.pages
  refine ⟨h₂, ?_, ?_, ?_, ?_, ?_, ?_⟩
  · rw [insertAndCoalesce, hinsert]
    exact hcoalesce
  · rw [FreeChain, hlist]
    exact hchain₂
  · rw [htaken]
    exact hshape₁.coalesce
  · intro c hc
    have hclear := hshape₁.live_addr_notMem c hc
    have hmem : c.addr ∉ b.addr :: free.map Block.addr := by
      rwa [← List.map_cons, ((insertBlock_perm b free).map Block.addr).mem_iff.symm.not]
    rw [hsame₂.hdr _ hclear, hsame₁.hdr _ hmem]
    exact hstored c hc
  · rw [hsame₂.heapPages, hsame₁.heapPages, htaken, hcount]
  · rw [htaken, hpages]
    exact hfresh

theorem alignUp_mask (size : Nat) :
    (size + 16 - 1) % 2 ^ 32 &&& 0xFFFFFFF0 = (size + 16 - 1) % 2 ^ 32 / 2 ^ 4 * 2 ^ 4 :=
  and_highMask 4 _ (by decide) (Nat.mod_lt _ (by decide))

theorem allocSize_spec (size : Nat) : allocSize size % 16 = 0 ∧ 16 ≤ allocSize size := by
  simp only [allocSize, alignUp_mask, minAlloc]
  split <;> omega

theorem addPages_succ {h₁ : Heap Pages} {page n : Nat}
    (hadd : heapAddPage src h = some (page, h₁)) : addPages src (n + 1) h = addPages src n h₁ := by
  simp [addPages, hadd]

theorem Block.Ok.sub32_ptr {b : Block} (hb : b.Ok) :
    sub32 (b.addr + headerSize) headerSize = b.addr := by
  have hbound := hb.bounded
  have hpos := hb.size_pos
  rw [sub32_of_le (Nat.le_add_left _ _), Nat.add_sub_cancel]
  simp only [Block.fin] at hbound
  omega

theorem ServedFrom.block {size p : Nat} {h' : Heap Pages}
    (hserved : ServedFrom src h free live size p h') :
    ∃ b : Block, ∃ free', p = b.addr + headerSize ∧ size ≤ b.size ∧
      HeapInv src h' free' (b :: live) := by
  obtain ⟨before, c, after, -, -, hfits, rfl, -, hinv⟩ := hserved
  refine ⟨takenBlock c size, _, by rw [takenBlock_addr], ?_, hinv⟩
  unfold takenBlock
  split
  · exact Nat.le_refl size
  · exact hfits

theorem ServedFrom.ne_zero {size p : Nat} {h' : Heap Pages}
    (hserved : ServedFrom src h free live size p h') : p ≠ 0 := by
  obtain ⟨before, c, after, -, -, -, rfl, -⟩ := hserved
  simp [headerSize]

theorem ServedFrom.fits {size p : Nat} {h' : Heap Pages}
    (hserved : ServedFrom src h free live size p h') : ∃ b ∈ free, size ≤ b.size := by
  obtain ⟨before, c, after, rfl, -, hfits, -⟩ := hserved
  exact ⟨c, by simp, hfits⟩

namespace HeapInv

theorem freshPage (hinv : HeapInv src h free live) (hpage : (src.alloc h.pages).1 ≠ 0) :
    HeapShape free (⟨(src.alloc h.pages).1, pageSize - headerSize⟩ :: live)
      ((src.alloc h.pages).1 :: h.taken) := by
  have havail := src.alloc_available _ hpage
  exact hinv.shape.addPage _ (fun hmem => hinv.fresh _ hmem havail) (src.aligned _ _ havail)
    (Nat.pos_of_ne_zero hpage) (src.bounded _ _ havail)

theorem heapAddPage (hinv : HeapInv src h free live) :
    (∃ h', (src.alloc h.pages).1 = 0 ∧ Magnos.heapAddPage src h = some (0, h') ∧
        HeapInv src h' free live) ∨
      ∃ h', (src.alloc h.pages).1 ≠ 0 ∧
        Magnos.heapAddPage src h = some ((src.alloc h.pages).1, h') ∧
        HeapInv src h'
          (coalesceList (insertBlock ⟨(src.alloc h.pages).1, pageSize - headerSize⟩ free)) live := by
  by_cases hpage : (src.alloc h.pages).1 = 0
  · refine .inl ⟨{ h with pages := (src.alloc h.pages).2 }, hpage, ?_, hinv.chain, hinv.shape,
      hinv.stored, hinv.count, ?_⟩
    · simp [Magnos.heapAddPage, hpage]
    · intro p hp havail
      exact hinv.fresh p hp (src.alloc_shrinks _ _ havail)
  · have hshape := hinv.freshPage hpage
    have hlen := hshape.taken_length_lt
    have hformat : ∀ b ∈ free ++ live, b.addr ≠ (src.alloc h.pages).1 := by
      intro b hb heq
      rcases List.mem_append.mp hb with hb | hb
      · exact hshape.live_addr_notMem _ List.mem_cons_self (List.mem_map.mpr ⟨b, hb, heq⟩)
      · have hapart := (List.pairwise_cons.mp (List.pairwise_append.mp hshape.apart).2.1).1 b hb
        have hb' := (hinv.shape.live_ok b hb).lt
        have hp' := (hshape.live_ok _ List.mem_cons_self).lt
        simp only [Span.Apart, Block.span] at *
        omega
    have hsame : ∀ b ∈ free ++ live, (formatPage { h with pages := (src.alloc h.pages).2 }
        (src.alloc h.pages).1).hdr b.addr = h.hdr b.addr :=
      fun b hb => Heap.setHdr_ne _ _ (hformat b hb)
    have hchain : FreeChain (formatPage { h with pages := (src.alloc h.pages).2 }
        (src.alloc h.pages).1) free :=
      hinv.chain.frame fun b hb => hsame b (List.mem_append_left _ hb)
    obtain ⟨h', hrun, hinv'⟩ := release_spec src
      ⟨(src.alloc h.pages).1, pageSize - headerSize⟩ hchain hshape
      (congrArg BlockHeader.size (Heap.setHdr_same _ _ _))
      (fun b hb => by
        rw [hsame b (List.mem_append_right _ hb)]
        exact hinv.stored b hb)
      (by
        have hcount := hinv.count
        simp only [formatPage, List.length_cons] at *
        omega)
      (fun p hp hstill => by
        rcases List.mem_cons.mp hp with rfl | hp
        · exact src.alloc_taken _ hpage hstill
        · exact hinv.fresh p hp (src.alloc_shrinks _ _ hstill))
    refine .inr ⟨h', hpage, ?_, hinv'⟩
    simp [Magnos.heapAddPage, hpage, hrun]

theorem heapAddPage_returns (hinv : HeapInv src h free live) :
    ∃ page h' free', Magnos.heapAddPage src h = some (page, h') ∧ HeapInv src h' free' live := by
  rcases hinv.heapAddPage with ⟨h', -, hrun, hinv'⟩ | ⟨h', -, hrun, hinv'⟩
  · exact ⟨_, h', _, hrun, hinv'⟩
  · exact ⟨_, h', _, hrun, hinv'⟩

theorem addPages (n : Nat) (hinv : HeapInv src h free live) :
    ∃ h' free', Magnos.addPages src n h = some h' ∧ HeapInv src h' free' live := by
  induction n generalizing h free with
  | zero => exact ⟨h, free, rfl, hinv⟩
  | succ n ih =>
      obtain ⟨page, h₁, free₁, hadd, hinv₁⟩ := hinv.heapAddPage_returns
      obtain ⟨h', free', hrest, hinv'⟩ := ih hinv₁
      exact ⟨h', free', (addPages_succ hadd).trans hrest, hinv'⟩

theorem growHeap (n : Nat) (hinv : HeapInv src h free live) :
    ∃ grown h' free', Magnos.growHeap src n h = some (grown, h') ∧
      HeapInv src h' free' live := by
  induction n generalizing h free with
  | zero => exact ⟨true, h, free, rfl, hinv⟩
  | succ n ih =>
      obtain ⟨page, h₁, free₁, hadd, hinv₁⟩ := hinv.heapAddPage_returns
      by_cases hpage : page = 0
      · exact ⟨false, h₁, free₁, by simp [Magnos.growHeap, hadd, hpage], hinv₁⟩
      · obtain ⟨grown, h', free', hrest, hinv'⟩ := ih hinv₁
        exact ⟨grown, h', free', by simp [Magnos.growHeap, hadd, hpage, hrest], hinv'⟩

theorem search (hinv : HeapInv src h free live) (size : Nat) (haligned : size % 16 = 0)
    (hpos : 16 ≤ size) :
    kmallocSearch h size walkLimit h.freeList 0 = some (none, h) ∧ (∀ d ∈ free, d.size < size) ∨
      ∃ p h', kmallocSearch h size walkLimit h.freeList 0 = some (some p, h') ∧
        ServedFrom src h free live size p h' := by
  rcases kmallocSearch_spec h size free h.freeList 0 walkLimit hinv.chain hinv.shape.length_lt with
    hnone | ⟨before, c, after, rfl, hbefore, hfits, hfound⟩
  · exact .inl hnone
  right
  have hsplit := hinv.shape.split haligned hpos
  have hshape := hsplit.unlink
  have haddr := takenBlock_addr c size
  have hok := hinv.shape.free_ok c (by simp)
  obtain ⟨hchain, hheader, hsame⟩ :=
    takeBlock_spec h size hinv.chain hinv.shape hfits haligned hpos
  refine ⟨c.addr + headerSize, takeBlock h c.addr ((before.map Block.addr).getLastD 0) size, ?_,
    before, c, after, rfl, hbefore, hfits, rfl, hsame.pages, hchain, ?_, ?_, ?_, ?_⟩
  · have hbound := hok.bounded
    rw [hfound, Nat.mod_eq_of_lt]
    simp only [Block.fin, headerSize] at *
    omega
  · rw [hsame.taken]
    exact hshape
  · intro b hb
    rcases List.mem_cons.mp hb with rfl | hb
    · rw [haddr]
      exact ⟨congrArg BlockHeader.size hheader, congrArg BlockHeader.isFree hheader⟩
    · rw [hsame.hdr _ (hsplit.live_addr_notMem b hb)]
      exact hinv.stored b hb
  · rw [hsame.heapPages, hsame.taken]
    exact hinv.count
  · rw [hsame.taken, hsame.pages]
    exact hinv.fresh

theorem kmalloc_cases (hinv : HeapInv src h free live) {size : Nat} (hsize : size ≠ 0)
    {grown : Bool} {h₁ : Heap Pages} {free₁ : List Block}
    (hgrow : Magnos.growHeap src (pagesNeeded (allocSize size)) h = some (grown, h₁))
    (hinv₁ : HeapInv src h₁ free₁ live) :
    ∃ p h', Magnos.kmalloc src h size = some (p, h') ∧
      (ServedFrom src h free live (allocSize size) p h' ∨
        (∀ d ∈ free, d.size < allocSize size) ∧
          (grown = true ∧ ServedFrom src h₁ free₁ live (allocSize size) p h' ∨
            (grown = false ∨ ∀ d ∈ free₁, d.size < allocSize size) ∧ p = 0 ∧ h' = h₁)) := by
  obtain ⟨haligned, hpos⟩ := allocSize_spec size
  rcases hinv.search (allocSize size) haligned hpos with ⟨hnone, hsmall⟩ | ⟨p, h', hfound, hserved⟩
  · cases grown with
    | false =>
        refine ⟨0, h₁, ?_, .inr ⟨hsmall, .inr ⟨.inl rfl, rfl, rfl⟩⟩⟩
        simp [Magnos.kmalloc, hsize, hnone, hgrow]
    | true =>
        rcases hinv₁.search (allocSize size) haligned hpos with
          ⟨hnone₁, hsmall₁⟩ | ⟨p, h', hfound, hserved⟩
        · refine ⟨0, h₁, ?_, .inr ⟨hsmall, .inr ⟨.inr hsmall₁, rfl, rfl⟩⟩⟩
          simp [Magnos.kmalloc, hsize, hnone, hgrow, hnone₁]
        · refine ⟨p, h', ?_, .inr ⟨hsmall, .inl ⟨rfl, hserved⟩⟩⟩
          simp [Magnos.kmalloc, hsize, hnone, hgrow, hfound]
  · refine ⟨p, h', ?_, .inl hserved⟩
    simp [Magnos.kmalloc, hsize, hfound]

theorem kmalloc (hinv : HeapInv src h free live) (size : Nat) :
    ∃ p h' free', Magnos.kmalloc src h size = some (p, h') ∧
      ((p = 0 ∧ HeapInv src h' free' live) ∨
        ∃ b : Block, p = b.addr + headerSize ∧ allocSize size ≤ b.size ∧
          HeapInv src h' free' (b :: live)) := by
  by_cases hzero : size = 0
  · exact ⟨0, h, free, by simp [Magnos.kmalloc, hzero], .inl ⟨rfl, hinv⟩⟩
  obtain ⟨grown, h₁, free₁, hgrow, hinv₁⟩ := hinv.growHeap (pagesNeeded (allocSize size))
  obtain ⟨p, h', hrun, hserved | ⟨-, ⟨-, hserved⟩ | ⟨-, rfl, rfl⟩⟩⟩ :=
    hinv.kmalloc_cases hzero hgrow hinv₁
  · obtain ⟨b, free', hblock⟩ := hserved.block
    exact ⟨p, h', free', hrun, .inr ⟨b, hblock⟩⟩
  · obtain ⟨b, free', hblock⟩ := hserved.block
    exact ⟨p, h', free', hrun, .inr ⟨b, hblock⟩⟩
  · exact ⟨0, h', free₁, hrun, .inl ⟨rfl, hinv₁⟩⟩

theorem kfree (hinv : HeapInv src h free live) (b : Block) (hb : b ∈ live) :
    ∃ h', Magnos.kfree h (b.addr + headerSize) = some h' ∧
      HeapInv src h' (coalesceList (insertBlock b free)) (live.erase b) := by
  obtain ⟨h', hrun, hinv'⟩ := release_spec src b hinv.chain
    (hinv.shape.perm_live (List.perm_cons_erase hb)) (hinv.stored b hb).1
    (fun c hc => hinv.stored c (List.mem_of_mem_erase hc)) hinv.count hinv.fresh
  refine ⟨h', ?_, hinv'⟩
  rw [Magnos.kfree, if_neg (by simp [headerSize]), (hinv.shape.live_ok b hb).sub32_ptr, hrun]

theorem heapGetStats (hinv : HeapInv src h free live) :
    ∃ stats, Magnos.heapGetStats h = some stats ∧ stats.numPages = h.taken.length ∧
      stats.totalBytes = pageSize * stats.numPages ∧
      stats.usedBytes = stats.totalBytes - stats.freeBytes ∧
      stats.freeBytes + headerSize * stats.numFreeBlocks +
        (live.map fun b => headerSize + b.size).sum = pageSize * stats.numPages := by
  have htotal := hinv.shape.total
  have hpages := hinv.shape.taken_length_lt
  have hlen := hinv.shape.length_lt
  have hsum : (free.map fun b => headerSize + b.size).sum =
      headerSize * free.length + (free.map Block.size).sum := by
    rw [List.sum_map_add, List.map_const', List.sum_replicate, smul_eq_mul, Nat.mul_comm]
  rw [List.map_append, List.sum_append, hsum] at htotal
  have hwalk := heapStatsWalk_spec h.hdr free h.freeList walkLimit 0 0 hinv.chain hlen
    (by simp only [pageSize, headerSize] at *; omega) (by simp only [walkLimit] at *; omega)
  rw [Nat.zero_add, Nat.zero_add] at hwalk
  have hbytes : h.taken.length * pageSize % 2 ^ 32 = pageSize * h.taken.length := by
    rw [Nat.mul_comm]
    exact Nat.mod_eq_of_lt (by simp only [pageSize]; omega)
  have hused : sub32 (pageSize * h.taken.length) (free.map Block.size).sum =
      pageSize * h.taken.length - (free.map Block.size).sum :=
    sub32_of_le (by omega) (by simp only [pageSize]; omega)
  refine ⟨⟨pageSize * h.taken.length, (free.map Block.size).sum,
    pageSize * h.taken.length - (free.map Block.size).sum, free.length, h.taken.length⟩,
    ?_, rfl, rfl, rfl, ?_⟩
  · simp only [Magnos.heapGetStats, hinv.count, hbytes, hwalk, Option.bind_eq_bind,
      Option.bind_some, hused, Option.pure_def]
  · simp only
    omega

end HeapInv

/-- A heap with the blocks `kmalloc` has returned and `kfree` has not taken back, each with
the size its header had when it was returned. -/
structure HeapState (Pages : Type) where
  heap : Heap Pages
  live : List Block

inductive HeapOp where
  | kmalloc (size : UInt32)
  | kfree (ptr : Nat)
deriving DecidableEq

/-- The pointer `kmalloc` returns for a block. -/
def Block.ptr (b : Block) : Nat := b.addr + headerSize

/-- The live block behind a pointer that `kmalloc` has just returned. -/
def returnedBlock (h : Heap Pages) (p : Nat) : Block :=
  ⟨sub32 p headerSize, (h.hdr (sub32 p headerSize)).size⟩

theorem HeapInv.returnedBlock_eq (hinv : HeapInv src h free live) {b : Block} (hb : b ∈ live) :
    returnedBlock h (b.addr + headerSize) = b := by
  rw [returnedBlock, (hinv.shape.live_ok b hb).sub32_ptr, (hinv.stored b hb).1]

/-- `kfree` is called only with live pointers. -/
def heapStep (src : PageSource Pages) (s : HeapState Pages) : HeapOp → HeapState Pages → Prop
  | .kmalloc size, t => ∃ p h, kmalloc src s.heap size.toNat = some (p, h) ∧
      t = ⟨h, if p = 0 then s.live else returnedBlock h p :: s.live⟩
  | .kfree ptr, t => ∃ b ∈ s.live, b.ptr = ptr ∧ ∃ h, kfree s.heap ptr = some h ∧
      t = ⟨h, s.live.erase b⟩

/-- The heap's statics before `heap_init`, with any memory contents and any supply. -/
def unusedHeap (hdr : Nat → BlockHeader) (pages : Pages) : Heap Pages := ⟨hdr, 0, 0, pages, []⟩

/-- What holds of the heap in every state of a run. -/
structure HeapSound (s : HeapState Pages) (free : List Block) : Prop where
  chain : FreeChain s.heap free
  sorted : free.Pairwise fun b c => b.addr < c.addr
  free_flag : ∀ b ∈ free, (s.heap.hdr b.addr).isFree = 1
  stored : ∀ b ∈ free ++ s.live, (s.heap.hdr b.addr).size = b.size
  sizes : ∀ b ∈ free ++ s.live, b.size ≠ 0 ∧ b.size % 16 = 0
  partition : ∀ a, coverCount ((free ++ s.live).map Block.span) a =
    if ∃ p ∈ s.heap.taken, p ≤ a ∧ a < p + pageSize then 1 else 0
  apart : (free ++ s.live).Pairwise fun b c => b.span.Apart c.span
  aligned : ∀ b ∈ s.live, b.ptr % 16 = 0
  stats : ∃ stats, heapGetStats s.heap = some stats ∧ stats.numPages = s.heap.taken.length ∧
    stats.usedBytes + stats.freeBytes = stats.totalBytes ∧
    stats.freeBytes + 16 * stats.numFreeBlocks + (s.live.map fun b => 16 + b.size).sum =
      4096 * stats.numPages

theorem HeapInv.sound {s : HeapState Pages} (hinv : HeapInv src s.heap free s.live) :
    HeapSound s free := by
  have hfree : ∀ b ∈ free, (s.heap.hdr b.addr).size = b.size ∧ (s.heap.hdr b.addr).isFree = 1 :=
    fun b hb => (hinv.chain.holds hb).2
  refine ⟨hinv.chain, hinv.shape.sorted, fun b hb => (hfree b hb).2, ?_, ?_, ?_,
    hinv.shape.apart, ?_, ?_⟩
  · intro b hb
    rcases List.mem_append.mp hb with hb | hb
    · exact (hfree b hb).1
    · exact (hinv.stored b hb).1
  · intro b hb
    have hok := hinv.shape.ok b hb
    have hpos := hok.size_pos
    exact ⟨by omega, hok.size_aligned⟩
  · intro a
    have hone := hinv.shape.cover_le_one a
    have hpos : 0 < coverCount (s.heap.taken.map pageSpan) a ↔ _ := coverCount_pos
    rw [hinv.shape.cover] at hone ⊢
    simp only [List.mem_map, exists_exists_and_eq_and, pageSpan, Span.Holds] at hpos
    split
    · next hin =>
        have := hpos.mpr hin
        omega
    · next hout =>
        have := mt hpos.mp hout
        omega
  · intro b hb
    have haligned := (hinv.shape.live_ok b hb).addr_aligned
    simp only [Block.ptr, headerSize]
    omega
  · obtain ⟨stats, hstats, hpages, htotal, hused, hsum⟩ := hinv.heapGetStats
    simp only [headerSize, pageSize] at *
    exact ⟨stats, hstats, hpages, by omega, hsum⟩

theorem heapStep_inv (s t : HeapState Pages) (op : HeapOp)
    (hinv : ∃ free, HeapInv src s.heap free s.live) (hstep : heapStep src s op t) :
    ∃ free, HeapInv src t.heap free t.live := by
  obtain ⟨free, hinv⟩ := hinv
  cases op with
  | kmalloc size =>
      obtain ⟨p, h, hrun, rfl⟩ := hstep
      obtain ⟨p', h', free', hrun', houtcome⟩ := hinv.kmalloc size.toNat
      obtain ⟨rfl, rfl⟩ : p = p' ∧ h = h' := by simpa [hrun] using hrun'
      refine ⟨free', ?_⟩
      rcases houtcome with ⟨rfl, hinv'⟩ | ⟨b, rfl, -, hinv'⟩
      · simpa using hinv'
      · have hne : b.addr + headerSize ≠ 0 := by simp [headerSize]
        simp only [if_neg hne, hinv'.returnedBlock_eq List.mem_cons_self]
        exact hinv'
  | kfree ptr =>
      obtain ⟨b, hb, rfl, h, hrun, rfl⟩ := hstep
      obtain ⟨h', hrun', hinv'⟩ := hinv.kfree b hb
      obtain rfl : h = h' := Option.some.inj (hrun.symm.trans hrun')
      exact ⟨_, hinv'⟩

theorem heapStep_live (s t : HeapState Pages) (op : HeapOp) (b : Block) (hb : b ∈ s.live)
    (hop : op ≠ .kfree b.ptr) (hstep : heapStep src s op t) : b ∈ t.live := by
  cases op with
  | kmalloc size =>
      obtain ⟨p, h, -, rfl⟩ := hstep
      simp only
      split
      · exact hb
      · exact List.mem_cons_of_mem _ hb
  | kfree ptr =>
      obtain ⟨c, -, rfl, h, -, rfl⟩ := hstep
      apply (List.mem_erase_of_ne _).mpr hb
      rintro rfl
      exact hop rfl

theorem heapRun_inv {s t : HeapState Pages} {ops : List HeapOp}
    (hrun : Run (heapStep src) s ops t) (hinv : ∃ free, HeapInv src s.heap free s.live) :
    ∃ free, HeapInv src t.heap free t.live :=
  hrun.invariant (fun s op t hs hst => heapStep_inv s t op hs hst) hinv

theorem heapRun_live {s t : HeapState Pages} {ops : List HeapOp} (b : Block) (hb : b ∈ s.live)
    (hrun : Run (heapStep src) s ops t) (hops : .kfree b.ptr ∉ ops) : b ∈ t.live := by
  induction hrun with
  | nil => exact hb
  | snoc _ hlast ih =>
      rw [List.mem_append, List.mem_singleton, not_or] at hops
      exact heapStep_live _ _ _ b (ih hops.1) (Ne.symm hops.2) hlast

theorem unusedHeap_inv (src : PageSource Pages) (hdr : Nat → BlockHeader) (pages : Pages) :
    HeapInv src (unusedHeap hdr pages) [] [] := by
  refine ⟨rfl, ⟨?_, ?_, ?_, ?_, ?_, ?_, ?_, ?_⟩, ?_, rfl, ?_⟩ <;> simp [unusedHeap]

theorem heapInit_inv (src : PageSource Pages) (hdr : Nat → BlockHeader) (pages : Pages) :
    ∃ h free, heapInit src (unusedHeap hdr pages) = some h ∧ HeapInv src h free [] :=
  (unusedHeap_inv src hdr pages).addPages initialPages

/-- `heap_init` returns, and so does every later call; in every state reached the blocks
partition the pages, and a live block's size is kept until it is freed. -/
theorem heapRun_sound (src : PageSource Pages) (hdr : Nat → BlockHeader) (pages : Pages) :
    ∃ h, heapInit src (unusedHeap hdr pages) = some h ∧
      ∀ ops s, Run (heapStep src) ⟨h, []⟩ ops s →
        (∃ free, HeapSound s free) ∧
        (∀ size, ∃ t, heapStep src s (.kmalloc size) t) ∧
        (∀ b ∈ s.live, ∃ t, heapStep src s (.kfree b.ptr) t) ∧
        ∀ b ∈ s.live, ∀ ops' t, Run (heapStep src) s ops' t → .kfree b.ptr ∉ ops' →
          b ∈ t.live ∧ (t.heap.hdr b.addr).size = b.size := by
  obtain ⟨h, free₀, hinit, hinv₀⟩ := heapInit_inv src hdr pages
  refine ⟨h, hinit, ?_⟩
  intro ops s hrun
  obtain ⟨free, hinv⟩ := heapRun_inv hrun ⟨free₀, hinv₀⟩
  refine ⟨⟨free, hinv.sound⟩, ?_, ?_, ?_⟩
  · intro size
    obtain ⟨p, h', -, hkmalloc, -⟩ := hinv.kmalloc size.toNat
    exact ⟨_, p, h', hkmalloc, rfl⟩
  · intro b hb
    obtain ⟨h', hkfree, -⟩ := hinv.kfree b hb
    exact ⟨_, b, hb, rfl, h', hkfree, rfl⟩
  · intro b hb ops' t hrun' hops
    have hlive := heapRun_live b hb hrun' hops
    obtain ⟨free', hinv'⟩ := heapRun_inv hrun' ⟨free, hinv⟩
    exact ⟨hlive, (hinv'.stored b hlive).1⟩

/-- A heap fed by the physical memory manager, after its first allocation. -/
theorem heapRun_sound_pmm :
    ∃ h t, heapInit pmmSource (unusedHeap (fun _ => ⟨0, 0, 0⟩) (pmmInit 0x20000)) = some h ∧
      heapStep pmmSource ⟨h, []⟩ (.kmalloc 100) t ∧ ∃ free, HeapSound t free := by
  obtain ⟨h, hinit, hruns⟩ :=
    heapRun_sound pmmSource (fun _ => ⟨0, 0, 0⟩) (pmmInit 0x20000)
  obtain ⟨t, hstep⟩ := (hruns [] _ (.nil _)).2.1 100
  exact ⟨h, t, hinit, hstep, (hruns [.kmalloc 100] t (.snoc (.nil _) hstep)).1⟩

end Magnos
