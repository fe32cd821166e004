import Magnos.Framework.Pool
import Magnos.Memory.Heap

/-!
# The allocator as a pool of page numbers

The bitmap is read as the set of the page numbers it marks free.  `pmm_alloc` takes the least
of them and `pmm_free` gives a page number back, whatever address it is called with; a run of
both from `pmm_init` is a run of the pool.
-/

namespace Magnos

open Framework

/-- A call of the allocator, with what `pmm_alloc` returned. -/
inductive PmmCall where
  | alloc (page : Nat)
  | free (addr : Nat)
deriving DecidableEq

def pmmCallStep (bitmap : Bitmap) : PmmCall → Bitmap → Prop
  | .alloc page, bitmap' => pmmAlloc bitmap = (page, bitmap')
  | .free addr, bitmap' => pmmFree bitmap addr = bitmap'

def freePages (bitmap : Bitmap) : Finset Nat := (Finset.range totalPages).filter (PageFree bitmap)

/-- What a call means for the pool of free pages. -/
def PmmCall.pool : PmmCall → PoolCall Nat
  | .alloc page => if page = 0 then .refuse else .take (page / pageSize)
  | .free addr =>
      if 1 ≤ addr / pageSize ∧ addr / pageSize ≤ 4095 then .give (addr / pageSize) else .pass

theorem mem_freePages (bitmap : Bitmap) (p : Nat) : p ∈ freePages bitmap ↔ PageFree bitmap p := by
  rw [freePages, Finset.mem_filter, Finset.mem_range]
  exact ⟨fun h => h.2, fun h => ⟨h.1, h⟩⟩

theorem freePages_eq_empty (bitmap : Bitmap) :
    freePages bitmap = ∅ ↔ ∀ p, ¬ PageFree bitmap p := by
  simp only [Finset.eq_empty_iff_forall_notMem, mem_freePages]

theorem lowestFree_iff (bitmap : Bitmap) (p : Nat) :
    LowestFree bitmap p ↔ IsLeast (freePages bitmap : Set Nat) p := by
  constructor
  · intro hlow
    refine ⟨(mem_freePages bitmap p).mpr hlow.1, ?_⟩
    intro q hq
    by_contra hlt
    exact hlow.2 q (not_le.mp hlt) ((mem_freePages bitmap q).mp hq)
  · rintro ⟨hmem, hleast⟩
    refine ⟨(mem_freePages bitmap p).mp hmem, ?_⟩
    intro q hq hfree
    have hle := hleast ((mem_freePages bitmap q).mpr hfree)
    omega

theorem freePages_bitmapSet (bitmap : Bitmap) (p : Nat) :
    freePages (bitmapSet bitmap p) = (freePages bitmap).erase p := by
  ext q
  rw [mem_freePages, pageFree_bitmapSet, Finset.mem_erase, mem_freePages]

theorem freePages_pmmFree (bitmap : Bitmap) (addr : Nat) :
    freePages (pmmFree bitmap addr) =
      if 1 ≤ addr / pageSize ∧ addr / pageSize ≤ 4095 then
        insert (addr / pageSize) (freePages bitmap)
      else freePages bitmap := by
  ext q
  rw [mem_freePages, pageFree_pmmFree, totalPages_eq]
  by_cases hrange : 1 ≤ addr / pageSize ∧ addr / pageSize ≤ 4095
  · rw [if_pos hrange, Finset.mem_insert, mem_freePages]
    constructor
    · rintro (⟨rfl, -, -⟩ | hfree)
      · exact .inl rfl
      · exact .inr hfree
    · rintro (rfl | hfree)
      · exact .inl ⟨rfl, by omega, by omega⟩
      · exact .inr hfree
  · rw [if_neg hrange, mem_freePages]
    constructor
    · rintro (⟨rfl, hpos, hlt⟩ | hfree)
      · omega
      · exact hfree
    · exact .inr

theorem pmmFree_outside (bitmap : Bitmap) (addr : Nat)
    (haddr : ¬ (1 ≤ addr / pageSize ∧ addr / pageSize ≤ 4095)) : pmmFree bitmap addr = bitmap := by
  rw [pmmFree, if_neg]
  rw [totalPages_eq]
  omega

theorem pmmGetFreeCount_eq (bitmap : Bitmap) :
    pmmGetFreeCount bitmap = (freePages bitmap).card := by
  have hbyte : ∀ i count, (List.range 8).foldl (fun count bit =>
      if bitmap i &&& 1#8 <<< bit = 0#8 then count + 1 else count) count =
      count + Nat.count (fun bit => bitmapTest bitmap (i * 8 + bit) = 0#8) 8 := by
    intro i count
    rw [foldl_range_count]
    congr 1
    rw [Nat.count_eq_card_filter_range, Nat.count_eq_card_filter_range]
    congr 1
    apply Finset.filter_congr
    intro bit hbit
    rw [bitmapTest_index bitmap i bit (Finset.mem_range.mp hbit)]
  have hbytes : ∀ n, (List.range n).foldl (fun count i => (List.range 8).foldl (fun count bit =>
      if bitmap i &&& 1#8 <<< bit = 0#8 then count + 1 else count) count) 0 =
      Nat.count (fun p => bitmapTest bitmap p = 0#8) (n * 8) := by
    intro n
    induction n with
    | zero => rfl
    | succ n ih =>
        rw [List.range_succ (n := n), List.foldl_append, ih, List.foldl_cons, List.foldl_nil, hbyte,
          Nat.succ_mul, Nat.count_add]
  have hall : totalPages / 8 * 8 = totalPages := by rw [totalPages_eq]
  have hfree : freePages bitmap =
      (Finset.range totalPages).filter fun p => bitmapTest bitmap p = 0#8 := by
    apply Finset.filter_congr
    intro p hp
    exact ⟨fun h => h.2, fun h => ⟨Finset.mem_range.mp hp, h⟩⟩
  rw [pmmGetFreeCount, hbytes, hall, Nat.count_eq_card_filter_range, hfree]

theorem zero_notMem_freePages_step (bitmap bitmap' : Bitmap) (call : PmmCall)
    (hzero : 0 ∉ freePages bitmap) (hstep : pmmCallStep bitmap call bitmap') :
    0 ∉ freePages bitmap' := by
  cases call with
  | alloc page =>
      have hcall : pmmAlloc bitmap = (page, bitmap') := hstep
      rcases pmmAlloc_cases bitmap with ⟨p, -, halloc⟩ | ⟨-, halloc⟩
      · rw [halloc, Prod.mk.injEq] at hcall
        rw [← hcall.2, freePages_bitmapSet]
        exact fun h => hzero (Finset.mem_of_mem_erase h)
      · rw [halloc, Prod.mk.injEq] at hcall
        rw [← hcall.2]
        exact hzero
  | free addr =>
      obtain rfl : pmmFree bitmap addr = bitmap' := hstep
      rw [freePages_pmmFree]
      split
      · rw [Finset.mem_insert, not_or]
        exact ⟨by omega, hzero⟩
      · exact hzero

theorem zero_notMem_freePages_init (kernelEnd : Nat) (hlo : 0x1000 ≤ kernelEnd)
    (hhi : kernelEnd ≤ 0x1F0000) : 0 ∉ freePages (pmmInit kernelEnd) := by
  rw [mem_freePages, pageFree_pmmInit]
  simp only [kernelEndPage, pageSize]
  omega

/-- `pmm_alloc` in a bitmap without page 0 takes the least free page or is refused. -/
theorem pmmAlloc_pool (bitmap : Bitmap) (hzero : 0 ∉ freePages bitmap) :
    (∃ p, IsLeast (freePages bitmap : Set Nat) p ∧ 0 < p ∧ (pmmAlloc bitmap).1 = p * pageSize ∧
        freePages (pmmAlloc bitmap).2 = (freePages bitmap).erase p) ∨
      freePages bitmap = ∅ ∧ pmmAlloc bitmap = (0, bitmap) := by
  rcases pmmAlloc_cases bitmap with ⟨p, hlow, halloc⟩ | ⟨hnone, halloc⟩
  · have hleast := (lowestFree_iff bitmap p).mp hlow
    have hpos : 0 < p := by
      rw [Nat.pos_iff_ne_zero]
      rintro rfl
      exact hzero hleast.1
    exact .inl ⟨p, hleast, hpos, by rw [halloc], by rw [halloc, freePages_bitmapSet]⟩
  · exact .inr ⟨(freePages_eq_empty bitmap).mpr hnone, halloc⟩

theorem pmmAlloc_ne_zero (bitmap : Bitmap) (hzero : 0 ∉ freePages bitmap)
    (hfree : freePages bitmap ≠ ∅) : (pmmAlloc bitmap).1 ≠ 0 := by
  rcases pmmAlloc_pool bitmap hzero with ⟨p, -, hpos, hpage, -⟩ | ⟨hempty, -⟩
  · rw [hpage]
    exact (Nat.mul_pos hpos (by decide)).ne'
  · exact absurd hempty hfree

theorem pmmAlloc_init_ne_zero (kernelEnd : Nat) (hlo : 0x1000 ≤ kernelEnd)
    (hhi : kernelEnd ≤ 0x1F0000) : (pmmSource.alloc (pmmInit kernelEnd)).1 ≠ 0 := by
  have hfree : 0x300 ∈ freePages (pmmInit kernelEnd) := by
    rw [mem_freePages, pageFree_pmmInit, totalPages_eq]
    omega
  exact pmmAlloc_ne_zero _ (zero_notMem_freePages_init kernelEnd hlo hhi)
    (Finset.ne_empty_of_mem hfree)

/-- The allocator in the states it has after `pmm_init`. -/
def pmmPool : PageSource { bitmap : Bitmap // 0 ∉ freePages bitmap } where
  alloc s := ((pmmAlloc s.1).1, ⟨(pmmAlloc s.1).2,
    zero_notMem_freePages_step s.1 (pmmAlloc s.1).2 (.alloc (pmmAlloc s.1).1) s.2 rfl⟩)
  Available s := pmmSource.Available s.1
  aligned s := pmmSource.aligned s.1
  bounded s := pmmSource.bounded s.1
  alloc_available s := pmmSource.alloc_available s.1
  alloc_taken s := pmmSource.alloc_taken s.1
  alloc_shrinks s := pmmSource.alloc_shrinks s.1

theorem pmmPool_refuse (s : { bitmap : Bitmap // 0 ∉ freePages bitmap })
    (hzero : (pmmPool.alloc s).1 = 0) : (pmmPool.alloc s).2 = s := by
  rcases pmmAlloc_pool s.1 s.2 with ⟨p, -, hpos, hpage, -⟩ | ⟨-, halloc⟩
  · have hne : p * pageSize = 0 := hpage.symm.trans hzero
    simp only [pageSize] at hne
    omega
  · apply Subtype.ext
    show (pmmAlloc s.1).2 = s.1
    rw [halloc]

theorem pmmCallStep_pool (bitmap bitmap' : Bitmap) (call : PmmCall)
    (hzero : 0 ∉ freePages bitmap) (hstep : pmmCallStep bitmap call bitmap') :
    poolStep (freePages bitmap) call.pool (freePages bitmap') := by
  cases call with
  | alloc page =>
      have hcall : pmmAlloc bitmap = (page, bitmap') := hstep
      rcases pmmAlloc_pool bitmap hzero with ⟨p, hleast, hpos, hpage, hfree⟩ | ⟨hnone, halloc⟩
      · rw [hcall] at hpage hfree
        have hdiv : page / pageSize = p := by
          rw [show page = p * pageSize from hpage]
          exact Nat.mul_div_cancel p (by decide)
        have hne : page ≠ 0 := by
          rintro rfl
          rw [Nat.zero_div] at hdiv
          omega
        rw [PmmCall.pool, if_neg hne, hdiv]
        exact ⟨hleast, hfree⟩
      · rw [halloc, Prod.mk.injEq] at hcall
        rw [PmmCall.pool, if_pos hcall.1.symm, ← hcall.2]
        exact ⟨hnone, rfl⟩
  | free addr =>
      obtain rfl : pmmFree bitmap addr = bitmap' := hstep
      rw [freePages_pmmFree, PmmCall.pool]
      split <;> rfl

/-- From `pmm_init` on, the bitmap is a pool of page numbers that never holds page 0:
`pmm_alloc` takes the least, `pmm_free` gives back, the count is the pool's size, and no page
is returned twice without a `pmm_free` of it in between. -/
theorem pmmRun_pool (kernelEnd : Nat) (hlo : 0x1000 ≤ kernelEnd) (hhi : kernelEnd ≤ 0x1F0000)
    (calls : List PmmCall) (bitmap : Bitmap)
    (hrun : Run pmmCallStep (pmmInit kernelEnd) calls bitmap) :
    Run poolStep (freePages (pmmInit kernelEnd)) (calls.map PmmCall.pool) (freePages bitmap) ∧
      0 ∉ freePages bitmap ∧ pmmGetFreeCount bitmap = (freePages bitmap).card ∧
      (∀ p, IsLeast (freePages bitmap : Set Nat) p → (pmmAlloc bitmap).1 = 4096 * p ∧
        freePages (pmmAlloc bitmap).2 = (freePages bitmap).erase p) ∧
      ((pmmAlloc bitmap).1 = 0 ↔ freePages bitmap = ∅) ∧
      (freePages bitmap = ∅ → pmmAlloc bitmap = (0, bitmap)) ∧
      (∀ addr, freePages (pmmFree bitmap addr) =
        if 1 ≤ addr / 4096 ∧ addr / 4096 ≤ 4095 then insert (addr / 4096) (freePages bitmap)
        else freePages bitmap) ∧
      (∀ addr, ¬ (1 ≤ addr / 4096 ∧ addr / 4096 ≤ 4095) → pmmFree bitmap addr = bitmap) ∧
      ∀ before between after page, page ≠ 0 →
        calls = before ++ .alloc page :: (between ++ .alloc page :: after) →
        ∃ addr, .free addr ∈ between ∧ addr / 4096 = page / 4096 := by
  have hinit := zero_notMem_freePages_init kernelEnd hlo hhi
  have hzero := hrun.invariant (fun b c b' => zero_notMem_freePages_step b b' c) hinit
  have hpool := hrun.map (fun b c b' => zero_notMem_freePages_step b b' c)
    (fun b c b' => pmmCallStep_pool b b' c) hinit
  refine ⟨hpool, hzero, pmmGetFreeCount_eq bitmap, ?_, ?_, ?_, freePages_pmmFree bitmap,
    pmmFree_outside bitmap, ?_⟩
  · intro p hleast
    rcases pmmAlloc_pool bitmap hzero with ⟨q, hleast', -, hpage, hfree⟩ | ⟨hnone, -⟩
    · obtain rfl := hleast.unique hleast'
      exact ⟨by rw [hpage, Nat.mul_comm]; rfl, hfree⟩
    · rw [hnone] at hleast
      exact absurd hleast.1 (by simp)
  · rcases pmmAlloc_pool bitmap hzero with ⟨q, hleast, hpos, hpage, -⟩ | ⟨hnone, halloc⟩
    · rw [hpage]
      simp only [pageSize]
      constructor
      · omega
      · intro hnone
        rw [hnone] at hleast
        exact absurd hleast.1 (by simp)
    · rw [halloc]
      exact ⟨fun _ => hnone, fun _ => rfl⟩
  · intro hnone
    rcases pmmAlloc_pool bitmap hzero with ⟨q, hleast, -⟩ | ⟨-, halloc⟩
    · rw [hnone] at hleast
      exact absurd hleast.1 (by simp)
    · exact halloc
  · rintro before between after page hne rfl
    simp only [List.map_append, List.map_cons, PmmCall.pool, if_neg hne] at hpool
    obtain ⟨call, hmem, hgive⟩ := List.mem_map.mp (poolRun_give_between hpool)
    cases call with
    | alloc other =>
        rw [PmmCall.pool] at hgive
        split at hgive <;> cases hgive
    | free addr =>
        rw [PmmCall.pool] at hgive
        split at hgive
        · exact ⟨addr, hmem, PoolCall.give.inj hgive⟩
        · cases hgive

/-- A kernel of 1 MB, and a `pmm_free` of a page of the user region. -/
theorem pmmRun_pool_userPage :
    Run pmmCallStep (pmmInit 0x100000) [.free 0x200000] (pmmFree (pmmInit 0x100000) 0x200000) ∧
      Run poolStep (freePages (pmmInit 0x100000)) [.give 0x200]
        (freePages (pmmFree (pmmInit 0x100000) 0x200000)) := by
  have hrun : Run pmmCallStep (pmmInit 0x100000) [.free 0x200000]
      (pmmFree (pmmInit 0x100000) 0x200000) := .snoc (.nil _) rfl
  exact ⟨hrun, (pmmRun_pool 0x100000 (by decide) (by decide) _ _ hrun).1⟩

end Magnos
