import Magnos.Memory.Heap

/-!
# Pages handed out

The physical memory manager with a record of the addresses it has returned.  As it always
takes the lowest free page and nothing here gives a page back, the record is the initial
segment, of its length, of the pages that were free at the start.
-/

namespace Magnos

open Framework

/-- A supplier together with the list of the pages it has supplied. -/
def PageSource.logged {Pages : Type} (src : PageSource Pages) :
    PageSource (Pages × List Nat) where
  alloc s :=
    let page := (src.alloc s.1).1
    (page, (src.alloc s.1).2, if page = 0 then s.2 else page :: s.2)
  Available s := src.Available s.1
  aligned s := src.aligned s.1
  bounded s := src.bounded s.1
  alloc_available s := src.alloc_available s.1
  alloc_taken s := src.alloc_taken s.1
  alloc_shrinks s := src.alloc_shrinks s.1

/-- The physical memory manager with the pages it has handed out. -/
abbrev PmmLog := Bitmap × List Nat

/-- What a bitmap and the record of a run tell about each other, given the first bitmap. -/
structure PmmLogInv (start : Bitmap) (s : PmmLog) : Prop where
  free : ∀ p, PageFree s.1 p → PageFree start p
  ordered : ∀ p q, PageFree start p → ¬ PageFree s.1 p → PageFree s.1 q → p < q
  handedOut : ∀ a, a ∈ s.2 ↔ ∃ p, a = p * pageSize ∧ p ≠ 0 ∧ PageFree start p ∧ ¬ PageFree s.1 p
  nodup : s.2.Nodup

theorem PmmLogInv.start (bitmap : Bitmap) : PmmLogInv bitmap (bitmap, []) := by
  refine ⟨fun p hp => hp, ?_, ?_, List.nodup_nil⟩
  · intro p q hp hnot
    exact (hnot hp).elim
  · simp only [List.not_mem_nil, false_iff]
    rintro a ⟨p, -, -, hp, hnot⟩
    exact hnot hp

theorem PmmLogInv.alloc {start : Bitmap} {s : PmmLog} (hinv : PmmLogInv start s) :
    PmmLogInv start (pmmSource.logged.alloc s).2 := by
  obtain ⟨bitmap, log⟩ := s
  rcases pmmAlloc_cases bitmap with ⟨p, hlow, halloc⟩ | ⟨-, halloc⟩
  · have hafter : (pmmSource.logged.alloc (bitmap, log)).2 =
        (bitmapSet bitmap p, if p * pageSize = 0 then log else p * pageSize :: log) := by
      simp only [PageSource.logged, pmmSource, halloc]
    rw [hafter]
    have hset := pageFree_bitmapSet bitmap p
    have hstart := hinv.free p hlow.1
    refine ⟨?_, ?_, ?_, ?_⟩
    · intro q hq
      exact hinv.free q ((hset q).mp hq).2
    · intro q r hq hnot hr
      rw [hset] at hnot hr
      by_cases hqp : q = p
      · subst q
        by_contra hge
        exact hlow.2 r (by omega) hr.2
      · exact hinv.ordered q r hq (fun hfree => hnot ⟨hqp, hfree⟩) hr.2
    · intro a
      have hold := hinv.handedOut a
      simp only [hset]
      by_cases hzero : p * pageSize = 0
      · have hp : p = 0 := by
          simp only [pageSize] at hzero
          omega
        rw [if_pos hzero, hold]
        grind
      · have hp : p ≠ 0 := by
          rintro rfl
          exact hzero (Nat.zero_mul _)
        rw [if_neg hzero, List.mem_cons, hold]
        constructor
        · rintro (rfl | ⟨q, rfl, hq, hfree, hnot⟩)
          · exact ⟨p, rfl, hp, hstart, fun hboth => hboth.1 rfl⟩
          · exact ⟨q, rfl, hq, hfree, fun hboth => hnot hboth.2⟩
        · rintro ⟨q, rfl, hq, hfree, hnot⟩
          by_cases hqp : q = p
          · exact .inl (by rw [hqp])
          · exact .inr ⟨q, rfl, hq, hfree, fun hq' => hnot ⟨hqp, hq'⟩⟩
    · by_cases hzero : p * pageSize = 0
      · simpa only [if_pos hzero] using hinv.nodup
      · simp only [if_neg hzero]
        refine List.nodup_cons.mpr ⟨?_, hinv.nodup⟩
        rw [hinv.handedOut]
        rintro ⟨q, heq, -, -, hnot⟩
        obtain rfl : p = q := Nat.eq_of_mul_eq_mul_right (by decide) heq
        exact hnot hlow.1
  · have hafter : (pmmSource.logged.alloc (bitmap, log)).2 = (bitmap, log) := by
      simp only [PageSource.logged, pmmSource, halloc, if_true]
    rw [hafter]
    exact hinv

/-- The pages, other than page 0, that are free at the start and lie below page `bound`. -/
def freeBelow (start : Bitmap) (bound : Nat) : Finset Nat :=
  (Finset.range bound).filter fun p => p ≠ 0 ∧ PageFree start p

/-- The numbers of the pages handed out. -/
def logNumbers (s : PmmLog) : Finset Nat := (s.2.map (· / pageSize)).toFinset

section Numbers

variable {start : Bitmap} {s : PmmLog} (hinv : PmmLogInv start s)
include hinv

theorem PmmLogInv.mem_log (q : Nat) :
    q * pageSize ∈ s.2 ↔ q ≠ 0 ∧ PageFree start q ∧ ¬ PageFree s.1 q := by
  rw [hinv.handedOut]
  constructor
  · rintro ⟨r, heq, hr⟩
    obtain rfl : q = r := Nat.eq_of_mul_eq_mul_right (by decide) heq
    exact hr
  · intro hq
    exact ⟨q, rfl, hq⟩

theorem PmmLogInv.mem_logNumbers (q : Nat) : q ∈ logNumbers s ↔ q * pageSize ∈ s.2 := by
  rw [logNumbers, List.mem_toFinset, List.mem_map]
  constructor
  · rintro ⟨a, ha, rfl⟩
    obtain ⟨r, rfl, -⟩ := (hinv.handedOut a).mp ha
    rwa [Nat.mul_div_cancel _ (by decide)]
  · intro hq
    exact ⟨_, hq, Nat.mul_div_cancel _ (by decide)⟩

theorem PmmLogInv.card_logNumbers : (logNumbers s).card = s.2.length := by
  have hnumbers : (s.2.map (· / pageSize)).Nodup := by
    apply hinv.nodup.map_on
    intro a ha b hb heq
    obtain ⟨q, rfl, -⟩ := (hinv.handedOut a).mp ha
    obtain ⟨r, rfl, -⟩ := (hinv.handedOut b).mp hb
    rw [Nat.mul_div_cancel _ (by decide), Nat.mul_div_cancel _ (by decide)] at heq
    rw [heq]
  rw [logNumbers, List.toFinset_card_of_nodup hnumbers, List.length_map]

theorem PmmLogInv.mem_iff (p : Nat) (hp : p ≠ 0) (hfree : PageFree start p) :
    p * pageSize ∈ s.2 ↔ (freeBelow start p).card < s.2.length := by
  rw [← hinv.card_logNumbers]
  constructor
  · intro hout
    have hsub : insert p (freeBelow start p) ⊆ logNumbers s := by
      intro q hq
      rw [hinv.mem_logNumbers]
      rcases Finset.mem_insert.mp hq with rfl | hq
      · exact hout
      · obtain ⟨hlt, hne, hstart⟩ := Finset.mem_filter.mp hq
        refine (hinv.mem_log q).mpr ⟨hne, hstart, ?_⟩
        intro hstill
        have hgt := hinv.ordered p q hfree ((hinv.mem_log p).mp hout).2.2 hstill
        rw [Finset.mem_range] at hlt
        omega
    have hle := Finset.card_le_card hsub
    rw [Finset.card_insert_of_notMem (by simp [freeBelow])] at hle
    omega
  · intro hlt
    by_contra hout
    have hstill : PageFree s.1 p := by
      by_contra hnot
      exact hout ((hinv.mem_log p).mpr ⟨hp, hfree, hnot⟩)
    have hsub : logNumbers s ⊆ freeBelow start p := by
      intro q hq
      rw [hinv.mem_logNumbers, hinv.mem_log] at hq
      obtain ⟨hne, hstart, hnot⟩ := hq
      exact Finset.mem_filter.mpr
        ⟨Finset.mem_range.mpr (hinv.ordered q p hstart hnot hstill), hne, hstart⟩
    have hle := Finset.card_le_card hsub
    omega

end Numbers

/-- The supplier all parts of the kernel share. -/
abbrev kernelPages : PageSource PmmLog := pmmSource.logged

theorem kernelPages_keeps (s : PmmLog) (a : Nat) (ha : a ∈ s.2) : a ∈ (kernelPages.alloc s).2.2 := by
  simp only [kernelPages, PageSource.logged]
  split
  · exact ha
  · exact List.mem_cons_of_mem _ ha

theorem kernelPages_records (s : PmmLog) (hne : (kernelPages.alloc s).1 ≠ 0) :
    (kernelPages.alloc s).1 ∈ (kernelPages.alloc s).2.2 := by
  simp only [kernelPages, PageSource.logged] at hne ⊢
  rw [if_neg hne]
  exact List.mem_cons_self

theorem PmmLogInv.fresh {start : Bitmap} {s : PmmLog} (hinv : PmmLogInv start s)
    (hne : (kernelPages.alloc s).1 ≠ 0) : (kernelPages.alloc s).1 ∉ s.2 := by
  have havail : kernelPages.Available s (kernelPages.alloc s).1 :=
    kernelPages.alloc_available s hne
  rw [hinv.handedOut]
  rintro ⟨p, heq, -, -, hnot⟩
  rw [heq] at havail
  have hfree : PageFree s.1 (p * pageSize / pageSize) := havail.2
  rw [Nat.mul_div_cancel _ (by decide)] at hfree
  exact hnot hfree

/-- After some requests, at most as many pages are handed out and page 0 is no longer
available. -/
structure EarlyPages (kernelEnd requests : Nat) (s : PmmLog) : Prop where
  log : PmmLogInv (pmmInit kernelEnd) s
  length : s.2.length ≤ requests
  pageZero : 0 < requests → ¬ PageFree s.1 0

theorem EarlyPages.alloc {kernelEnd requests : Nat} {s : PmmLog}
    (hinv : EarlyPages kernelEnd requests s) :
    EarlyPages kernelEnd (requests + 1) (kernelPages.alloc s).2 := by
  refine ⟨hinv.log.alloc, ?_, ?_⟩
  · have hlen := hinv.length
    simp only [kernelPages, PageSource.logged]
    split
    · omega
    · rw [List.length_cons]
      omega
  · intro _
    simp only [kernelPages, PageSource.logged, pmmSource]
    rcases pmmAlloc_cases s.1 with ⟨p, hlow, halloc⟩ | ⟨hnone, halloc⟩
    · simp only [halloc, pageFree_bitmapSet]
      rintro ⟨hne, hfree⟩
      exact hlow.2 0 (by omega) hfree
    · simp only [halloc]
      exact hnone 0

/-- The pages above the user area outlast the requests made during boot. -/
theorem EarlyPages.alloc_ne_zero {kernelEnd requests : Nat} {s : PmmLog}
    (hinv : EarlyPages kernelEnd requests s) (hpos : 0 < requests) (hfew : requests ≤ 3000) :
    (kernelPages.alloc s).1 ≠ 0 := by
  have hlast : PageFree (pmmInit kernelEnd) 0xFFF := by
    rw [pageFree_pmmInit, totalPages_eq]
    omega
  rcases pmmAlloc_cases s.1 with ⟨p, hlow, halloc⟩ | ⟨hnone, -⟩
  · have hp : p ≠ 0 := by
      rintro rfl
      exact hinv.pageZero hpos hlow.1
    have heq : (kernelPages.alloc s).1 = p * pageSize := by
      simp only [kernelPages, PageSource.logged, pmmSource, halloc]
    rw [heq]
    simp only [pageSize]
    omega
  · exfalso
    have hout : 0xFFF * pageSize ∈ s.2 :=
      (hinv.log.handedOut _).mpr ⟨0xFFF, rfl, by decide, hlast, hnone _⟩
    rw [hinv.log.mem_iff 0xFFF (by decide) hlast] at hout
    have hsub : Finset.Ico 0x300 0xFFF ⊆ freeBelow (pmmInit kernelEnd) 0xFFF := by
      intro q hq
      rw [Finset.mem_Ico] at hq
      refine Finset.mem_filter.mpr ⟨Finset.mem_range.mpr hq.2, by omega, ?_⟩
      rw [pageFree_pmmInit, totalPages_eq]
      omega
    have hcard := Finset.card_le_card hsub
    rw [Nat.card_Ico] at hcard
    have hlen := hinv.length
    omega

end Magnos
