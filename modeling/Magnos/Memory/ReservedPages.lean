import Magnos.Framework.Transition
import Magnos.Memory.Pmm

/-!
# Pages the allocator may hand out

Runs of `pmm_alloc` and of `pmm_free` on pages returned earlier, from `pmm_init` for any
kernel end.  The free ranges of `pmm_init` miss every address the kernel uses at a fixed
place except the page below the boot stack's top at `0x1F0000`: that stack grows downward
into page `0x1EF`, which `pmm_init` frees with the pages below it.
-/

namespace Magnos

open Framework

/-- One `pmm_alloc` call of a run: the bitmap it found and the address it returned. -/
structure AllocCall where
  before : Bitmap
  page : Nat

structure PmmState where
  bitmap : Bitmap
  calls : List AllocCall

inductive PmmOp where
  | alloc
  | free (addr : Nat)

def pmmBoot (kernelEnd : Nat) : PmmState := ⟨pmmInit kernelEnd, []⟩

def PmmState.afterAlloc (s : PmmState) : PmmState :=
  ⟨(pmmAlloc s.bitmap).2, s.calls ++ [⟨s.bitmap, (pmmAlloc s.bitmap).1⟩]⟩

/-- `pmm_free` is called only with pages that an earlier `pmm_alloc` returned. -/
def pmmStep (s : PmmState) : PmmOp → PmmState → Prop
  | .alloc, t => t = s.afterAlloc
  | .free addr, t =>
      (∃ c ∈ s.calls, c.page = addr ∧ addr ≠ 0) ∧ t = ⟨pmmFree s.bitmap addr, s.calls⟩

theorem pmmStep_alloc (s : PmmState) : pmmStep s .alloc s.afterAlloc := rfl

/-- Addresses the kernel uses at fixed places: page 0, its image, the BIOS/VGA/ROM area and
the page its boot stack grows down into. -/
def FixedMemory (kernelEnd a : Nat) : Prop :=
  a < 0x1000 ∨ (0x1000 ≤ a ∧ a < kernelEnd) ∨ (0xA0000 ≤ a ∧ a ≤ 0xFFFFF) ∨
    (0x1EF000 ≤ a ∧ a < 0x1F0000)

/-- No byte of the page at `page` is fixed memory. -/
def MissesFixedMemory (kernelEnd page : Nat) : Prop :=
  ∀ a, page ≤ a → a < page + pageSize → ¬ FixedMemory kernelEnd a

theorem missesFixedMemory_of_pageFree (kernelEnd p : Nat)
    (hlo : 0x1000 ≤ kernelEnd) (hhi : kernelEnd ≤ 0x1F0000)
    (hfree : PageFree (pmmInit kernelEnd) p) :
    MissesFixedMemory kernelEnd (p * pageSize) ↔ p ≠ 0x1EF := by
  rw [pageFree_pmmInit kernelEnd, totalPages_eq] at hfree
  simp only [kernelEndPage, pageSize] at hfree
  constructor
  · rintro hmisses rfl
    exact hmisses 0x1EF000 (by decide) (by decide) (by unfold FixedMemory; omega)
  · intro hne a hfrom hto
    simp only [pageSize] at hfrom hto
    unfold FixedMemory
    omega

/-- Every page free or returned during a run was freed by `pmm_init`. -/
private structure PagesFromInit (kernelEnd : Nat) (s : PmmState) : Prop where
  free : ∀ p, PageFree s.bitmap p → PageFree (pmmInit kernelEnd) p
  calls : ∀ c ∈ s.calls, ∀ p, PageFree c.before p → PageFree (pmmInit kernelEnd) p
  pages : ∀ c ∈ s.calls, c.page = (pmmAlloc c.before).1

private theorem page_of_call (c : AllocCall) (hpage : c.page = (pmmAlloc c.before).1)
    (hne : c.page ≠ 0) :
    ∃ p, LowestFree c.before p ∧ c.page = p * pageSize := by
  rcases pmmAlloc_cases c.before with ⟨p, hlow, halloc⟩ | ⟨-, halloc⟩
  · exact ⟨p, hlow, by rw [hpage, halloc]⟩
  · rw [halloc] at hpage
    exact (hne hpage).elim

private theorem pagesFromInit_step (kernelEnd : Nat) (s t : PmmState) (op : PmmOp)
    (hinv : PagesFromInit kernelEnd s) (hstep : pmmStep s op t) :
    PagesFromInit kernelEnd t := by
  cases op with
  | alloc =>
      simp only [pmmStep, PmmState.afterAlloc] at hstep
      subst t
      constructor
      · intro p hp
        rcases pmmAlloc_cases s.bitmap with ⟨q, -, halloc⟩ | ⟨-, halloc⟩
        · simp only [halloc, pageFree_bitmapSet] at hp
          exact hinv.free p hp.2
        · simp only [halloc] at hp
          exact hinv.free p hp
      · intro c hc p hp
        rcases List.mem_append.mp hc with hold | hnew
        · exact hinv.calls c hold p hp
        · rw [List.mem_singleton] at hnew
          subst c
          exact hinv.free p hp
      · intro c hc
        rcases List.mem_append.mp hc with hold | hnew
        · exact hinv.pages c hold
        · rw [List.mem_singleton] at hnew
          subst c
          rfl
  | free addr =>
      obtain ⟨⟨c, hc, hpage, hne⟩, rfl⟩ := hstep
      refine ⟨?_, hinv.calls, hinv.pages⟩
      intro p hp
      rcases (pageFree_pmmFree s.bitmap addr p).mp hp with ⟨rfl, -, -⟩ | hold
      · obtain ⟨q, hlow, hq⟩ := page_of_call c (hinv.pages c hc) (by rw [hpage]; exact hne)
        have hdiv : addr / pageSize = q := by
          rw [← hpage, hq, Nat.mul_div_cancel _ (by decide)]
        rw [hdiv]
        exact hinv.calls c hc q hlow.1
      · exact hinv.free p hold

private theorem pagesFromInit_run (kernelEnd : Nat) (ops : List PmmOp) (s : PmmState)
    (hrun : Run pmmStep (pmmBoot kernelEnd) ops s) : PagesFromInit kernelEnd s := by
  apply hrun.invariant (fun a l b ha hab => pagesFromInit_step kernelEnd a b l ha hab)
  exact ⟨fun p hp => hp, by simp [pmmBoot], by simp [pmmBoot]⟩

/-- A run hands out no page of fixed memory exactly when no `pmm_alloc` of it is made with
page `0x1EF` as the lowest free page. -/
theorem missesFixedMemory_iff_neverLowest (kernelEnd : Nat)
    (hlo : 0x1000 ≤ kernelEnd) (hhi : kernelEnd ≤ 0x1F0000)
    (ops : List PmmOp) (s : PmmState) (hrun : Run pmmStep (pmmBoot kernelEnd) ops s) :
    (∀ c ∈ s.calls, c.page ≠ 0 → MissesFixedMemory kernelEnd c.page) ↔
      ∀ c ∈ s.calls, ¬ LowestFree c.before 0x1EF := by
  have hinv := pagesFromInit_run kernelEnd ops s hrun
  constructor
  · intro hmisses c hc hlow
    have hpage : c.page = 0x1EF * pageSize := by
      rcases pmmAlloc_cases c.before with ⟨p, hp, halloc⟩ | ⟨hnone, -⟩
      · rw [hinv.pages c hc, halloc, hp.unique hlow]
      · exact (hnone _ hlow.1).elim
    have hfree := hinv.calls c hc _ hlow.1
    have hmiss := hmisses c hc (by rw [hpage]; decide)
    rw [hpage, missesFixedMemory_of_pageFree kernelEnd _ hlo hhi hfree] at hmiss
    exact hmiss rfl
  · intro hnever c hc hne
    obtain ⟨p, hlow, hpage⟩ := page_of_call c (hinv.pages c hc) hne
    rw [hpage, missesFixedMemory_of_pageFree kernelEnd p hlo hhi (hinv.calls c hc p hlow.1)]
    rintro rfl
    exact hnever c hc hlow

private theorem run_to_lowestFree (kernelEnd target : Nat) (n : Nat) :
    ∀ (ops : List PmmOp) (s : PmmState), Run pmmStep (pmmBoot kernelEnd) ops s →
      PageFree s.bitmap target →
      ((Finset.range target).filter fun p => PageFree s.bitmap p).card ≤ n →
      ∃ ops' t, Run pmmStep (pmmBoot kernelEnd) ops' t ∧ LowestFree t.bitmap target := by
  induction n with
  | zero =>
      intro ops s hrun hfree hcard
      refine ⟨ops, s, hrun, hfree, ?_⟩
      intro q hq hqfree
      have hempty := Finset.card_eq_zero.mp (Nat.le_zero.mp hcard)
      have hmem : q ∈ (Finset.range target).filter fun p => PageFree s.bitmap p :=
        Finset.mem_filter.mpr ⟨Finset.mem_range.mpr hq, hqfree⟩
      rw [hempty] at hmem
      exact absurd hmem (Finset.notMem_empty q)
  | succ n ih =>
      intro ops s hrun hfree hcard
      rcases pmmAlloc_cases s.bitmap with ⟨p, hlow, halloc⟩ | ⟨hnone, -⟩
      · by_cases hp : p = target
        · subst p
          exact ⟨ops, s, hrun, hlow⟩
        · have hbelow : p < target := by
            by_contra hge
            exact hlow.2 target (by omega) hfree
          apply ih (ops ++ [.alloc]) s.afterAlloc (.snoc hrun (pmmStep_alloc s))
          · simp only [PmmState.afterAlloc, halloc, pageFree_bitmapSet]
            exact ⟨Ne.symm hp, hfree⟩
          · have hsmaller : ((Finset.range target).filter fun q =>
                PageFree s.afterAlloc.bitmap q) ⊆
                ((Finset.range target).filter fun q => PageFree s.bitmap q).erase p := by
              intro q hq
              simp only [PmmState.afterAlloc, halloc, pageFree_bitmapSet, Finset.mem_filter] at hq
              exact Finset.mem_erase.mpr ⟨hq.2.1, Finset.mem_filter.mpr ⟨hq.1, hq.2.2⟩⟩
            have hmem : p ∈ (Finset.range target).filter fun q => PageFree s.bitmap q :=
              Finset.mem_filter.mpr ⟨Finset.mem_range.mpr hbelow, hlow.1⟩
            have hle := Finset.card_le_card hsmaller
            rw [Finset.card_erase_of_mem hmem] at hle
            omega
      · exact (hnone _ hfree).elim

theorem stackPage_handedOut_iff (kernelEnd : Nat) (hhi : kernelEnd ≤ 0x1F0000) :
    (∃ ops s, Run pmmStep (pmmBoot kernelEnd) ops s ∧
      ∃ c ∈ s.calls, LowestFree c.before 0x1EF) ↔ kernelEnd ≤ 0x1EF000 := by
  have hinit : PageFree (pmmInit kernelEnd) 0x1EF ↔ kernelEnd ≤ 0x1EF000 := by
    rw [pageFree_pmmInit kernelEnd, totalPages_eq]
    simp only [kernelEndPage, pageSize]
    omega
  constructor
  · rintro ⟨ops, s, hrun, c, hc, hlow⟩
    exact hinit.mp ((pagesFromInit_run kernelEnd ops s hrun).calls c hc _ hlow.1)
  · intro hend
    obtain ⟨ops, t, hrun, hlow⟩ := run_to_lowestFree kernelEnd 0x1EF _ [] (pmmBoot kernelEnd)
      (.nil _) (hinit.mpr hend) (Nat.le_refl _)
    refine ⟨ops ++ [.alloc], t.afterAlloc, .snoc hrun (pmmStep_alloc t),
      ⟨t.bitmap, (pmmAlloc t.bitmap).1⟩, ?_, hlow⟩
    exact List.mem_append_right _ (List.mem_singleton.mpr rfl)

/-- Exactly the kernels that end above `0x1EF000` never hand out a page of fixed memory; for
the others, exactly the runs in which no `pmm_alloc` is made with page `0x1EF` as the lowest
free page. -/
theorem pmmRun_missesFixedMemory_iff (kernelEnd : Nat)
    (hlo : 0x1000 ≤ kernelEnd) (hhi : kernelEnd ≤ 0x1F0000) :
    ((∀ ops s, Run pmmStep (pmmBoot kernelEnd) ops s →
        ∀ c ∈ s.calls, c.page ≠ 0 → MissesFixedMemory kernelEnd c.page) ↔
      0x1EF000 < kernelEnd) ∧
    ∀ ops s, Run pmmStep (pmmBoot kernelEnd) ops s →
      ((∀ c ∈ s.calls, c.page ≠ 0 → MissesFixedMemory kernelEnd c.page) ↔
        ∀ c ∈ s.calls, ¬ LowestFree c.before 0x1EF) := by
  have hruns := missesFixedMemory_iff_neverLowest kernelEnd hlo hhi
  refine ⟨?_, hruns⟩
  have hstack := stackPage_handedOut_iff kernelEnd hhi
  constructor
  · intro hall
    by_contra hend
    obtain ⟨ops, s, hrun, c, hc, hlow⟩ := hstack.mpr (by omega)
    exact (hruns ops s hrun).mp (hall ops s hrun) c hc hlow
  · intro hend ops s hrun
    apply (hruns ops s hrun).mpr
    intro c hc hlow
    have hbelow := hstack.mp ⟨ops, s, hrun, c, hc, hlow⟩
    omega

theorem pmmRun_missesFixedMemory_highKernel :
    (0x1000 ≤ 0x1EF001 ∧ 0x1EF001 ≤ 0x1F0000) ∧
      ∀ ops s, Run pmmStep (pmmBoot 0x1EF001) ops s →
        ∀ c ∈ s.calls, c.page ≠ 0 → MissesFixedMemory 0x1EF001 c.page :=
  ⟨by decide, (pmmRun_missesFixedMemory_iff 0x1EF001 (by decide) (by decide)).1.mpr (by decide)⟩

private theorem lowestFree_stackPage :
    LowestFree (pmmInit 0x1EF000) 0x1EF := by
  constructor
  · rw [pageFree_pmmInit]
    decide
  · intro q hq
    rw [pageFree_pmmInit, totalPages_eq]
    simp only [kernelEndPage, pageSize]
    omega

/-- With the kernel ending at `0x1EF000` the first page handed out is the boot stack's. -/
theorem pmmRun_hands_out_stackPage :
    ¬ ∀ (kernelEnd : Nat) (ops : List PmmOp) (s : PmmState),
      0x1000 ≤ kernelEnd → kernelEnd ≤ 0x1F0000 →
      Run pmmStep (pmmBoot kernelEnd) ops s →
      ∀ c ∈ s.calls, c.page ≠ 0 → MissesFixedMemory kernelEnd c.page := by
  intro hclaim
  have hpage : (pmmAlloc (pmmInit 0x1EF000)).1 = 0x1EF000 := by
    rcases pmmAlloc_cases (pmmInit 0x1EF000) with ⟨p, hlow, halloc⟩ | ⟨hnone, -⟩
    · rw [halloc, hlow.unique lowestFree_stackPage]
      rfl
    · exact (hnone _ lowestFree_stackPage.1).elim
  have hmiss := hclaim 0x1EF000 [.alloc] _ (by decide) (by decide)
    (.snoc (.nil _) (pmmStep_alloc _)) ⟨pmmInit 0x1EF000, (pmmAlloc (pmmInit 0x1EF000)).1⟩
    (List.mem_append_right _ (List.mem_singleton.mpr rfl))
    (by rw [hpage]; decide)
  rw [hpage] at hmiss
  exact hmiss 0x1EF000 (by decide) (by decide) (by unfold FixedMemory; decide)

end Magnos
