import Magnos.Framework.Transition
import Magnos.Memory.HeapRuns
import Magnos.Memory.PageTables
import Magnos.Memory.Process

/-!
# Kernel pages and ring 3

Runs of the allocating parts of the kernel over one physical memory manager: the heap, the
process table and the page tables.  The program launcher opens the pages `0x200` to `0x300`
to ring 3; `pmm_init` keeps the first 256 of them out of the allocator but frees the last
one, the user stack's page, with the memory above it.
-/

namespace Magnos

open Framework

/-- The parts of the kernel that take pages; the heap carries the common supply. -/
structure Kmem where
  heap : HeapState PmmLog
  paging : Paging
  procs : ProcTable

def Kmem.pages (s : Kmem) : PmmLog := s.heap.heap.pages

/-- The pages `pmm_alloc` has handed out. -/
def Kmem.handedOut (s : Kmem) : List Nat := s.pages.2

def Kmem.setPages (s : Kmem) (pages : PmmLog) : Kmem :=
  { s with heap := { s.heap with heap := { s.heap.heap with pages := pages } } }

/-- The memory `kernel_main` finds: the words at the addresses that will hold headers,
tables and process stacks. -/
structure BootMemory where
  hdr : Nat → BlockHeader
  paging : Paging
  procs : ProcTable

/-- `pmm_init`, `heap_init`, `paging_init` and `process_init`. -/
def kmemBoot (kernelEnd : Nat) (mem : BootMemory) : Option Kmem := do
  let h ← heapInit kernelPages (unusedHeap mem.hdr (pmmInit kernelEnd, []))
  let (m, pages) := pagingInit kernelPages mem.paging h.pages
  return { heap := ⟨{ h with pages := pages }, []⟩, paging := m, procs := processInit mem.procs }

inductive KmemOp where
  | kmalloc (size : UInt32)
  | kfree (ptr : Nat)
  | processCreate (name : List UInt8) (entry : UInt32)
  | pagingMap (virt phys flags : UInt32)
  | launch

/-- One call.  `kfree` is called only with live pointers; `launch` is the mapping part of
`elf_load_and_exec`. -/
def kmemStep (s : Kmem) : KmemOp → Kmem → Prop
  | .kmalloc size, t => ∃ h, heapStep kernelPages s.heap (.kmalloc size) h ∧ t = { s with heap := h }
  | .kfree ptr, t => ∃ h, heapStep kernelPages s.heap (.kfree ptr) h ∧ t = { s with heap := h }
  | .processCreate name entry, t =>
      let r := processCreate kernelPages s.procs s.pages name entry.toNat
      t = { s.setPages r.2.2 with procs := r.2.1 }
  | .pagingMap virt phys flags, t =>
      let r := pagingMap kernelPages s.paging s.pages virt.toNat phys.toNat flags.toNat
      t = { s.setPages r.2 with paging := r.1 }
  | .launch, t =>
      let r := mapUserPages kernelPages s.paging s.pages
      t = { s.setPages r.2 with paging := r.1 }

/-- `paging_map` is asked to open only frames that `pmm_init` keeps from the allocator. -/
def opensReservedFrames (kernelEnd : Nat) (_ : Kmem) : KmemOp → Prop
  | .pagingMap _ phys flags => flags.toNat &&& pageUser ≠ 0 →
      ¬ PageFree (pmmInit kernelEnd) (phys.toNat / pageSize)
  | _ => True

/-- The frames ring 3 may come to use, before and after a first launch. -/
def openFrames (kernelEnd : Nat) (launched : Prop) (frame : Nat) : Prop :=
  ¬ PageFree (pmmInit kernelEnd) (frame / pageSize) ∨ launched ∧ frame = 0x300000

theorem heapStep_pages {P : PmmLog → Prop} (hstep : ∀ s, P s → P (kernelPages.alloc s).2)
    {s t : HeapState PmmLog} {op : HeapOp} (hs : P s.heap.pages)
    (hrun : heapStep kernelPages s op t) : P t.heap.pages := by
  cases op with
  | kmalloc size =>
      obtain ⟨p, h, hkmalloc, rfl⟩ := hrun
      exact kmalloc_pages hstep hkmalloc hs
  | kfree ptr =>
      obtain ⟨b, -, -, h, hkfree, rfl⟩ := hrun
      have hsame := kfree_pages hkfree
      exact hsame ▸ hs

theorem openFrames_region (kernelEnd : Nat) (launched : Prop) (i : Nat) (hi : i < 0x100) :
    openFrames kernelEnd launched (0x200000 + i * pageSize) := by
  left
  have hdiv : (0x200000 + i * pageSize) / pageSize = 0x200 + i := by
    simp only [pageSize]
    omega
  rw [hdiv, pageFree_pmmInit, totalPages_eq]
  omega

theorem TableInv.mono_open {Owned Open Open' : Nat → Prop} {m : Paging}
    (hinv : TableInv Owned Open m) (hmono : ∀ p, Open p → Open' p) : TableInv Owned Open' m :=
  ⟨hinv.directory, hinv.tables, fun i pt hentry j hp hu => hmono _ (hinv.user i pt hentry j hp hu)⟩

/-- One guarded call keeps the tables, with the stack's page among the open frames as soon
as a program is launched. -/
theorem kmemStep_tables (kernelEnd : Nat) (launched : Prop) (s t : Kmem) (op : KmemOp)
    (hinv : KernelTables (pmmInit kernelEnd) (openFrames kernelEnd launched) s.paging s.pages)
    (hguard : opensReservedFrames kernelEnd s op) (hstep : kmemStep s op t) :
    KernelTables (pmmInit kernelEnd) (openFrames kernelEnd (launched ∨ op = .launch))
      t.paging t.pages := by
  have hinv' : KernelTables (pmmInit kernelEnd)
      (openFrames kernelEnd (launched ∨ op = .launch)) s.paging s.pages := by
    refine ⟨hinv.log, hinv.tables.mono_open ?_, hinv.low⟩
    rintro p (hp | ⟨hl, hp⟩)
    · exact .inl hp
    · exact .inr ⟨.inl hl, hp⟩
  clear hinv
  have halloc : ∀ pages, KernelTables (pmmInit kernelEnd)
      (openFrames kernelEnd (launched ∨ op = .launch)) s.paging pages →
      KernelTables (pmmInit kernelEnd)
        (openFrames kernelEnd (launched ∨ op = .launch)) s.paging (kernelPages.alloc pages).2 :=
    fun _ h => h.alloc
  cases op with
  | kmalloc size =>
      obtain ⟨h, hrun, rfl⟩ := hstep
      exact heapStep_pages halloc hinv' hrun
  | kfree ptr =>
      obtain ⟨h, hrun, rfl⟩ := hstep
      exact heapStep_pages halloc hinv' hrun
  | processCreate name entry =>
      simp only [kmemStep] at hstep
      subst hstep
      show KernelTables _ _ s.paging
        (processCreate kernelPages s.procs s.pages name entry.toNat).2.2
      rcases processCreate_pages kernelPages s.procs s.pages name entry.toNat with hsame | hnext
      · rw [hsame]
        exact hinv'
      · rw [hnext]
        exact hinv'.alloc
  | pagingMap virt phys flags =>
      simp only [kmemStep] at hstep
      subst hstep
      apply hinv'.pagingMap
      · exact phys.toNat_lt
      · intro hflag
        left
        rw [Nat.mul_div_cancel _ (by decide)]
        exact hguard hflag
  | launch =>
      simp only [kmemStep] at hstep
      subst hstep
      exact (hinv'.mapUserPages (openFrames_region kernelEnd _) (.inr ⟨.inr rfl, rfl⟩)).1

theorem kmemRun_tables (kernelEnd : Nat) (s t : Kmem) (ops : List KmemOp)
    (hrun : Run (guarded (opensReservedFrames kernelEnd) kmemStep) s ops t)
    (hinv : KernelTables (pmmInit kernelEnd) (openFrames kernelEnd False) s.paging s.pages) :
    KernelTables (pmmInit kernelEnd) (openFrames kernelEnd (.launch ∈ ops)) t.paging t.pages := by
  induction hrun with
  | nil => simpa using hinv
  | snoc _ hlast ih =>
      have hnext := kmemStep_tables kernelEnd _ _ _ _ ih hlast.1 hlast.2
      simpa [List.mem_append, eq_comm] using hnext

theorem kmemBoot_tables (kernelEnd : Nat) (mem : BootMemory) :
    ∃ s, kmemBoot kernelEnd mem = some s ∧
      KernelTables (pmmInit kernelEnd) (openFrames kernelEnd False) s.paging s.pages := by
  obtain ⟨h, free, hinit, -⟩ := heapInit_inv kernelPages mem.hdr (pmmInit kernelEnd, [])
  have hearly : EarlyPages kernelEnd (0 + initialPages) h.pages := by
    apply addPages_pages (fun k s hs => hs.alloc) hinit
    exact ⟨PmmLogInv.start _, Nat.le_refl _, fun hpos => (Nat.lt_irrefl _ hpos).elim⟩
  refine ⟨_, by rw [kmemBoot, hinit]; rfl, ?_⟩
  exact pagingInit_tables _ _ hearly (by decide) (by decide)

theorem userMapped_handedOut {kernelEnd : Nat} {launched : Prop} {m : Paging} {pages : PmmLog}
    (hinv : KernelTables (pmmInit kernelEnd) (openFrames kernelEnd launched) m pages) (page : Nat)
    (hpage : page ∈ pages.2) (hmapped : UserMapped m page) : launched ∧ page = 0x300000 := by
  obtain ⟨p, rfl, -, hfree, -⟩ := (hinv.log.handedOut page).mp hpage
  rcases hinv.tables.open_of_userMapped _ hmapped with hreserved | hstack
  · rw [Nat.mul_div_cancel _ (by decide)] at hreserved
    exact (hreserved hfree).elim
  · exact hstack

/-- When `paging_map` opens only reserved frames, ring 3 can use a page handed out to the
kernel exactly if the user stack's page is mapped and more pages have been handed out than
`pmm_init` frees below it; and without a launch that page is not mapped. -/
theorem kmemRun_isolated_iff (kernelEnd : Nat) (mem : BootMemory) :
    ∃ s₀, kmemBoot kernelEnd mem = some s₀ ∧
      ∀ ops s, Run (guarded (opensReservedFrames kernelEnd) kmemStep) s₀ ops s →
        ((∀ page ∈ s.handedOut, ¬ UserMapped s.paging page) ↔
          (UserMapped s.paging 0x300000 →
            s.handedOut.length ≤ (freeBelow (pmmInit kernelEnd) 0x300).card)) ∧
        (UserMapped s.paging 0x300000 → .launch ∈ ops) := by
  obtain ⟨s₀, hboot, hinv₀⟩ := kmemBoot_tables kernelEnd mem
  refine ⟨s₀, hboot, ?_⟩
  intro ops s hrun
  have hinv := kmemRun_tables kernelEnd s₀ s ops hrun hinv₀
  have hstack : PageFree (pmmInit kernelEnd) 0x300 := by
    rw [pageFree_pmmInit, totalPages_eq]
    omega
  have hout : 0x300000 ∈ s.handedOut ↔
      (freeBelow (pmmInit kernelEnd) 0x300).card < s.handedOut.length :=
    hinv.log.mem_iff 0x300 (by decide) hstack
  refine ⟨⟨?_, ?_⟩, ?_⟩
  · intro hisolated hmapped
    by_contra hmany
    exact hisolated _ (hout.mpr (by omega)) hmapped
  · intro hfew page hpage hmapped
    obtain ⟨-, rfl⟩ := userMapped_handedOut hinv page hpage hmapped
    have hlen := hfew hmapped
    have hlt := hout.mp hpage
    omega
  · intro hmapped
    rcases hinv.tables.open_of_userMapped _ hmapped with hreserved | ⟨hlaunched, -⟩
    · exact (hreserved hstack).elim
    · exact hlaunched

/-- Memory that holds zeros. -/
def zeroMemory : BootMemory where
  hdr _ := ⟨0, 0, 0⟩
  paging := ⟨0, fun _ _ => 0⟩
  procs := ⟨fun _ => ⟨0, [], .unused, 0, 0, 0, 0⟩, none, 0, fun _ => 0⟩

section PageCounts

theorem kernelPages_length (pages : PmmLog) :
    (kernelPages.alloc pages).2.2.length ≤ pages.2.length + 1 := by
  simp only [kernelPages, PageSource.logged]
  split <;> simp

theorem pagingMap_length (m : Paging) (pages : PmmLog) (virt phys flags : Nat) :
    (pagingMap kernelPages m pages virt phys flags).2.2.length ≤ pages.2.length + 1 := by
  have hone := kernelPages_length pages
  unfold pagingMap
  split
  · dsimp only
    split <;> exact hone
  · exact Nat.le_succ _

theorem foldl_pages_length (f : Paging × PmmLog → Nat → Paging × PmmLog)
    (hone : ∀ x i, (f x i).2.2.length ≤ x.2.2.length + 1) (is : List Nat) (x : Paging × PmmLog) :
    (is.foldl f x).2.2.length ≤ x.2.2.length + is.length := by
  induction is generalizing x with
  | nil => exact Nat.le_refl _
  | cons i is ih =>
      have hfirst := hone x i
      have hrest := ih (f x i)
      rw [List.foldl_cons, List.length_cons]
      omega

theorem pagingInit_length (m : Paging) (pages : PmmLog) :
    (pagingInit kernelPages m pages).2.2.length ≤ pages.2.length + 5 := by
  have hone := kernelPages_length pages
  have htables := foldl_pages_length (initTable kernelPages (kernelPages.alloc pages).1)
    (fun x _ => kernelPages_length x.2) (List.range identityMapEntries)
    ({ m with directory := (kernelPages.alloc pages).1 }.zeroPage (kernelPages.alloc pages).1,
      (kernelPages.alloc pages).2)
  rw [List.length_range] at htables
  rw [pagingInit]
  dsimp only at htables ⊢
  have hentries : identityMapEntries = 4 := rfl
  omega

theorem mapUserPages_length (m : Paging) (pages : PmmLog) :
    (mapUserPages kernelPages m pages).2.2.length ≤ pages.2.length + 0x101 := by
  have hregion := foldl_pages_length (mapUserPage kernelPages)
    (fun x _ => pagingMap_length x.1 x.2 _ _ _) (List.range userPageCount) (m, pages)
  have hstack := pagingMap_length
    ((List.range userPageCount).foldl (mapUserPage kernelPages) (m, pages)).1
    ((List.range userPageCount).foldl (mapUserPage kernelPages) (m, pages)).2 0x300000 0x300000
    userFlags
  rw [List.length_range] at hregion
  rw [mapUserPages]
  dsimp only at hregion hstack ⊢
  have hcount := userPageCount_eq
  omega

theorem kmemBoot_length {kernelEnd : Nat} {mem : BootMemory} {s : Kmem}
    (hboot : kmemBoot kernelEnd mem = some s) : s.handedOut.length ≤ 21 := by
  obtain ⟨h, hinit, hrest⟩ := Option.bind_eq_some_iff.mp hboot
  have hheap : h.pages.2.length ≤ 0 + initialPages :=
    addPages_pages (P := fun k pages => pages.2.length ≤ k)
      (fun k pages hk => (kernelPages_length pages).trans (by omega)) hinit (Nat.le_refl 0)
  have hpaging := pagingInit_length mem.paging h.pages
  obtain rfl := Option.some.inj hrest
  rw [initialPages] at hheap
  show (pagingInit kernelPages mem.paging h.pages).2.2.length ≤ 21
  omega

end PageCounts

/-- The user's frame is mapped at a second address and a program is launched. -/
theorem kmemRun_isolated_launch :
    ∃ s₀ s, kmemBoot 0x20000 zeroMemory = some s₀ ∧
      Run (guarded (opensReservedFrames 0x20000) kmemStep) s₀
        [.pagingMap 0x1400000 0x200000 7, .launch] s ∧
      ∀ page ∈ s.handedOut, ¬ UserMapped s.paging page := by
  obtain ⟨s₀, hboot, hruns⟩ := kmemRun_isolated_iff 0x20000 zeroMemory
  have hreserved : opensReservedFrames 0x20000 s₀ (.pagingMap 0x1400000 0x200000 7) := by
    intro _
    rw [pageFree_pmmInit]
    decide
  have hrun : Run (guarded (opensReservedFrames 0x20000) kmemStep) s₀
      [.pagingMap 0x1400000 0x200000 7, .launch] _ :=
    .snoc (.snoc (.nil _) ⟨hreserved, rfl⟩) ⟨trivial, rfl⟩
  refine ⟨s₀, _, hboot, hrun, (hruns _ _ hrun).1.mpr fun _ => ?_⟩
  have hfree : Finset.Ico 0x20 0xA0 ∪ Finset.Ico 0x100 0x1F0 ⊆
      freeBelow (pmmInit 0x20000) 0x300 := by
    intro p hp
    rw [Finset.mem_union, Finset.mem_Ico, Finset.mem_Ico] at hp
    rw [freeBelow, Finset.mem_filter, Finset.mem_range, pageFree_pmmInit]
    simp only [kernelEndPage, pageSize]
    omega
  have hdisjoint : Disjoint (Finset.Ico 0x20 0xA0) (Finset.Ico 0x100 0x1F0) := by
    apply Finset.disjoint_left.mpr
    intro p hlow hhigh
    rw [Finset.mem_Ico] at hlow hhigh
    omega
  have hbelow := Finset.card_le_card hfree
  have hstart := kmemBoot_length hboot
  have hmapped := pagingMap_length s₀.paging s₀.pages 0x1400000 0x200000 7
  have hlaunched := mapUserPages_length
    (pagingMap kernelPages s₀.paging s₀.pages 0x1400000 0x200000 7).1
    (pagingMap kernelPages s₀.paging s₀.pages 0x1400000 0x200000 7).2
  rw [Finset.card_union_of_disjoint hdisjoint, Nat.card_Ico, Nat.card_Ico] at hbelow
  refine Nat.le_trans hlaunched ?_
  rw [Kmem.handedOut] at hstart
  omega

/-- With no free page below the user region, the first page the heap takes is the user
stack's, and the first launch opens it to ring 3. -/
theorem kmemRun_exposes_heapPage :
    ¬ ∀ (kernelEnd : Nat) (mem : BootMemory) (s₀ : Kmem) (ops : List KmemOp) (s : Kmem),
      kmemBoot kernelEnd mem = some s₀ → Run kmemStep s₀ ops s →
      ∀ page ∈ s.handedOut, ¬ UserMapped s.paging page := by
  intro hclaim
  obtain ⟨s₀, hboot, hinv₀⟩ := kmemBoot_tables 0x1F0000 zeroMemory
  have hinv : KernelTables (pmmInit 0x1F0000) (openFrames 0x1F0000 True) s₀.paging s₀.pages :=
    ⟨hinv₀.log, hinv₀.tables.mono_open fun p hp => hp.imp_right fun hno => hno.1.elim, hinv₀.low⟩
  obtain ⟨hinv', hmapped⟩ := hinv.mapUserPages (openFrames_region 0x1F0000 True) (.inr ⟨trivial, rfl⟩)
  have hstack : PageFree (pmmInit 0x1F0000) 0x300 := by
    rw [pageFree_pmmInit, totalPages_eq]
    omega
  have hbelow : freeBelow (pmmInit 0x1F0000) 0x300 = ∅ := by
    apply Finset.filter_eq_empty_iff.mpr
    intro p hp
    rw [Finset.mem_range] at hp
    rw [pageFree_pmmInit, totalPages_eq]
    simp only [kernelEndPage, pageSize]
    omega
  have hout := (hinv'.log.mem_iff 0x300 (by decide) hstack).mpr
    (by rw [hbelow]; exact List.length_pos_of_mem hinv'.tables.directory)
  exact hclaim 0x1F0000 zeroMemory s₀ [.launch] _ hboot (.snoc (.nil s₀) rfl) _ hout hmapped

end Magnos
