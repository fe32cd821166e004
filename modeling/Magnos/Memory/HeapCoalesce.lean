import Magnos.Memory.FreePages
import Magnos.Memory.HeapRuns

/-!
# How far coalescing goes

The coalescing loop joins a block with its neighbour and then moves on, so that a run of free
blocks directly behind one another is joined pair by pair.  A run of three is left as two blocks.
-/

namespace Magnos

open Framework

variable {Pages : Type} {src : PageSource Pages}

/-- A block of the list starts at an address. -/
def StartsAt (a : Nat) (l : List Block) : Prop := ∃ d ∈ l, a = d.addr

/-- No block of the list lies directly behind another one. -/
def NoneAdjacent (l : List Block) : Prop := ∀ b ∈ l, ¬ StartsAt b.fin l

/-- Three blocks of the list lie directly behind one another. -/
def ThreeInRow (l : List Block) : Prop := ∃ x ∈ l, ∃ y ∈ l, x.fin = y.addr ∧ StartsAt y.fin l

section Lists

variable {b c : Block} {l : List Block}

theorem startsAt_cons {a : Nat} : StartsAt a (b :: l) ↔ a = b.addr ∨ StartsAt a l := by
  simp [StartsAt]

/-- Of blocks in order behind an address, only the first can start there. -/
theorem startsAt_head {a : Nat} (hc : c.Ok) (hafter : ∀ d ∈ l, c.fin ≤ d.addr)
    (hle : a ≤ c.addr) : StartsAt a (c :: l) ↔ a = c.addr := by
  rw [startsAt_cons, or_iff_left]
  rintro ⟨d, hd, rfl⟩
  have hlt := hc.lt
  have hge := hafter d hd
  omega

theorem fin_ne_first (hb : b.Ok) (hok : ∀ d ∈ l, d.Ok) (hafter : ∀ d ∈ l, b.fin ≤ d.addr) :
    ∀ d ∈ b :: l, d.fin ≠ b.addr := by
  intro d hd
  have hlt := hb.lt
  rcases List.mem_cons.mp hd with rfl | hd
  · omega
  · have hlt' := (hok d hd).lt
    have hle := hafter d hd
    omega

theorem noneAdjacent_cons (hb : b.Ok) (hok : ∀ d ∈ l, d.Ok) (hafter : ∀ d ∈ l, b.fin ≤ d.addr) :
    NoneAdjacent (b :: l) ↔ ¬ StartsAt b.fin l ∧ NoneAdjacent l := by
  have hfirst := fin_ne_first hb hok hafter
  have hstart : ∀ d ∈ b :: l, (StartsAt d.fin (b :: l) ↔ StartsAt d.fin l) := by
    intro d hd
    rw [startsAt_cons, or_iff_right (hfirst d hd)]
  rw [NoneAdjacent, List.forall_mem_cons, hstart b List.mem_cons_self]
  apply and_congr_right'
  apply forall₂_congr
  intro d hd
  rw [hstart d (List.mem_cons_of_mem b hd)]

theorem threeInRow_cons (hb : b.Ok) (hok : ∀ d ∈ l, d.Ok) (hafter : ∀ d ∈ l, b.fin ≤ d.addr) :
    ThreeInRow (b :: l) ↔ (∃ y ∈ l, b.fin = y.addr ∧ StartsAt y.fin l) ∨ ThreeInRow l := by
  have hfirst := fin_ne_first hb hok hafter
  constructor
  · rintro ⟨x, hx, y, hy, hxy, hyz⟩
    have hyl : y ∈ l := by
      rcases List.mem_cons.mp hy with heq | hy
      · exact absurd (heq ▸ hxy) (hfirst x hx)
      · exact hy
    have hstart := (startsAt_cons.mp hyz).resolve_left (hfirst y hy)
    rcases List.mem_cons.mp hx with rfl | hx
    · exact .inl ⟨y, hyl, hxy, hstart⟩
    · exact .inr ⟨x, hx, y, hyl, hxy, hstart⟩
  · rintro (⟨y, hy, hby, hstart⟩ | ⟨x, hx, y, hy, hxy, hstart⟩)
    · exact ⟨b, List.mem_cons_self, y, List.mem_cons_of_mem b hy, hby,
        startsAt_cons.mpr (.inr hstart)⟩
    · exact ⟨x, List.mem_cons_of_mem b hx, y, List.mem_cons_of_mem b hy, hxy,
        startsAt_cons.mpr (.inr hstart)⟩

theorem coalesceList_cons (b : Block) (l : List Block) :
    ∃ n rest, coalesceList (b :: l) = ⟨b.addr, n⟩ :: rest := by
  cases l with
  | nil => exact ⟨b.size, [], rfl⟩
  | cons c l =>
      rw [coalesceList]
      split
      · exact ⟨_, _, rfl⟩
      · exact ⟨b.size, _, rfl⟩

theorem coalesceList_addr_ge {a : Nat} (hge : ∀ d ∈ l, a ≤ d.addr) :
    ∀ d ∈ coalesceList l, a ≤ d.addr := by
  intro d hd
  have hmem := (coalesceList_addrs l).subset (List.mem_map_of_mem hd)
  obtain ⟨e, he, heq⟩ := List.mem_map.mp hmem
  rw [← heq]
  exact hge e he

theorem startsAt_coalesceList {a : Nat} (hok : ∀ d ∈ l, d.Ok)
    (hord : l.Pairwise fun b c => b.fin ≤ c.addr) (hge : ∀ d ∈ l, a ≤ d.addr) :
    StartsAt a (coalesceList l) ↔ StartsAt a l := by
  constructor
  · rintro ⟨d, hd, rfl⟩
    have hmem := (coalesceList_addrs l).subset (List.mem_map_of_mem hd)
    obtain ⟨e, he, heq⟩ := List.mem_map.mp hmem
    exact ⟨e, he, heq.symm⟩
  · intro hstart
    cases l with
    | nil => exact hstart
    | cons c l =>
        have hhead := (startsAt_head (hok c List.mem_cons_self) (List.pairwise_cons.mp hord).1
          (hge c List.mem_cons_self)).mp hstart
        obtain ⟨n, rest, hrest⟩ := coalesceList_cons c l
        rw [hrest]
        exact ⟨_, List.mem_cons_self, hhead⟩

theorem noneAdjacent_coalesceList (hok : ∀ b ∈ l, b.Ok)
    (hord : l.Pairwise fun b c => b.fin ≤ c.addr) :
    NoneAdjacent (coalesceList l) ↔ ¬ ThreeInRow l := by
  have hok' := coalesceList_ok l hok
  fun_induction coalesceList l with
  | case1 => simp [NoneAdjacent, ThreeInRow]
  | case2 b =>
      have hb := (hok b List.mem_cons_self).lt
      have hne : b.fin ≠ b.addr := by omega
      simp [NoneAdjacent, ThreeInRow, StartsAt, hne]
  | case3 b c l hadj ih =>
      obtain ⟨hb, hok⟩ := List.forall_mem_cons.mp hok
      obtain ⟨hjoined, hok'⟩ := List.forall_mem_cons.mp hok'
      obtain ⟨hc, hl⟩ := List.forall_mem_cons.mp hok
      obtain ⟨hbord, hord⟩ := List.pairwise_cons.mp hord
      obtain ⟨hcord, hlord⟩ := List.pairwise_cons.mp hord
      have hfin : (⟨b.addr, b.size + (headerSize + c.size)⟩ : Block).fin = c.fin := by
        simp only [Block.fin] at *
        omega
      have hnext : (∃ y ∈ c :: l, b.fin = y.addr ∧ StartsAt y.fin (c :: l)) ↔
          StartsAt c.fin l := by
        constructor
        · rintro ⟨y, hy, heq, hstart⟩
          obtain rfl : y = c := by
            rcases List.mem_cons.mp hy with rfl | hy
            · rfl
            · have hle := hcord y hy
              have hlt := hc.lt
              omega
          exact (startsAt_cons.mp hstart).resolve_left hc.lt.ne'
        · exact fun hstart => ⟨c, List.mem_cons_self, hadj, startsAt_cons.mpr (.inr hstart)⟩
      have hrow : (∃ y ∈ l, c.fin = y.addr ∧ StartsAt y.fin l) → StartsAt c.fin l := by
        rintro ⟨y, hy, heq, -⟩
        exact ⟨y, hy, heq⟩
      have hrest : NoneAdjacent (coalesceList l) ↔ ¬ ThreeInRow l := ih hl hlord hok'
      rw [noneAdjacent_cons hjoined hok' (hfin ▸ coalesceList_addr_ge hcord), hfin,
        startsAt_coalesceList hl hlord hcord, hrest,
        threeInRow_cons hb hok hbord, hnext, threeInRow_cons hc hl hcord, ← or_assoc,
        or_iff_left_of_imp hrow, not_or]
  | case4 b c l hapart ih =>
      obtain ⟨hb, hok⟩ := List.forall_mem_cons.mp hok
      obtain ⟨-, hok'⟩ := List.forall_mem_cons.mp hok'
      obtain ⟨hc, hl⟩ := List.forall_mem_cons.mp hok
      obtain ⟨hbord, hord⟩ := List.pairwise_cons.mp hord
      have hclear : ¬ StartsAt b.fin (c :: l) := by
        rw [startsAt_head hc (List.pairwise_cons.mp hord).1 (hbord c List.mem_cons_self)]
        exact hapart
      have hnext : ¬ ∃ y ∈ c :: l, b.fin = y.addr ∧ StartsAt y.fin (c :: l) := by
        rintro ⟨y, hy, heq, -⟩
        exact hclear ⟨y, hy, heq⟩
      have hrest : NoneAdjacent (coalesceList (c :: l)) ↔ ¬ ThreeInRow (c :: l) :=
        ih hok hord hok'
      rw [noneAdjacent_cons hb hok' (coalesceList_addr_ge hbord),
        startsAt_coalesceList hok hord hbord, hrest,
        threeInRow_cons hb hok hbord, or_iff_right hnext, and_iff_right hclear]

theorem ThreeInRow.subset {l' : List Block} (hrow : ThreeInRow l) (hsub : l ⊆ l') :
    ThreeInRow l' := by
  obtain ⟨x, hx, y, hy, hxy, z, hz, hyz⟩ := hrow
  exact ⟨x, hsub hx, y, hsub hy, hxy, z, hsub hz, hyz⟩

theorem coalesceList_size_ge {n : Nat} (hge : ∀ d ∈ l, n ≤ d.size) :
    ∀ d ∈ coalesceList l, n ≤ d.size := by
  fun_induction coalesceList l with
  | case1 => exact hge
  | case2 b => exact hge
  | case3 b c l hadj ih =>
      obtain ⟨hb, hge⟩ := List.forall_mem_cons.mp hge
      obtain ⟨-, hge⟩ := List.forall_mem_cons.mp hge
      rw [List.forall_mem_cons]
      exact ⟨Nat.le_add_right_of_le hb, ih hge⟩
  | case4 b c l hapart ih =>
      obtain ⟨hb, hge⟩ := List.forall_mem_cons.mp hge
      rw [List.forall_mem_cons]
      exact ⟨hb, ih hge⟩

end Lists

variable {h : Heap Pages} {free live : List Block}

theorem HeapShape.noneAdjacent_release {b : Block} {taken : List Nat}
    (hs : HeapShape free (b :: live) taken) :
    NoneAdjacent (coalesceList (insertBlock b free)) ↔ ¬ ThreeInRow (b :: free) := by
  have hperm := insertBlock_perm b free
  rw [noneAdjacent_coalesceList hs.insert.free_ok hs.insert.ordered]
  apply not_congr
  constructor
  · exact fun hrow => hrow.subset hperm.subset
  · exact fun hrow => hrow.subset hperm.symm.subset

/-- The calls that change the free list.  `heap_init` and the growth of the heap in `kmalloc`
are calls of `heap_add_page`. -/
inductive HeapCall where
  | heap (op : HeapOp)
  | addPage
deriving DecidableEq

def heapCallStep (src : PageSource Pages) (s : HeapState Pages) :
    HeapCall → HeapState Pages → Prop
  | .heap op, t => heapStep src s op t
  | .addPage, t => ∃ page h, heapAddPage src s.heap = some (page, h) ∧ t = ⟨h, s.live⟩

theorem heapCallStep_inv (s t : HeapState Pages) (call : HeapCall)
    (hinv : ∃ free, HeapInv src s.heap free s.live) (hstep : heapCallStep src s call t) :
    ∃ free, HeapInv src t.heap free t.live := by
  cases call with
  | heap op => exact heapStep_inv s t op hinv hstep
  | addPage =>
      obtain ⟨page, h, hadd, rfl⟩ := hstep
      obtain ⟨free, hinv⟩ := hinv
      obtain ⟨page', h', free', hadd', hinv'⟩ := hinv.heapAddPage_returns
      obtain ⟨-, rfl⟩ : page = page' ∧ h = h' := by simpa [hadd] using hadd'
      exact ⟨free', hinv'⟩

theorem addPages_run (n : Nat) (hinv : HeapInv src h free live) :
    ∃ h', addPages src n h = some h' ∧
      Run (heapCallStep src) ⟨h, live⟩ (List.replicate n .addPage) ⟨h', live⟩ := by
  induction n generalizing h free with
  | zero => exact ⟨h, rfl, .nil _⟩
  | succ n ih =>
      obtain ⟨page, h₁, free₁, hadd, hinv₁⟩ := hinv.heapAddPage_returns
      obtain ⟨h', hrest, hrun⟩ := ih hinv₁
      refine ⟨h', ?_, ?_⟩
      · rw [addPages_succ hadd, hrest]
      · rw [List.replicate_succ]
        exact .cons ⟨page, h₁, hadd, rfl⟩ hrun

theorem growHeap_run (n : Nat) (hinv : HeapInv src h free live) :
    ∃ grown h' k, growHeap src n h = some (grown, h') ∧
      Run (heapCallStep src) ⟨h, live⟩ (List.replicate k .addPage) ⟨h', live⟩ := by
  induction n generalizing h free with
  | zero => exact ⟨true, h, 0, rfl, .nil _⟩
  | succ n ih =>
      obtain ⟨page, h₁, free₁, hadd, hinv₁⟩ := hinv.heapAddPage_returns
      have hfirst : heapCallStep src ⟨h, live⟩ .addPage ⟨h₁, live⟩ := ⟨page, h₁, hadd, rfl⟩
      by_cases hpage : page = 0
      · exact ⟨false, h₁, 1, by simp [growHeap, hadd, hpage], .cons hfirst (.nil _)⟩
      · obtain ⟨grown, h', k, hrest, hrun⟩ := ih hinv₁
        refine ⟨grown, h', k + 1, ?_, ?_⟩
        · simp [growHeap, hadd, hpage, hrest]
        · rw [List.replicate_succ]
          exact .cons hfirst hrun

/-- Which calls coalesce completely: giving back a live block or a fresh page leaves no two
neighbours exactly if there are no three in a row among it and the free blocks.  The states
considered include those within `heap_init` and `kmalloc`. -/
theorem coalescing_complete_iff (src : PageSource Pages) (hdr : Nat → BlockHeader)
    (pages : Pages) :
    (∃ h, heapInit src (unusedHeap hdr pages) = some h ∧
      Run (heapCallStep src) ⟨unusedHeap hdr pages, []⟩ (List.replicate 16 .addPage) ⟨h, []⟩) ∧
    ∀ calls s, Run (heapCallStep src) ⟨unusedHeap hdr pages, []⟩ calls s →
      (∀ n, ∃ grown h k, growHeap src n s.heap = some (grown, h) ∧
        Run (heapCallStep src) s (List.replicate k .addPage) ⟨h, s.live⟩) ∧
      ∃ free, FreeChain s.heap free ∧
        (∀ b ∈ s.live, ∃ h free', kfree s.heap b.ptr = some h ∧ FreeChain h free' ∧
          (NoneAdjacent free' ↔ ¬ ThreeInRow (b :: free))) ∧
        ∃ h free', heapAddPage src s.heap = some ((src.alloc s.heap.pages).1, h) ∧
          FreeChain h free' ∧
          ((src.alloc s.heap.pages).1 = 0 → free' = free) ∧
          ((src.alloc s.heap.pages).1 ≠ 0 → (NoneAdjacent free' ↔
            ¬ ThreeInRow (⟨(src.alloc s.heap.pages).1, pageSize - headerSize⟩ :: free))) := by
  have hstart := unusedHeap_inv src hdr pages
  refine ⟨addPages_run initialPages hstart, ?_⟩
  intro calls s hrun
  obtain ⟨free, hinv⟩ :=
    hrun.invariant (fun s call t hs hst => heapCallStep_inv s t call hs hst) ⟨[], hstart⟩
  refine ⟨fun n => growHeap_run n hinv, free, hinv.chain, ?_, ?_⟩
  · intro b hb
    obtain ⟨h, hfree, hinv'⟩ := hinv.kfree b hb
    have hshape := hinv.shape.perm_live (List.perm_cons_erase hb)
    exact ⟨h, _, hfree, hinv'.chain, hshape.noneAdjacent_release⟩
  · rcases hinv.heapAddPage with ⟨h, hzero, hadd, hinv'⟩ | ⟨h, hpage, hadd, hinv'⟩
    · exact ⟨h, free, hzero ▸ hadd, hinv'.chain, fun _ => rfl, fun hne => absurd hzero hne⟩
    · exact ⟨h, _, hadd, hinv'.chain, fun hzero => absurd hzero hpage,
        fun _ => (hinv.freshPage hpage).noneAdjacent_release⟩

section Fragmented

theorem HeapInv.addPages_large (n : Nat) (hinv : HeapInv src h free live) (hne : free ≠ [])
    (hlarge : ∀ b ∈ free, pageSize - headerSize ≤ b.size) :
    ∃ h' c rest, Magnos.addPages src n h = some h' ∧ HeapInv src h' (c :: rest) live ∧
      pageSize - headerSize ≤ c.size := by
  induction n generalizing h free with
  | zero =>
      obtain ⟨c, rest, rfl⟩ := List.exists_cons_of_ne_nil hne
      exact ⟨h, c, rest, rfl, hinv, hlarge c List.mem_cons_self⟩
  | succ n ih =>
      rcases hinv.heapAddPage with ⟨h₁, -, hadd, hinv₁⟩ | ⟨h₁, hpage, hadd, hinv₁⟩
      · obtain ⟨h', c, rest, hrest, hinv', hc⟩ := ih hinv₁ hne hlarge
        exact ⟨h', c, rest, (addPages_succ hadd).trans hrest, hinv', hc⟩
      · have hperm := insertBlock_perm ⟨(src.alloc h.pages).1, pageSize - headerSize⟩ free
        have hlarge₁ := coalesceList_size_ge (n := pageSize - headerSize) (l := insertBlock
          ⟨(src.alloc h.pages).1, pageSize - headerSize⟩ free) (by
            intro d hd
            rcases List.mem_cons.mp (hperm.mem_iff.mp hd) with rfl | hd
            · exact Nat.le_refl _
            · exact hlarge d hd)
        have hne₁ : coalesceList (insertBlock
            ⟨(src.alloc h.pages).1, pageSize - headerSize⟩ free) ≠ [] := by
          obtain ⟨d, l, hl⟩ := List.exists_cons_of_ne_nil
            (List.ne_nil_of_mem (hperm.mem_iff.mpr List.mem_cons_self))
          obtain ⟨m, rest, hrest⟩ := coalesceList_cons d l
          rw [hl, hrest]
          exact List.cons_ne_nil _ _
        obtain ⟨h', c, rest, hrest, hinv', hc⟩ := ih hinv₁ hne₁ hlarge₁
        exact ⟨h', c, rest, (addPages_succ hadd).trans hrest, hinv', hc⟩

theorem heapInit_large (hdr : Nat → BlockHeader) (pages : Pages)
    (hpage : (src.alloc pages).1 ≠ 0) :
    ∃ h c rest, heapInit src (unusedHeap hdr pages) = some h ∧ HeapInv src h (c :: rest) [] ∧
      pageSize - headerSize ≤ c.size := by
  rcases (unusedHeap_inv src hdr pages).heapAddPage with ⟨h₁, hzero, -⟩ | ⟨h₁, -, hadd, hinv₁⟩
  · exact absurd hzero hpage
  · have hlarge : ∀ b ∈ coalesceList (insertBlock ⟨(src.alloc (unusedHeap hdr pages).pages).1,
        pageSize - headerSize⟩ []), pageSize - headerSize ≤ b.size := by
      intro b hb
      rw [List.mem_singleton.mp hb]
    obtain ⟨h, c, rest, hrest, hinv, hc⟩ :=
      hinv₁.addPages_large 15 (List.cons_ne_nil _ _) hlarge
    refine ⟨h, c, rest, ?_, hinv, hc⟩
    rw [heapInit, show initialPages = 15 + 1 from rfl, addPages_succ hadd, hrest]

theorem HeapInv.kmalloc_front {a n : Nat} {rest : List Block}
    (hinv : HeapInv src h (⟨a, n + 32⟩ :: rest) live) (hn : 16 ≤ n) :
    ∃ h', heapStep src ⟨h, live⟩ (.kmalloc 16) ⟨h', ⟨a, 16⟩ :: live⟩ ∧
      HeapInv src h' (⟨a + 32, n⟩ :: rest) (⟨a, 16⟩ :: live) := by
  have hsize : allocSize 16 = 16 := by decide
  have hsplit : n + 32 ≥ 16 + headerSize + minAlloc := by
    simp only [headerSize, minAlloc]
    omega
  rcases hinv.search 16 (by decide) (by decide) with
    ⟨-, hnone⟩ | ⟨p, h', hfound, before, c, after, hfree, hbefore, -, rfl, -, hinv'⟩
  · have hlt := hnone _ List.mem_cons_self
    simp only at hlt
    omega
  · obtain rfl : before = [] := by
      cases before with
      | nil => rfl
      | cons d before =>
          obtain ⟨rfl, -⟩ := List.cons_eq_cons.mp hfree
          have hlt := hbefore _ List.mem_cons_self
          simp only at hlt
          omega
    obtain ⟨rfl, rfl⟩ := List.cons_eq_cons.mp hfree
    have htaken : takenBlock ⟨a, n + 32⟩ 16 = ⟨a, 16⟩ := if_pos hsplit
    have hleft : leftover ⟨a, n + 32⟩ 16 = [⟨a + 32, n⟩] := by
      rw [leftover, if_pos hsplit]
      simp [headerSize]
    rw [htaken, hleft] at hinv'
    refine ⟨h', ⟨a + headerSize, h', ?_, ?_⟩, hinv'⟩
    · simp [Magnos.kmalloc, hsize, hfound]
    · rw [if_neg (by simp [headerSize]), hinv'.returnedBlock_eq (b := ⟨a, 16⟩) List.mem_cons_self]

theorem HeapInv.kfree_step {b : Block} (hinv : HeapInv src h free live) (hb : b ∈ live) :
    ∃ h', heapStep src ⟨h, live⟩ (.kfree b.ptr) ⟨h', live.erase b⟩ ∧
      HeapInv src h' (coalesceList (insertBlock b free)) (live.erase b) := by
  obtain ⟨h', hrun, hinv'⟩ := hinv.kfree b hb
  exact ⟨h', ⟨b, hb, rfl, h', hrun, rfl⟩, hinv'⟩

theorem release_front {b c : Block} {l : List Block} (hlt : b.fin < c.addr) :
    ∃ n rest, coalesceList (insertBlock b (c :: l)) = b :: ⟨c.addr, n⟩ :: rest := by
  obtain ⟨n, rest, hrest⟩ := coalesceList_cons c l
  refine ⟨n, rest, ?_⟩
  rw [insertBlock_of_le b c l, coalesceList, if_neg hlt.ne, hrest]
  simp only [Block.fin] at hlt
  omega

theorem release_second {b c d : Block} {l : List Block} (hlt : b.fin < c.addr)
    (hle : c.addr ≤ d.addr) :
    ∃ n rest, coalesceList (insertBlock c (b :: d :: l)) = b :: ⟨c.addr, n⟩ :: rest := by
  obtain ⟨n, rest, hrest⟩ := coalesceList_cons c (d :: l)
  refine ⟨n, rest, ?_⟩
  rw [insertBlock_of_gt c b, insertBlock_of_le c d l hle, coalesceList, if_neg hlt.ne, hrest]
  simp only [Block.fin] at hlt
  omega

theorem kfree_between {a n : Nat} {rest : List Block}
    (hinv : HeapInv src h (⟨a, n + 32 + 32 + 32⟩ :: rest) []) (hn : 16 ≤ n) :
    ∃ s t left, Run (heapStep src) ⟨h, []⟩
        [.kmalloc 16, .kmalloc 16, .kmalloc 16, .kfree (a + 16), .kfree (a + 64 + 16)] s ∧
      heapStep src s (.kfree (a + 32 + 16)) t ∧ FreeChain t.heap left ∧ ¬ NoneAdjacent left := by
  obtain ⟨h₁, hstep₁, hinv₁⟩ := hinv.kmalloc_front (by omega)
  obtain ⟨h₂, hstep₂, hinv₂⟩ := hinv₁.kmalloc_front (by omega)
  obtain ⟨h₃, hstep₃, hinv₃⟩ := hinv₂.kmalloc_front hn
  obtain ⟨h₄, hstep₄, hinv₄⟩ := hinv₃.kfree_step (b := ⟨a, 16⟩) (by simp)
  have hlive₄ : ([⟨a + 32 + 32, 16⟩, ⟨a + 32, 16⟩, ⟨a, 16⟩] : List Block).erase ⟨a, 16⟩ =
      [⟨a + 32 + 32, 16⟩, ⟨a + 32, 16⟩] := by
    simp [List.erase_cons]
    omega
  obtain ⟨n₄, rest₄, hfree₄⟩ := release_front (b := ⟨a, 16⟩) (c := ⟨a + 32 + 32 + 32, n⟩)
    (l := rest) (by simp only [Block.fin, headerSize]; omega)
  rw [hlive₄] at hstep₄ hinv₄
  rw [hfree₄] at hinv₄
  obtain ⟨h₅, hstep₅, hinv₅⟩ := hinv₄.kfree_step (b := ⟨a + 32 + 32, 16⟩) (by simp)
  obtain ⟨n₅, rest₅, hfree₅⟩ := release_second (b := ⟨a, 16⟩) (c := ⟨a + 32 + 32, 16⟩)
    (d := ⟨a + 32 + 32 + 32, n₄⟩) (l := rest₄) (by simp only [Block.fin, headerSize]; omega)
    (by simp only; omega)
  have hlive₅ : ([⟨a + 32 + 32, 16⟩, ⟨a + 32, 16⟩] : List Block).erase ⟨a + 32 + 32, 16⟩ =
      [⟨a + 32, 16⟩] := List.erase_cons_head ..
  rw [hlive₅] at hstep₅ hinv₅
  rw [hfree₅] at hinv₅
  obtain ⟨h₆, hstep₆, hinv₆⟩ := hinv₅.kfree_step (b := ⟨a + 32, 16⟩) List.mem_cons_self
  have hrow : ThreeInRow (⟨a + 32, 16⟩ :: ⟨a, 16⟩ :: ⟨a + 32 + 32, n₅⟩ :: rest₅) :=
    ⟨⟨a, 16⟩, by simp, ⟨a + 32, 16⟩, by simp, by simp [Block.fin, headerSize],
      ⟨a + 32 + 32, n₅⟩, by simp, by simp [Block.fin, headerSize]⟩
  refine ⟨⟨h₅, [⟨a + 32, 16⟩]⟩, _, _, ?_, hstep₆, hinv₆.chain, ?_⟩
  · exact .cons hstep₁ (.cons hstep₂ (.cons hstep₃ (.cons hstep₄ (.cons hstep₅ (.nil _)))))
  · rw [hinv₅.shape.noneAdjacent_release]
    exact not_not_intro hrow

end Fragmented

/-- After `heap_init`, three `kmalloc(16)` and the `kfree` of the first and the third block, the
`kfree` of the second leaves two neighbours on the free list. -/
theorem kfree_leaves_neighbours :
    ∃ h a s t left,
      heapInit pmmSource (unusedHeap (fun _ => ⟨0, 0, 0⟩) (pmmInit 0x100000)) = some h ∧
      Run (heapStep pmmSource) ⟨h, []⟩
        [.kmalloc 16, .kmalloc 16, .kmalloc 16, .kfree (a + 16), .kfree (a + 64 + 16)] s ∧
      heapStep pmmSource s (.kfree (a + 32 + 16)) t ∧
      FreeChain t.heap left ∧ ¬ NoneAdjacent left := by
  have hpage := pmmAlloc_init_ne_zero 0x100000 (by decide) (by decide)
  obtain ⟨h, ⟨a, size⟩, rest, hinit, hinv, hsize⟩ := heapInit_large (fun _ => ⟨0, 0, 0⟩) _ hpage
  obtain ⟨n, rfl⟩ : ∃ n, size = n + 32 + 32 + 32 := ⟨size - 96, by
    simp only [pageSize, headerSize] at hsize
    omega⟩
  obtain ⟨s, t, left, hrun⟩ := kfree_between hinv (by
    simp only [pageSize, headerSize] at hsize
    omega)
  exact ⟨h, a, s, t, left, hinit, hrun⟩

end Magnos
