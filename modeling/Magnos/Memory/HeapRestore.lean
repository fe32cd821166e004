import Magnos.Memory.HeapCoalesce
import Magnos.Memory.HeapGrowth

/-!
# An allocation and its release

`kfree` right after `kmalloc` puts the block back where it was taken from.  If the block was split,
the pass joins the two halves and moves on behind them; blocks that did not touch before are not
joined.
-/

namespace Magnos

open Framework

section Lists

variable {before after l : List Block} {b c : Block} {size : Nat}

theorem NoneAdjacent.subset {l' : List Block} (hnone : NoneAdjacent l) (hsub : l' ⊆ l) :
    NoneAdjacent l' := by
  intro b hb hstart
  obtain ⟨d, hd, heq⟩ := hstart
  exact hnone b (hsub hb) ⟨d, hsub hd, heq⟩

theorem coalesceList_append (rest : List Block)
    (hclear : ∀ b ∈ before, ¬ StartsAt b.fin (before ++ rest)) :
    coalesceList (before ++ rest) = before ++ coalesceList rest := by
  induction before with
  | nil => rfl
  | cons b before ih =>
      obtain ⟨hb, hbefore⟩ := List.forall_mem_cons.mp hclear
      have hrest : coalesceList (before ++ rest) = before ++ coalesceList rest := by
        apply ih
        intro d hd hstart
        exact hbefore d hd (startsAt_cons.mpr (.inr hstart))
      rw [List.cons_append, List.cons_append, ← hrest]
      cases hl : before ++ rest with
      | nil => rfl
      | cons d l =>
          rw [coalesceList, if_neg]
          intro hadj
          exact hb ⟨d, by simp [hl], hadj⟩

theorem coalesceList_of_noneAdjacent (hnone : NoneAdjacent l) : coalesceList l = l := by
  have hclear : ∀ b ∈ l, ¬ StartsAt b.fin (l ++ []) := by
    rw [List.append_nil]
    exact hnone
  simpa [coalesceList] using coalesceList_append [] hclear

theorem StartsAt.of_ne {a : Nat} (hstart : StartsAt a (before ++ b :: c :: after))
    (hne : a ≠ c.addr) : StartsAt a (before ++ b :: after) := by
  obtain ⟨d, hd, rfl⟩ := hstart
  refine ⟨d, ?_, rfl⟩
  simp only [List.mem_append, List.mem_cons] at hd ⊢
  grind

theorem coalesceList_restores (hok : ∀ d ∈ before ++ c :: after, d.Ok)
    (hord : (before ++ c :: after).Pairwise fun b c => b.fin ≤ c.addr)
    (hnone : NoneAdjacent (before ++ c :: after)) :
    coalesceList (insertBlock (takenBlock c size) (before ++ (leftover c size ++ after))) =
      before ++ c :: after := by
  obtain ⟨-, hcord, hbefore⟩ := List.pairwise_append.mp hord
  obtain ⟨hafter, -⟩ := List.pairwise_cons.mp hcord
  have hc : c.addr < c.fin := (hok c (by simp)).lt
  have hfront : ∀ d ∈ before, d.fin ≤ c.addr := fun d hd => hbefore d hd c List.mem_cons_self
  have hinsert : insertBlock (takenBlock c size) (before ++ (leftover c size ++ after)) =
      before ++ takenBlock c size :: (leftover c size ++ after) := by
    apply insertBlock_append
    · intro d hd
      rw [takenBlock_addr]
      exact Nat.lt_of_lt_of_le (hok d (by simp [hd])).lt (hfront d hd)
    · intro e he
      rw [takenBlock_addr]
      rcases List.mem_append.mp he with hleft | he
      · unfold leftover at hleft
        split at hleft
        · rw [List.mem_singleton.mp hleft, Nat.add_assoc]
          exact Nat.le_add_right _ _
        · cases hleft
      · exact hc.le.trans (hafter e he)
  rw [hinsert, takenBlock, leftover]
  split
  · next hsplit =>
      have hrest : coalesceList after = after :=
        coalesceList_of_noneAdjacent (hnone.subset (by simp))
      have hjoined : coalesceList (⟨c.addr, size⟩ ::
          ⟨c.addr + headerSize + size, c.size - size - headerSize⟩ :: after) = c :: after := by
        have hadj : (⟨c.addr, size⟩ : Block).fin = c.addr + headerSize + size := rfl
        have hsize : size + (headerSize + (c.size - size - headerSize)) = c.size := by
          simp only [headerSize, minAlloc] at *
          omega
        rw [coalesceList, if_pos hadj, hrest, hsize]
      rw [List.singleton_append, coalesceList_append, hjoined]
      intro d hd hstart
      have hle := hfront d hd
      have horig : StartsAt d.fin (before ++ ⟨c.addr, size⟩ :: after) :=
        hstart.of_ne (by simp only [headerSize]; omega)
      obtain ⟨e, he, heq⟩ := horig
      apply hnone d (by simp [hd])
      rcases List.mem_append.mp he with he | he
      · exact ⟨e, by simp [he], heq⟩
      · rcases List.mem_cons.mp he with rfl | he
        · exact ⟨c, by simp, heq⟩
        · exact ⟨e, by simp [he], heq⟩
  · exact coalesceList_of_noneAdjacent hnone

end Lists

theorem takenBlock_total (c : Block) (size : Nat) :
    headerSize + (takenBlock c size).size +
      ((leftover c size).map fun b => headerSize + b.size).sum = headerSize + c.size := by
  unfold takenBlock leftover
  split
  · next hsplit =>
      simp only [List.map_cons, List.map_nil, List.sum_cons, List.sum_nil, headerSize, minAlloc] at *
      omega
  · simp

section Requests

variable {Pages : Type} {src : PageSource Pages} {h h' : Heap Pages} {free live : List Block}
  {size p : Nat}

theorem ServedFrom.heapPages (hinv : HeapInv src h free live)
    (hserved : ServedFrom src h free live size p h') : h'.heapPages = h.heapPages := by
  obtain ⟨before, c, after, rfl, -, -, -, -, hinv'⟩ := hserved
  have htotal := hinv.shape.total
  have htotal' := hinv'.shape.total
  have hblock := takenBlock_total c size
  simp only [List.map_append, List.sum_append, List.map_cons, List.sum_cons] at htotal htotal'
  rw [hinv.count, hinv'.count]
  simp only [pageSize] at *
  omega

theorem ServedFrom.kfree_restores (hinv : HeapInv src h free live) (hnone : NoneAdjacent free)
    (hserved : ServedFrom src h free live size p h') :
    ∃ h₂, kfree h' p = some h₂ ∧ HeapInv src h₂ free live := by
  obtain ⟨before, c, after, rfl, -, -, rfl, -, hinv'⟩ := hserved
  obtain ⟨h₂, hfree, hinv₂⟩ := hinv'.kfree (takenBlock c size) List.mem_cons_self
  rw [takenBlock_addr] at hfree
  rw [coalesceList_restores hinv.shape.free_ok hinv.shape.ordered hnone,
    List.erase_cons_head] at hinv₂
  exact ⟨h₂, hfree, hinv₂⟩

end Requests

/-- `kmalloc` returns a block and takes no page for it. -/
def ServedWithoutGrowing (h : Heap PagePool) (size p : Nat) (h' : Heap PagePool) : Prop :=
  kmalloc pmmPool h size = some (p, h') ∧ p ≠ 0 ∧ h'.heapPages = h.heapPages

section Memory

variable {h h' : Heap PagePool} {free live : List Block} {size p : Nat}

/-- A request is served without growing exactly from a block that is large enough. -/
theorem HeapInv.servedWithoutGrowing (hinv : HeapInv pmmPool h free live)
    (hserved : ServedWithoutGrowing h size p h') :
    size ≠ 0 ∧ ServedFrom pmmPool h free live (allocSize size) p h' := by
  obtain ⟨hrun, hne, hsame⟩ := hserved
  have hsize : size ≠ 0 := by
    rintro rfl
    obtain ⟨rfl, -⟩ : 0 = p ∧ h = h' := by simpa [Magnos.kmalloc] using hrun
    exact hne rfl
  obtain ⟨h₁, hgrow, hinv₁, -⟩ := hinv.growHeap_pool (pagesNeeded (allocSize size))
  have hcount := hinv.heapPages_grown hinv₁
  obtain ⟨p', h'', hrun', hcases⟩ := hinv.kmalloc_cases hsize hgrow hinv₁
  obtain ⟨rfl, rfl⟩ : p = p' ∧ h' = h'' := by simpa [hrun] using hrun'
  rcases hcases with hserved | ⟨hsmall, ⟨-, hserved⟩ | ⟨-, rfl, -⟩⟩
  · exact ⟨hsize, hserved⟩
  · have hpages := hserved.heapPages hinv₁
    have hnil : lowest (freePages h.pages.1) (pagesNeeded (allocSize size)) = [] := by
      rw [← List.length_eq_zero_iff]
      omega
    obtain ⟨b, hb, hfits⟩ := hserved.fits
    rw [hnil] at hb
    exact absurd hfits (Nat.not_le_of_lt (hsmall b hb))
  · exact absurd rfl hne

theorem HeapInv.serves (hinv : HeapInv pmmPool h free live) (hsize : size ≠ 0)
    (hfits : ∃ b ∈ free, allocSize size ≤ b.size) :
    ∃ p h', ServedWithoutGrowing h size p h' := by
  obtain ⟨h₁, hgrow, hinv₁, -⟩ := hinv.growHeap_pool (pagesNeeded (allocSize size))
  obtain ⟨p, h', hrun, hserved | ⟨hsmall, -⟩⟩ := hinv.kmalloc_cases hsize hgrow hinv₁
  · exact ⟨p, h', hrun, hserved.ne_zero, hserved.heapPages hinv⟩
  · obtain ⟨b, hb, hle⟩ := hfits
    exact absurd hle (Nat.not_le_of_lt (hsmall b hb))

end Memory

theorem freeChain_unique {Pages : Type} {h : Heap Pages} {free free' : List Block}
    (hchain : FreeChain h free) (hchain' : FreeChain h free') : free = free' := by
  apply NodeLayout.Linked.unique (L := freeLayout) _ hchain hchain'
  rintro ⟨a, n⟩ ⟨b, m⟩ c (rfl : a = b) ⟨(rfl : c.size = n), -⟩ ⟨(rfl : c.size = m), -⟩
  rfl

/-- From every state without neighbours in the free list, a request that a free block serves and
its release restore the free list, whichever block is taken and whether or not it is split. -/
theorem kmalloc_kfree_restores (hdr : Nat → BlockHeader) (pages : PagePool) :
    ∃ h, heapInit pmmPool (unusedHeap hdr pages) = some h ∧
      ∀ ops s, Run memoryStep ⟨h, []⟩ ops s → ∀ free, FreeChain s.heap free → NoneAdjacent free →
        ∀ size : UInt32,
          ((∃ p h₁, ServedWithoutGrowing s.heap size.toNat p h₁) ↔
            size.toNat ≠ 0 ∧ ∃ b ∈ free, allocSize size.toNat ≤ b.size) ∧
          ∀ p h₁, ServedWithoutGrowing s.heap size.toNat p h₁ →
            ∃ h₂, kfree h₁ p = some h₂ ∧ FreeChain h₂ free := by
  obtain ⟨h, hinit, hruns⟩ := memoryRun_inv hdr pages
  refine ⟨h, hinit, ?_⟩
  intro ops s hrun free hchain hnone size
  obtain ⟨free', hinv⟩ := hruns ops s hrun
  obtain rfl := freeChain_unique hchain hinv.chain
  constructor
  · constructor
    · rintro ⟨p, h₁, hserved⟩
      obtain ⟨hsize, hfrom⟩ := hinv.servedWithoutGrowing hserved
      exact ⟨hsize, hfrom.fits⟩
    · rintro ⟨hsize, hfits⟩
      exact hinv.serves hsize hfits
  · intro p h₁ hserved
    obtain ⟨h₂, hfree, hinv₂⟩ := (hinv.servedWithoutGrowing hserved).2.kfree_restores hinv hnone
    exact ⟨h₂, hfree, hinv₂.chain⟩

/-- The first request after `heap_init`, which splits the only block. -/
theorem kmalloc_kfree_restores_boot :
    ∃ (pages : PagePool) (h h₁ h₂ : Heap PagePool) (p : Nat), pages.1 = pmmInit 0x20000 ∧
      heapInit pmmPool (unusedHeap (fun _ => ⟨0, 0, 0⟩) pages) = some h ∧
      FreeChain h [⟨0x20000, 65520⟩] ∧ kmalloc pmmPool h 100 = some (p, h₁) ∧ p ≠ 0 ∧
      kfree h₁ p = some h₂ ∧ FreeChain h₂ [⟨0x20000, 65520⟩] := by
  obtain ⟨pages, hboot, hmem⟩ := exists_initialPool
  obtain ⟨h, hinit, hinv, -⟩ := heapInit_boot (fun _ => ⟨0, 0, 0⟩) pages hmem
  have hchain : FreeChain h [⟨0x20000, 65520⟩] := hinv.chain
  have hnone : NoneAdjacent [⟨0x20000, 65520⟩] := by
    simp [NoneAdjacent, StartsAt, Block.fin, headerSize]
  obtain ⟨h', hinit', hruns⟩ := kmalloc_kfree_restores (fun _ => ⟨0, 0, 0⟩) pages
  obtain rfl : h = h' := Option.some.inj (hinit.symm.trans hinit')
  obtain ⟨hserves, hrestores⟩ := hruns [] _ (.nil _) _ hchain hnone 100
  obtain ⟨p, h₁, hserved⟩ := hserves.mpr ⟨by decide, _, List.mem_singleton_self _, by decide⟩
  obtain ⟨h₂, hfree, hchain₂⟩ := hrestores p h₁ hserved
  exact ⟨pages, h, h₁, h₂, p, hboot, hinit, hchain, hserved.1, hserved.2.1, hfree, hchain₂⟩

end Magnos
