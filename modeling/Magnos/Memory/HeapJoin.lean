import Magnos.Memory.HeapCoalesce

/-!
# Pages that join to blocks

`heap_add_page` inserts a page as a block of its own and coalesces once.  Pages given to the heap
one after another end up in one block if they are consecutive, unless two neighbouring free
blocks lie directly before them: these are joined first, and the last page is left over.
-/

namespace Magnos

open Framework

/-- The block that a page is when `heap_add_page` has formatted it. -/
def pageBlock (p : Nat) : Block := ⟨p * pageSize, pageSize - headerSize⟩

/-- The free list after `heap_add_page` for each of the pages. -/
def grownList (free : List Block) (pages : List Nat) : List Block :=
  pages.foldl (fun l p => coalesceList (insertBlock (pageBlock p) l)) free

theorem grownList_cons (free : List Block) (p : Nat) (pages : List Nat) :
    grownList free (p :: pages) =
      grownList (coalesceList (insertBlock (pageBlock p) free)) pages := rfl

theorem grownList_total (free : List Block) (pages : List Nat) :
    ((grownList free pages).map fun b => headerSize + b.size).sum =
      (free.map fun b => headerSize + b.size).sum + pageSize * pages.length := by
  induction pages generalizing free with
  | nil => rfl
  | cons p pages ih =>
      have hinsert := ((insertBlock_perm (pageBlock p) free).map fun b => headerSize + b.size).sum_eq
      rw [grownList_cons, ih, coalesceList_total, hinsert, List.map_cons,
        List.sum_cons, List.length_cons]
      simp only [pageBlock, pageSize, headerSize]
      omega

section Joining

variable {b c : Block} {l : List Block}

theorem coalesceList_fin (l : List Block) : ∀ d ∈ coalesceList l, ∃ e ∈ l, d.fin = e.fin := by
  fun_induction coalesceList l with
  | case1 => simp
  | case2 b => exact fun d hd => ⟨d, hd, rfl⟩
  | case3 b c l hadj ih =>
      intro d hd
      rcases List.mem_cons.mp hd with rfl | hd
      · refine ⟨c, by simp, ?_⟩
        simp only [Block.fin] at *
        omega
      · obtain ⟨e, he, heq⟩ := ih d hd
        exact ⟨e, by simp [he], heq⟩
  | case4 b c l hapart ih =>
      intro d hd
      rcases List.mem_cons.mp hd with rfl | hd
      · exact ⟨d, by simp, rfl⟩
      · obtain ⟨e, he, heq⟩ := ih d hd
        exact ⟨e, List.mem_cons_of_mem b he, heq⟩

theorem coalesceList_fin_ne {a : Nat} (hne : ∀ d ∈ l, d.fin ≠ a) :
    ∀ d ∈ coalesceList l, d.fin ≠ a := by
  intro d hd
  obtain ⟨e, he, heq⟩ := coalesceList_fin l d hd
  rw [heq]
  exact hne e he

theorem coalesceList_covers (l : List Block) :
    ∀ d ∈ l, ∃ e ∈ coalesceList l, d.size ≤ e.size := by
  fun_induction coalesceList l with
  | case1 => simp
  | case2 b => exact fun d hd => ⟨d, hd, Nat.le_refl _⟩
  | case3 b c l hadj ih =>
      intro d hd
      rcases List.mem_cons.mp hd with rfl | hd
      · exact ⟨_, List.mem_cons_self, Nat.le_add_right _ _⟩
      rcases List.mem_cons.mp hd with rfl | hd
      · refine ⟨_, List.mem_cons_self, ?_⟩
        simp only
        omega
      · obtain ⟨e, he, hle⟩ := ih d hd
        exact ⟨e, List.mem_cons_of_mem _ he, hle⟩
  | case4 b c l hapart ih =>
      intro d hd
      rcases List.mem_cons.mp hd with rfl | hd
      · exact ⟨d, List.mem_cons_self, Nat.le_refl _⟩
      · obtain ⟨e, he, hle⟩ := ih d hd
        exact ⟨e, List.mem_cons_of_mem b he, hle⟩

theorem Block.Ok.fin_ne (hb : b.Ok) (hc : c.Ok) (hle : c = b ∨ c.fin ≤ b.addr) : b.fin ≠ c.addr := by
  have hblt := hb.lt
  have hclt := hc.lt
  rcases hle with rfl | hle <;> omega

theorem coalesceList_joins (hok : ∀ d ∈ l, d.Ok) (hord : l.Pairwise fun b c => b.fin ≤ c.addr)
    (hb : b ∈ l) (hfirst : ∀ d ∈ l, d.fin ≠ b.addr) :
    (∀ c ∈ l, b.fin = c.addr → ⟨b.addr, b.size + (headerSize + c.size)⟩ ∈ coalesceList l) ∧
      (¬ StartsAt b.fin l → b ∈ coalesceList l) := by
  fun_induction coalesceList l with
  | case1 => cases hb
  | case2 d =>
      obtain rfl := List.mem_singleton.mp hb
      have hd := hok b hb
      refine ⟨?_, fun _ => hb⟩
      intro c hc heq
      obtain rfl := List.mem_singleton.mp hc
      exact absurd heq (hd.fin_ne hd (.inl rfl))
  | case3 d e l hadj ih =>
      obtain ⟨hd, hok⟩ := List.forall_mem_cons.mp hok
      obtain ⟨he, hl⟩ := List.forall_mem_cons.mp hok
      obtain ⟨hdord, hord⟩ := List.pairwise_cons.mp hord
      obtain ⟨heord, hlord⟩ := List.pairwise_cons.mp hord
      obtain ⟨hdfirst, hfirst⟩ := List.forall_mem_cons.mp hfirst
      obtain ⟨-, hlfirst⟩ := List.forall_mem_cons.mp hfirst
      rcases List.mem_cons.mp hb with rfl | hb
      · have hnext := startsAt_head he heord (Nat.le_of_eq hadj)
        refine ⟨?_, ?_⟩
        · intro c hc heq
          rcases List.mem_cons.mp hc with rfl | hc
          · exact absurd heq (hd.fin_ne hd (.inl rfl))
          rcases List.mem_cons.mp hc with rfl | hc
          · exact List.mem_cons_self
          · have hge := heord c hc
            have hlt := he.lt
            omega
        · intro hnone
          exact absurd (startsAt_cons.mpr (.inr (hnext.mpr hadj))) hnone
      rcases List.mem_cons.mp hb with rfl | hb
      · exact absurd hadj hdfirst
      · obtain ⟨hjoin, hstay⟩ := ih hl hlord hb hlfirst
        have hbd := (hl b hb).fin_ne hd (.inr (hdord b (List.mem_cons_of_mem e hb)))
        have hbe := (hl b hb).fin_ne he (.inr (heord b hb))
        refine ⟨?_, ?_⟩
        · intro c hc heq
          rcases List.mem_cons.mp hc with rfl | hc
          · exact absurd heq hbd
          rcases List.mem_cons.mp hc with rfl | hc
          · exact absurd heq hbe
          · exact List.mem_cons_of_mem _ (hjoin c hc heq)
        · intro hnone
          apply List.mem_cons_of_mem _ (hstay _)
          exact fun hstart => hnone (startsAt_cons.mpr (.inr (startsAt_cons.mpr (.inr hstart))))
  | case4 d e l hapart ih =>
      obtain ⟨hd, hok⟩ := List.forall_mem_cons.mp hok
      obtain ⟨he, -⟩ := List.forall_mem_cons.mp hok
      obtain ⟨hdord, htail⟩ := List.pairwise_cons.mp hord
      obtain ⟨-, hfirst⟩ := List.forall_mem_cons.mp hfirst
      rcases List.mem_cons.mp hb with rfl | hb
      · have hnext := startsAt_head he (List.pairwise_cons.mp htail).1 (hdord e List.mem_cons_self)
        refine ⟨?_, fun _ => List.mem_cons_self⟩
        intro c hc heq
        rcases List.mem_cons.mp hc with rfl | hc
        · exact absurd heq (hd.fin_ne hd (.inl rfl))
        · exact absurd (hnext.mp ⟨c, hc, heq⟩) hapart
      · obtain ⟨hjoin, hstay⟩ := ih hok htail hb hfirst
        have hbd := (hok b hb).fin_ne hd (.inr (hdord b hb))
        refine ⟨?_, ?_⟩
        · intro c hc heq
          rcases List.mem_cons.mp hc with rfl | hc
          · exact absurd heq hbd
          · exact List.mem_cons_of_mem _ (hjoin c hc heq)
        · intro hnone
          apply List.mem_cons_of_mem _ (hstay _)
          exact fun hstart => hnone (startsAt_cons.mpr (.inr hstart))

variable {free live : List Block} {taken : List Nat}

theorem HeapShape.page_mem (hs : HeapShape free live taken) (hb : b ∈ free)
    (haligned : b.addr % pageSize = 0) : b.addr ∈ taken := by
  have hheld : 0 < coverCount ((free ++ live).map Block.span) b.addr :=
    coverCount_pos.mpr ⟨b.span, List.mem_map_of_mem (List.mem_append_left _ hb), Nat.le_refl _,
      (hs.free_ok b hb).lt⟩
  rw [hs.cover, coverCount_pos] at hheld
  obtain ⟨span, hmem, hholds⟩ := hheld
  obtain ⟨p, hp, rfl⟩ := List.mem_map.mp hmem
  have hpage := hs.taken_aligned p hp
  obtain rfl : b.addr = p := by
    simp only [Span.Holds, pageSpan, pageSize] at *
    omega
  exact hp

theorem HeapShape.insertPage (hs : HeapShape free live taken) {p : Nat}
    (hnew : p * pageSize ∉ taken) (hpos : 0 < p) (hlt : p * pageSize < 2 ^ 32) :
    HeapShape (insertBlock (pageBlock p) free) live (p * pageSize :: taken) :=
  (hs.addPage (p * pageSize) hnew (Nat.mul_mod_left p pageSize) (Nat.mul_pos hpos (by decide))
    hlt).insert

theorem mem_insertPage {p : Nat} : b ∈ insertBlock (pageBlock p) free ↔ b = pageBlock p ∨ b ∈ free :=
  (insertBlock_perm (pageBlock p) free).mem_iff.trans List.mem_cons

theorem pageBlock_fin (p : Nat) : (pageBlock p).fin = (p + 1) * pageSize := by
  simp only [pageBlock, Block.fin, headerSize, pageSize]
  omega

theorem notMem_taken_succ {m n : Nat} (hnew : ∀ i < n + 1, (m + i) * pageSize ∉ taken) :
    ∀ i < n, (m + 1 + i) * pageSize ∉ m * pageSize :: taken := by
  intro i hi
  have hnext := hnew (i + 1) (by omega)
  rw [Nat.add_assoc, Nat.add_comm 1 i, List.mem_cons, not_or]
  refine ⟨?_, hnext⟩
  simp only [pageSize]
  omega

theorem HeapShape.grown_joined {m n : Nat} (hs : HeapShape free live taken) (hb : b ∈ free)
    (hfin : b.fin = m * pageSize) (hfirst : ∀ d ∈ free, d.fin ≠ b.addr)
    (hnew : ∀ i < n, (m + i) * pageSize ∉ taken) (hpos : 0 < m)
    (hlt : (m + n) * pageSize ≤ 2 ^ 32) :
    ∃ c ∈ grownList free (List.range' m n), c.addr = b.addr ∧ c.fin = (m + n) * pageSize := by
  induction n generalizing free taken b m with
  | zero => exact ⟨b, hb, rfl, hfin⟩
  | succ n ih =>
      have hblt := (hs.free_ok b hb).lt
      have hshape := hs.insertPage (hnew 0 (Nat.succ_pos n)) hpos (by
        simp only [pageSize] at *
        omega)
      have hfirst₁ : ∀ d ∈ insertBlock (pageBlock m) free, d.fin ≠ b.addr := by
        intro d hd
        rcases mem_insertPage.mp hd with rfl | hd
        · rw [pageBlock_fin]
          simp only [pageSize] at *
          omega
        · exact hfirst d hd
      have hjoin := (coalesceList_joins hshape.free_ok hshape.ordered
        (mem_insertPage.mpr (.inr hb)) hfirst₁).1 (pageBlock m) (mem_insertPage.mpr (.inl rfl)) hfin
      have hfin₁ : (⟨b.addr, b.size + (headerSize + (pageBlock m).size)⟩ : Block).fin =
          (m + 1) * pageSize := by
        simp only [Block.fin, pageBlock, headerSize, pageSize] at *
        omega
      obtain ⟨c, hc, haddr, hcfin⟩ := ih hshape.coalesce hjoin hfin₁
        (coalesceList_fin_ne hfirst₁) (notMem_taken_succ hnew) (Nat.succ_pos m)
        (by rwa [Nat.add_assoc, Nat.add_comm 1])
      refine ⟨c, ?_, haddr, ?_⟩
      · rw [List.range'_succ, grownList_cons]
        exact hc
      · rw [hcfin, Nat.add_assoc, Nat.add_comm 1]

/-- A page given to the heap stays a block of its own if no free block ends where it starts and
the page behind it is not the heap's. -/
theorem HeapShape.page_stays {p : Nat} (hs : HeapShape free live taken)
    (hshape : HeapShape (insertBlock (pageBlock p) free) live (p * pageSize :: taken))
    (hfirst : ∀ d ∈ insertBlock (pageBlock p) free, d.fin ≠ (pageBlock p).addr)
    (hnext : (p + 1) * pageSize ∉ taken) :
    pageBlock p ∈ coalesceList (insertBlock (pageBlock p) free) := by
  apply (coalesceList_joins hshape.free_ok hshape.ordered (mem_insertPage.mpr (.inl rfl)) hfirst).2
  rintro ⟨d, hd, heq⟩
  rw [pageBlock_fin] at heq
  rcases mem_insertPage.mp hd with rfl | hd
  · simp only [pageBlock, pageSize] at heq
    omega
  · have hpage := hs.page_mem hd (by rw [← heq, Nat.mul_mod_left])
    rw [← heq] at hpage
    exact hnext hpage

/-- Consecutive pages end up in one block, unless two neighbouring free blocks lie directly
before the first of them. -/
theorem HeapShape.grown_consecutive {p n : Nat} (hs : HeapShape free live taken) (hn : 0 < n)
    (hnew : ∀ i < n, (p + i) * pageSize ∉ taken) (hpos : 0 < p)
    (hlt : (p + n) * pageSize ≤ 2 ^ 32)
    (halone : ∀ x ∈ free, ∀ y ∈ free, x.fin = y.addr → y.fin ≠ p * pageSize) :
    ∃ c ∈ grownList free (List.range' p n), n * pageSize ≤ headerSize + c.size := by
  by_cases hleft : ∃ y ∈ free, y.fin = p * pageSize
  · obtain ⟨y, hy, hfin⟩ := hleft
    obtain ⟨c, hc, haddr, hcfin⟩ := hs.grown_joined hy hfin
      (fun x hx heq => halone x hx y hy heq hfin) hnew hpos hlt
    have hylt := (hs.free_ok y hy).lt
    refine ⟨c, hc, ?_⟩
    have hsum : c.addr + headerSize + c.size = p * pageSize + n * pageSize := by
      rw [← Nat.add_mul]
      exact hcfin
    omega
  · obtain ⟨n, rfl⟩ : ∃ k, n = k + 1 := ⟨n - 1, by omega⟩
    have hshape := hs.insertPage (hnew 0 hn) hpos (by
      simp only [pageSize] at *
      omega)
    rw [List.range'_succ, grownList_cons]
    cases n with
    | zero =>
        have hpage : pageBlock p ∈ insertBlock (pageBlock p) free := mem_insertPage.mpr (.inl rfl)
        obtain ⟨c, hc, hle⟩ := coalesceList_covers _ (pageBlock p) hpage
        refine ⟨c, hc, ?_⟩
        have hsize : pageSize - headerSize ≤ c.size := hle
        simp only [pageSize, headerSize] at hsize ⊢
        omega
    | succ n =>
        have hfirst : ∀ d ∈ insertBlock (pageBlock p) free, d.fin ≠ (pageBlock p).addr := by
          intro d hd
          rcases mem_insertPage.mp hd with rfl | hd
          · rw [pageBlock_fin]
            simp only [pageBlock, pageSize]
            omega
          · exact fun heq => hleft ⟨d, hd, heq⟩
        have hstay := hs.page_stays hshape hfirst (hnew 1 (by omega))
        obtain ⟨c, hc, haddr, hcfin⟩ := hshape.coalesce.grown_joined (m := p + 1) (n := n + 1) hstay
          (pageBlock_fin p) (coalesceList_fin_ne hfirst) (notMem_taken_succ hnew)
          (Nat.succ_pos p) (by
            have heq : p + 1 + (n + 1) = p + (n + 1 + 1) := by omega
            rwa [heq])
        refine ⟨c, hc, ?_⟩
        have hsum : c.addr + headerSize + c.size = p * pageSize + (n + 1 + 1) * pageSize := by
          rw [← Nat.add_mul]
          exact hcfin.trans (congrArg (· * pageSize) (by omega))
        have hstart : c.addr = p * pageSize := haddr
        omega

end Joining

theorem grownList_consecutive (p m n : Nat) (hm : 0 < m) :
    grownList [⟨p * pageSize, m * pageSize - headerSize⟩] (List.range' (p + m) n) =
      [⟨p * pageSize, (m + n) * pageSize - headerSize⟩] := by
  induction n generalizing m with
  | zero => rfl
  | succ n ih =>
      have hafter : p * pageSize < (pageBlock (p + m)).addr := by
        simp only [pageBlock, pageSize]
        omega
      have hadj : (⟨p * pageSize, m * pageSize - headerSize⟩ : Block).fin =
          (pageBlock (p + m)).addr := by
        simp only [Block.fin, pageBlock, headerSize, pageSize]
        omega
      have hjoined : m * pageSize - headerSize + (headerSize + (pageBlock (p + m)).size) =
          (m + 1) * pageSize - headerSize := by
        simp only [pageBlock, headerSize, pageSize]
        omega
      rw [List.range'_succ, grownList_cons, insertBlock_of_gt _ _ _ hafter]
      have hinsert : insertBlock (pageBlock (p + m)) [] = [pageBlock (p + m)] := rfl
      rw [hinsert, coalesceList, if_pos hadj, coalesceList, hjoined, Nat.add_assoc p m 1, ih (m + 1)
        (Nat.succ_pos m), Nat.add_assoc m 1 n, Nat.add_comm 1 n]

theorem grownList_fresh (p n : Nat) (hn : 0 < n) :
    grownList [] (List.range' p n) = [⟨p * pageSize, n * pageSize - headerSize⟩] := by
  obtain ⟨n, rfl⟩ : ∃ k, n = k + 1 := ⟨n - 1, by omega⟩
  have hfirst : coalesceList (insertBlock (pageBlock p) []) =
      [⟨p * pageSize, 1 * pageSize - headerSize⟩] := by
    rw [Nat.one_mul]
    rfl
  rw [List.range'_succ, grownList_cons, hfirst, grownList_consecutive p 1 n Nat.one_pos,
    Nat.add_comm 1 n]

end Magnos
