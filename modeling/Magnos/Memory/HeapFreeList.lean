import Magnos.Framework.Linked
import Magnos.Memory.HeapShape

/-!
# The free list in memory

What the loops of `heap.c` do to the headers of a linked free list: `list_insert`, the
coalescing loop and the first-fit search act on the chain of headers as `insertBlock`,
`coalesceList` and the choice of the first large enough block act on the list of blocks.
-/

namespace Magnos

open Framework

variable {Pages : Type}

/-- A free block in memory: its header stores its size, is marked free and points on. -/
def freeLayout : NodeLayout Nat BlockHeader Block where
  addr := Block.addr
  next := BlockHeader.next
  null := 0
  Holds b c := c.size = b.size ∧ c.isFree = 1

def FreeChain (h : Heap Pages) (free : List Block) : Prop :=
  freeLayout.Linked h.hdr h.freeList 0 free

/-- `h'` differs from `h` at most in `free_list` and in the headers at `addrs`. -/
structure Heap.SameExcept (addrs : List Nat) (h h' : Heap Pages) : Prop where
  hdr : ∀ a ∉ addrs, h'.hdr a = h.hdr a
  heapPages : h'.heapPages = h.heapPages
  pages : h'.pages = h.pages
  taken : h'.taken = h.taken

theorem Heap.setHdr_same (h : Heap Pages) (a : Nat) (b : BlockHeader) :
    (h.setHdr a b).hdr a = b := Function.update_self ..

theorem Heap.setHdr_ne (h : Heap Pages) {a c : Nat} (b : BlockHeader) (hne : c ≠ a) :
    (h.setHdr a b).hdr c = h.hdr c := Function.update_of_ne hne ..

theorem addr_ne_of_nodup {before after : List Block} {c : Block}
    (hnodup : ((before ++ c :: after).map Block.addr).Nodup) :
    ∀ d ∈ before ++ after, d.addr ≠ c.addr := by
  intro d hd heq
  have hperm : (before ++ c :: after).Perm (c :: (before ++ after)) := List.perm_middle
  have hnodup' := (hperm.map Block.addr).nodup_iff.mp hnodup
  exact (List.nodup_cons.mp hnodup').1 (heq ▸ List.mem_map_of_mem hd)

theorem listInsertWalk_spec (hdr : Nat → BlockHeader) (block : Nat) (c : Block)
    (rest : List Block) (steps : Nat) (hlinked : freeLayout.Linked hdr c.addr 0 (c :: rest))
    (hsorted : (c :: rest).Pairwise fun b d => b.addr < d.addr) (hlt : c.addr < block)
    (hlen : rest.length < steps) :
    ∃ before d after, c :: rest = before ++ d :: after ∧ d.addr < block ∧
      (∀ e ∈ after, block ≤ e.addr) ∧ listInsertWalk hdr block steps c.addr = some d.addr := by
  induction rest generalizing c steps with
  | nil =>
      obtain ⟨-, -, -, hnext⟩ := hlinked
      have hnull : (hdr c.addr).next = 0 := hnext
      cases steps with
      | zero => simp at hlen
      | succ steps =>
          refine ⟨[], c, [], rfl, hlt, by simp, ?_⟩
          simp [listInsertWalk, hnull]
  | cons e rest ih =>
      obtain ⟨-, -, -, htail⟩ := hlinked
      have hnext : (hdr c.addr).next = e.addr := htail.1
      have hne : e.addr ≠ 0 := htail.2.1
      obtain ⟨hhead, hsorted⟩ := List.pairwise_cons.mp hsorted
      cases steps with
      | zero => simp at hlen
      | succ steps =>
          by_cases hbelow : e.addr < block
          · obtain ⟨before, d, after, hsplit, hd, hafter, hwalk⟩ :=
              ih e steps (hnext ▸ htail) hsorted hbelow (by simpa using hlen)
            refine ⟨c :: before, d, after, by rw [hsplit]; rfl, hd, hafter, ?_⟩
            simp only [listInsertWalk, hnext]
            rw [if_pos ⟨hne, hbelow⟩, hwalk]
          · refine ⟨[], c, e :: rest, rfl, hlt, ?_, ?_⟩
            · intro d hd
              rcases List.mem_cons.mp hd with rfl | hd
              · omega
              · have hlt' := (List.pairwise_cons.mp hsorted).1 d hd
                omega
            · simp [listInsertWalk, hnext, hbelow]

private theorem setHdr_setHdr (h : Heap Pages) (a : Nat) (b c : BlockHeader) :
    (h.setHdr a b).setHdr a c = h.setHdr a c := by
  simp [Heap.setHdr]

theorem listInsert_front (h : Heap Pages) (block : Nat)
    (hfront : h.freeList = 0 ∨ block < h.freeList) :
    listInsert h block = some { h.setHdr block ⟨(h.hdr block).size, 1, h.freeList⟩ with
      freeList := block } := by
  have hfront' : (h.setHdr block { h.hdr block with isFree := 1 }).freeList = 0 ∨
      block < (h.setHdr block { h.hdr block with isFree := 1 }).freeList := hfront
  simp only [listInsert]
  rw [if_pos hfront', setHdr_setHdr, Heap.setHdr_same]
  rfl

theorem listInsert_after (h : Heap Pages) (block cur : Nat)
    (hback : ¬ (h.freeList = 0 ∨ block < h.freeList)) (hne : cur ≠ block)
    (hwalk : listInsertWalk (h.setHdr block { h.hdr block with isFree := 1 }).hdr block walkLimit
      h.freeList = some cur) :
    listInsert h block =
      some ((h.setHdr block ⟨(h.hdr block).size, 1, (h.hdr cur).next⟩).setHdr cur
        { h.hdr cur with next := block }) := by
  have hback' : ¬ ((h.setHdr block { h.hdr block with isFree := 1 }).freeList = 0 ∨
      block < (h.setHdr block { h.hdr block with isFree := 1 }).freeList) := hback
  have hwalk' : listInsertWalk (h.setHdr block { h.hdr block with isFree := 1 }).hdr block
      walkLimit (h.setHdr block { h.hdr block with isFree := 1 }).freeList = some cur := hwalk
  simp only [listInsert]
  rw [if_neg hback', hwalk', Option.map_some, setHdr_setHdr, Heap.setHdr_same,
    Heap.setHdr_ne _ _ hne, Heap.setHdr_ne _ _ hne]

theorem listInsert_spec (h : Heap Pages) (b : Block) (free : List Block)
    (hchain : FreeChain h free) (hsorted : free.Pairwise fun b c => b.addr < c.addr)
    (hlen : free.length < walkLimit) (hpos : b.addr ≠ 0) (hnew : b.addr ∉ free.map Block.addr)
    (hsize : (h.hdr b.addr).size = b.size) :
    ∃ h', listInsert h b.addr = some h' ∧ FreeChain h' (insertBlock b free) ∧
      h.SameExcept (b.addr :: free.map Block.addr) h' := by
  have hother : ∀ c ∈ free, c.addr ≠ b.addr := by
    intro c hc heq
    exact hnew (heq ▸ List.mem_map_of_mem hc)
  by_cases hfront : h.freeList = 0 ∨ b.addr < h.freeList
  · refine ⟨_, listInsert_front h b.addr hfront, ?_, ?_, rfl, rfl, rfl⟩
    · have hinsert : insertBlock b free = b :: free := by
        cases free with
        | nil => rfl
        | cons c free =>
            obtain ⟨hhead, hne, -⟩ := hchain
            apply insertBlock_of_le
            simp only [freeLayout] at hhead hne
            omega
      rw [hinsert]
      refine ⟨rfl, hpos, ?_, ?_⟩
      · simp [freeLayout, Heap.setHdr_same, hsize]
      · simp only [freeLayout, Heap.setHdr_same]
        exact hchain.frame fun c hc => h.setHdr_ne _ (hother c hc)
    · intro a ha
      exact h.setHdr_ne _ fun heq => ha (by simp [heq])
  · obtain ⟨hnull, hge⟩ := not_or.mp hfront
    cases free with
    | nil => exact (hnull hchain).elim
    | cons c free =>
        have hc : h.freeList = c.addr := hchain.1
        have hcb := hother c (by simp)
        have hmarked : freeLayout.Linked
            (h.setHdr b.addr { h.hdr b.addr with isFree := 1 }).hdr c.addr 0 (c :: free) :=
          hc ▸ hchain.frame fun d hd => h.setHdr_ne _ (hother d hd)
        obtain ⟨before, d, after, hsplit, hd, hafter, hwalk⟩ :=
          listInsertWalk_spec _ b.addr c free walkLimit hmarked hsorted (by omega)
            (by simp only [List.length_cons] at hlen; omega)
        rw [← hc] at hwalk
        rw [hsplit] at hchain hsorted hother ⊢
        obtain ⟨-, hright, hcross⟩ := List.pairwise_append.mp hsorted
        have hinsert : insertBlock b (before ++ d :: after) = before ++ d :: b :: after := by
          have happend := insertBlock_append b (before ++ [d]) after ?_ hafter
          · simpa using happend
          · intro e he
            rcases List.mem_append.mp he with he | he
            · have := hcross e he d (by simp)
              omega
            · rwa [List.mem_singleton.mp he]
        refine ⟨_, listInsert_after h b.addr d.addr hfront (Nat.ne_of_lt hd) hwalk, ?_, ?_, rfl,
          rfl, rfl⟩
        · rw [hinsert]
          refine hchain.splice ?_ ?_ ⟨?_, hpos, ?_, ?_⟩
          · intro e he
            have hne : e.addr ≠ d.addr := Nat.ne_of_lt (hcross e he d (by simp))
            exact (Heap.setHdr_ne _ _ hne).trans (h.setHdr_ne _ (hother e (by simp [he])))
          · have hholds := (hchain.holds (a := d) (by simp)).2
            simpa [freeLayout, Heap.setHdr_same] using hholds
          · simp [freeLayout, Heap.setHdr_same]
          · simp [freeLayout, Heap.setHdr_same, Heap.setHdr_ne _ _ (Nat.ne_of_gt hd), hsize]
          · simp only [freeLayout, Heap.setHdr_same, Heap.setHdr_ne _ _ (Nat.ne_of_gt hd)]
            apply (hchain.after _).frame
            intro e he
            have hne : e.addr ≠ d.addr := Nat.ne_of_gt ((List.pairwise_cons.mp hright).1 e he)
            exact (Heap.setHdr_ne _ _ hne).trans (h.setHdr_ne _ (hother e (by simp [he])))
        · intro a ha
          simp only [List.map_append, List.map_cons, List.mem_cons, List.mem_append, not_or] at ha
          rw [Heap.setHdr_ne _ _ ha.2.2.1, h.setHdr_ne _ ha.1]

theorem coalesceForward_join (h : Heap Pages) (b c : Block) (l : List Block)
    (hlinked : freeLayout.Linked h.hdr b.addr 0 (b :: c :: l)) (hc : c.Ok)
    (hadjacent : b.fin = c.addr) :
    coalesceForward h b.addr = h.setHdr b.addr
      ⟨b.size + (headerSize + c.size), 1, (h.hdr c.addr).next⟩ := by
  obtain ⟨-, -, ⟨hbsize, hbfree⟩, hnext, hcne, ⟨hcsize, hcfree⟩, -⟩ := hlinked
  simp only [freeLayout] at hbsize hbfree hnext hcne hcsize hcfree
  have hlt := hc.lt
  have hbound := hc.bounded
  have hstop : (b.addr + headerSize + b.size) % 2 ^ 32 = c.addr := by
    rw [Block.fin] at hadjacent
    rw [hadjacent]
    exact Nat.mod_eq_of_lt (by omega)
  have hsum : (b.size + (headerSize + c.size)) % 2 ^ 32 = b.size + (headerSize + c.size) := by
    apply Nat.mod_eq_of_lt
    simp only [Block.fin, headerSize] at *
    omega
  simp only [coalesceForward, hnext, hbsize, hbfree, hcsize]
  rw [if_neg hcne, if_pos ⟨hstop, by rw [hcfree]; decide⟩, hsum]

theorem coalesceForward_apart (h : Heap Pages) (b : Block) (l : List Block)
    (hlinked : freeLayout.Linked h.hdr b.addr 0 (b :: l)) (hb : b.Ok)
    (hapart : ∀ c ∈ l.head?, c.Ok ∧ b.fin ≠ c.addr) : coalesceForward h b.addr = h := by
  obtain ⟨-, -, ⟨hbsize, -⟩, htail⟩ := hlinked
  simp only [freeLayout] at hbsize
  cases l with
  | nil =>
      have hnext : (h.hdr b.addr).next = 0 := htail
      simp [coalesceForward, hnext]
  | cons c l =>
      have hnext : (h.hdr b.addr).next = c.addr := htail.1
      have hcne : c.addr ≠ 0 := htail.2.1
      obtain ⟨hc, hne⟩ := hapart c rfl
      have hlt := hc.lt
      have hcbound := hc.bounded
      have hbound := hb.bounded
      have hstop : (b.addr + headerSize + b.size) % 2 ^ 32 ≠ c.addr := by
        simp only [Block.fin] at *
        omega
      simp only [coalesceForward, hnext, hbsize]
      rw [if_neg hcne, if_neg fun hboth => hstop hboth.1]

theorem coalesceAll_round {h h' : Heap Pages} {b : Block} {rest : List Block} {steps : Nat}
    (hne : b.addr ≠ 0)
    (hholds : freeLayout.Holds b ((coalesceForward h b.addr).hdr b.addr))
    (hrun : coalesceAll steps ((coalesceForward h b.addr).hdr b.addr).next
      (coalesceForward h b.addr) = some h')
    (hlinked : freeLayout.Linked h'.hdr ((coalesceForward h b.addr).hdr b.addr).next 0 rest)
    (hkept : h'.hdr b.addr = (coalesceForward h b.addr).hdr b.addr) :
    coalesceAll (steps + 1) b.addr h = some h' ∧
      freeLayout.Linked h'.hdr b.addr 0 (b :: rest) := by
  refine ⟨?_, rfl, hne, ?_, ?_⟩
  · rw [coalesceAll, if_neg hne, hrun]
  · show freeLayout.Holds b (h'.hdr b.addr)
    rw [hkept]
    exact hholds
  · show freeLayout.Linked h'.hdr (h'.hdr b.addr).next 0 rest
    rw [hkept]
    exact hlinked

theorem coalesceAll_spec (free : List Block) (h : Heap Pages) (head steps : Nat)
    (hlinked : freeLayout.Linked h.hdr head 0 free) (hok : ∀ b ∈ free, b.Ok)
    (hnodup : (free.map Block.addr).Nodup) (hlen : free.length < steps) :
    ∃ h', coalesceAll steps head h = some h' ∧
      freeLayout.Linked h'.hdr head 0 (coalesceList free) ∧ h'.freeList = h.freeList ∧
      h.SameExcept (free.map Block.addr) h' := by
  induction free using coalesceList.induct generalizing h head steps with
  | case1 =>
      cases steps with
      | zero => simp at hlen
      | succ steps =>
          have hhead : head = 0 := hlinked
          exact ⟨h, by simp [coalesceAll, hhead], hlinked, rfl, fun _ _ => rfl, rfl, rfl, rfl⟩
  | case2 b =>
      obtain rfl : head = b.addr := hlinked.1
      have hne : b.addr ≠ 0 := hlinked.2.1
      have hnext : (h.hdr b.addr).next = 0 := hlinked.2.2.2
      have hstay := coalesceForward_apart h b [] hlinked (hok b (by simp)) (by simp)
      cases steps with
      | zero => simp at hlen
      | succ steps =>
          cases steps with
          | zero => simp at hlen
          | succ steps =>
              refine ⟨h, ?_, hlinked, rfl, fun _ _ => rfl, rfl, rfl, rfl⟩
              simp [coalesceAll, hne, hstay, hnext]
  | case3 b c l hadjacent ih =>
      obtain rfl : head = b.addr := hlinked.1
      have hne : b.addr ≠ 0 := hlinked.2.1
      have hjoin := coalesceForward_join h b c l hlinked (hok c (by simp)) hadjacent
      obtain ⟨hb, hnodup⟩ := List.nodup_cons.mp hnodup
      obtain ⟨-, hnodup⟩ := List.nodup_cons.mp hnodup
      have hbl : b.addr ∉ l.map Block.addr := fun hmem => hb (List.mem_cons_of_mem _ hmem)
      set h₁ := h.setHdr b.addr ⟨b.size + (headerSize + c.size), 1, (h.hdr c.addr).next⟩
      have hb₁ : h₁.hdr b.addr = ⟨b.size + (headerSize + c.size), 1, (h.hdr c.addr).next⟩ :=
        h.setHdr_same _ _
      cases steps with
      | zero => simp at hlen
      | succ steps =>
          have hrest : freeLayout.Linked h₁.hdr (h.hdr c.addr).next 0 l := by
            apply (hlinked.after [b]).frame
            intro d hd
            apply h.setHdr_ne
            intro heq
            exact hbl (heq ▸ List.mem_map_of_mem hd)
          obtain ⟨h', hrun, hlinked', hfree, hsame⟩ := ih h₁ _ steps hrest
            (fun d hd => hok d (by simp [hd])) hnodup
            (by simp only [List.length_cons] at hlen; omega)
          have hround : coalesceAll (steps + 1) b.addr h = some h' ∧ freeLayout.Linked h'.hdr b.addr
              0 (⟨b.addr, b.size + (headerSize + c.size)⟩ :: coalesceList l) := by
            apply coalesceAll_round (b := ⟨b.addr, b.size + (headerSize + c.size)⟩) hne <;>
              simp only [hjoin, hb₁]
            · exact ⟨rfl, rfl⟩
            · exact hrun
            · exact hlinked'
            · exact (hsame.hdr _ hbl).trans hb₁
          rw [coalesceList, if_pos hadjacent]
          refine ⟨h', hround.1, hround.2, hfree, ?_, hsame.heapPages, hsame.pages, hsame.taken⟩
          · intro a ha
            simp only [List.map_cons, List.mem_cons, not_or] at ha
            rw [hsame.hdr a ha.2.2]
            exact h.setHdr_ne _ ha.1
  | case4 b c l hapart ih =>
      obtain rfl : head = b.addr := hlinked.1
      have hne : b.addr ≠ 0 := hlinked.2.1
      have hnext : (h.hdr b.addr).next = c.addr := hlinked.2.2.2.1
      have hstay := coalesceForward_apart h b (c :: l) hlinked (hok b (by simp))
        (by simpa using ⟨hok c (by simp), hapart⟩)
      obtain ⟨hb, hnodup⟩ := List.nodup_cons.mp hnodup
      cases steps with
      | zero => simp at hlen
      | succ steps =>
          obtain ⟨h', hrun, hlinked', hfree, hsame⟩ := ih h c.addr steps
            (hnext ▸ hlinked.2.2.2) (fun d hd => hok d (List.mem_cons_of_mem _ hd)) hnodup
            (by simp only [List.length_cons] at hlen ⊢; omega)
          have hround : coalesceAll (steps + 1) b.addr h = some h' ∧
              freeLayout.Linked h'.hdr b.addr 0 (b :: coalesceList (c :: l)) := by
            apply coalesceAll_round hne <;> rw [hstay]
            · exact hlinked.2.2.1
            · rw [hnext]
              exact hrun
            · rw [hnext]
              exact hlinked'
            · exact hsame.hdr _ hb
          rw [coalesceList, if_neg hapart]
          refine ⟨h', hround.1, hround.2, hfree, ?_, hsame.heapPages, hsame.pages, hsame.taken⟩
          · intro a ha
            simp only [List.map_cons, List.mem_cons, not_or] at ha
            exact hsame.hdr a (by simp [ha.2])

/-- The first-fit search takes the first block that is large enough, if there is one. -/
theorem kmallocSearch_spec (h : Heap Pages) (size : Nat) (free : List Block)
    (cur prev steps : Nat) (hlinked : freeLayout.Linked h.hdr cur 0 free)
    (hlen : free.length < steps) :
    (kmallocSearch h size steps cur prev = some (none, h)) ∧ (∀ d ∈ free, d.size < size) ∨
      ∃ before c after, free = before ++ c :: after ∧ (∀ d ∈ before, d.size < size) ∧
        size ≤ c.size ∧
        kmallocSearch h size steps cur prev = some (some ((c.addr + headerSize) % 2 ^ 32),
          takeBlock h c.addr ((before.map Block.addr).getLastD prev) size) := by
  induction free generalizing cur prev steps with
  | nil =>
      cases steps with
      | zero => simp at hlen
      | succ steps =>
          have hcur : cur = 0 := hlinked
          exact .inl ⟨by simp [kmallocSearch, hcur], nofun⟩
  | cons b free ih =>
      obtain ⟨rfl, hne, ⟨hsize, hfree⟩, htail⟩ := hlinked
      simp only [freeLayout] at hne hsize hfree htail
      cases steps with
      | zero => simp at hlen
      | succ steps =>
          by_cases hfits : size ≤ b.size
          · refine .inr ⟨[], b, free, rfl, nofun, hfits, ?_⟩
            simp [kmallocSearch, freeLayout, hne, hsize, hfree, hfits]
          · have hsmall : b.size < size := Nat.lt_of_not_le hfits
            have hstep : kmallocSearch h size (steps + 1) b.addr prev =
                kmallocSearch h size steps (h.hdr b.addr).next b.addr := by
              simp [kmallocSearch, hne, hsize, hfits]
            rcases ih _ b.addr steps htail (by simpa using hlen) with ⟨hnone, hall⟩ | hsome
            · exact .inl ⟨hstep.trans hnone, List.forall_mem_cons.mpr ⟨hsmall, hall⟩⟩
            · obtain ⟨before, c, after, rfl, hbefore, hfits', hfound⟩ := hsome
              refine .inr ⟨b :: before, c, after, rfl,
                List.forall_mem_cons.mpr ⟨hsmall, hbefore⟩, hfits', hstep.trans ?_⟩
              rw [hfound, List.map_cons, List.getLastD_cons]

theorem splitBlock_eq (h : Heap Pages) (size : Nat) (c : Block) (hc : c.Ok)
    (hholds : (h.hdr c.addr).size = c.size ∧ (h.hdr c.addr).isFree = 1)
    (hroom : size + headerSize + minAlloc < 2 ^ 32)
    (hsplit : c.size ≥ size + headerSize + minAlloc) :
    splitBlock h c.addr size =
      (h.setHdr (c.addr + headerSize + size)
        ⟨c.size - size - headerSize, 1, (h.hdr c.addr).next⟩).setHdr c.addr
        ⟨size, 1, c.addr + headerSize + size⟩ := by
  have hcond : c.size ≥ (size + headerSize + minAlloc) % 2 ^ 32 := by
    rw [Nat.mod_eq_of_lt hroom]
    exact hsplit
  have hbound := hc.bounded
  have hpos := hc.addr_pos
  simp only [Block.fin, headerSize, minAlloc] at hbound hroom hsplit
  have hnb : (c.addr + headerSize + size) % 2 ^ 32 = c.addr + headerSize + size := by
    apply Nat.mod_eq_of_lt
    simp only [headerSize]
    omega
  have hrest : sub32 (sub32 c.size size) headerSize = c.size - size - headerSize := by
    have hle : size ≤ c.size := by omega
    have hlt : c.size < 2 ^ 32 := by omega
    rw [sub32_of_le hle hlt, sub32_of_le _ (by omega)]
    simp only [headerSize]
    omega
  have hne : c.addr ≠ c.addr + headerSize + size := by
    simp only [headerSize]
    omega
  simp only [splitBlock, hholds.1, hnb, hrest]
  rw [if_pos hcond, Heap.setHdr_ne _ _ hne, hholds.2]

theorem splitBlock_spec (h : Heap Pages) (size : Nat) (c : Block) (before after : List Block)
    (hchain : FreeChain h (before ++ c :: after)) (hc : c.Ok)
    (hroom : size + headerSize + minAlloc < 2 ^ 32)
    (hnodup : ((before ++ c :: after).map Block.addr).Nodup)
    (hnew : ∀ d ∈ leftover c size, d.addr ∉ (before ++ c :: after).map Block.addr) :
    FreeChain (splitBlock h c.addr size)
        (before ++ takenBlock c size :: (leftover c size ++ after)) ∧
      h.SameExcept (c.addr :: (leftover c size).map Block.addr)
        (splitBlock h c.addr size) := by
  obtain ⟨-, hsize, hfree⟩ := hchain.holds (a := c) (by simp)
  simp only [freeLayout] at hsize hfree
  by_cases hsplit : c.size ≥ size + headerSize + minAlloc
  · have htaken : takenBlock c size = ⟨c.addr, size⟩ := if_pos hsplit
    have hleft : leftover c size =
        [⟨c.addr + headerSize + size, c.size - size - headerSize⟩] := if_pos hsplit
    have heq := splitBlock_eq h size c hc ⟨hsize, hfree⟩ hroom hsplit
    rw [hleft] at hnew ⊢
    rw [htaken]
    simp only [List.mem_singleton, forall_eq] at hnew
    set nb := c.addr + headerSize + size with hnbdef
    have hcn : c.addr ≠ nb := by
      simp only [hnbdef, headerSize]
      omega
    have hother : ∀ d ∈ before ++ after, d.addr ≠ c.addr ∧ d.addr ≠ nb := by
      intro d hd
      refine ⟨addr_ne_of_nodup hnodup d hd, ?_⟩
      intro hdn
      apply hnew
      rw [← hdn]
      apply List.mem_map_of_mem
      rcases List.mem_append.mp hd with hd | hd <;> simp [hd]
    have hsame : ∀ d ∈ before ++ after, (splitBlock h c.addr size).hdr d.addr = h.hdr d.addr := by
      intro d hd
      rw [heq, Heap.setHdr_ne _ _ (hother d hd).1, Heap.setHdr_ne _ _ (hother d hd).2]
    have hcat : (splitBlock h c.addr size).hdr c.addr = ⟨size, 1, nb⟩ := by
      rw [heq, Heap.setHdr_same]
    have hnat : (splitBlock h c.addr size).hdr nb =
        ⟨c.size - size - headerSize, 1, (h.hdr c.addr).next⟩ := by
      rw [heq, Heap.setHdr_ne _ _ hcn.symm, Heap.setHdr_same]
    refine ⟨?_, ?_⟩
    · have hlist : (splitBlock h c.addr size).freeList = h.freeList := by rw [heq]; rfl
      obtain ⟨mid, hinit, hmid, hne, -, hafter⟩ := NodeLayout.linked_append.mp hchain
      rw [FreeChain, hlist]
      refine NodeLayout.linked_append.mpr ⟨mid, ?_, hmid, hne, ?_, ?_, ?_, ?_, ?_⟩
      · exact hinit.frame fun d hd => hsame d (by simp [hd])
      · simp [freeLayout, hcat]
      · simp [freeLayout, hcat]
      · simp only [freeLayout, hnbdef, headerSize]
        omega
      · simp [freeLayout, hnat]
      · simp only [freeLayout, hnat]
        exact hafter.frame fun d hd => hsame d (by simp [hd])
    · rw [heq]
      refine ⟨?_, rfl, rfl, rfl⟩
      intro a ha
      simp only [List.map_cons, List.map_nil, List.mem_cons, List.not_mem_nil, or_false,
        not_or] at ha
      rw [Heap.setHdr_ne _ _ ha.1, Heap.setHdr_ne _ _ ha.2]
  · have htaken : takenBlock c size = c := if_neg hsplit
    have hleft : leftover c size = [] := if_neg hsplit
    have heq : splitBlock h c.addr size = h := by
      simp only [splitBlock, Nat.mod_eq_of_lt hroom, hsize]
      rw [if_neg hsplit]
    rw [htaken, hleft, heq]
    exact ⟨hchain, fun _ _ => rfl, rfl, rfl, rfl⟩

theorem unlinkBlock_head (h : Heap Pages) (cur : Nat) :
    unlinkBlock h cur 0 = { h.setHdr cur ⟨(h.hdr cur).size, 0, 0⟩ with
      freeList := (h.hdr cur).next } := by
  simp [unlinkBlock, Heap.setHdr]

theorem unlinkBlock_after (h : Heap Pages) (cur prev : Nat) (hprev : prev ≠ 0)
    (hne : prev ≠ cur) :
    unlinkBlock h cur prev =
      (h.setHdr prev { h.hdr prev with next := (h.hdr cur).next }).setHdr cur
        ⟨(h.hdr cur).size, 0, 0⟩ := by
  simp only [unlinkBlock]
  rw [if_pos hprev]
  simp only [Heap.setHdr, Function.update_self, Function.update_of_ne hne,
    Function.update_of_ne hne.symm]
  rw [Function.update_comm hne, Function.update_idem, Function.update_comm hne.symm]

theorem unlinkBlock_spec (h : Heap Pages) (c : Block) (before after : List Block)
    (hchain : FreeChain h (before ++ c :: after))
    (hnodup : ((before ++ c :: after).map Block.addr).Nodup) :
    FreeChain (unlinkBlock h c.addr ((before.map Block.addr).getLastD 0)) (before ++ after) ∧
      (unlinkBlock h c.addr ((before.map Block.addr).getLastD 0)).hdr c.addr = ⟨c.size, 0, 0⟩ ∧
      h.SameExcept ((before ++ c :: after).map Block.addr)
        (unlinkBlock h c.addr ((before.map Block.addr).getLastD 0)) := by
  have hother := addr_ne_of_nodup hnodup
  have hsize : (h.hdr c.addr).size = c.size := (hchain.holds (a := c) (by simp)).2.1
  rcases List.eq_nil_or_concat before with rfl | ⟨init, p, rfl⟩
  · have heq := unlinkBlock_head h c.addr
    rw [hsize] at heq
    simp only [List.map_nil, List.getLastD_nil, heq, List.nil_append]
    refine ⟨?_, Heap.setHdr_same _ _ _, ?_, rfl, rfl, rfl⟩
    · exact (hchain.after []).frame fun d hd => h.setHdr_ne _ (hother d hd)
    · intro a ha
      exact h.setHdr_ne _ fun hac => ha (by simp [hac])
  · have hp : p.addr ≠ 0 := (hchain.holds (a := p) (by simp)).1
    have hpc : p.addr ≠ c.addr := hother p (by simp)
    rw [List.concat_eq_append, List.append_assoc] at hnodup
    have hpother : ∀ d ∈ init ++ after, d.addr ≠ p.addr := by
      intro d hd
      apply addr_ne_of_nodup hnodup
      rcases List.mem_append.mp hd with hd | hd <;> simp [hd]
    have hlast : (List.map Block.addr (init.concat p)).getLastD 0 = p.addr := by simp
    have heq := unlinkBlock_after h c.addr p.addr hp hpc
    rw [hsize] at heq
    rw [hlast, heq]
    refine ⟨?_, Heap.setHdr_same _ _ _, ?_, rfl, rfl, rfl⟩
    · have hchain' : freeLayout.Linked h.hdr h.freeList 0 (init ++ p :: c :: after) := by
        simpa [FreeChain] using hchain
      rw [FreeChain, List.concat_eq_append, List.append_assoc]
      apply hchain'.splice
      · intro d hd
        exact (Heap.setHdr_ne _ _ (hother d (by simp [hd]))).trans
          (h.setHdr_ne _ (hpother d (by simp [hd])))
      · have hholds := (hchain'.holds (a := p) (by simp)).2
        simpa [freeLayout, Heap.setHdr_ne _ _ hpc, Heap.setHdr_same] using hholds
      · simp only [freeLayout, Heap.setHdr_ne _ _ hpc, Heap.setHdr_same]
        apply (hchain.after _).frame
        intro d hd
        exact (Heap.setHdr_ne _ _ (hother d (by simp [hd]))).trans
          (h.setHdr_ne _ (hpother d (by simp [hd])))
    · intro a ha
      simp only [List.concat_eq_append, List.append_assoc, List.map_append, List.map_cons,
        List.map_nil, List.mem_append, List.mem_cons, not_or] at ha
      rw [Heap.setHdr_ne _ _ ha.2.2.1, Heap.setHdr_ne _ _ ha.2.1.1]

theorem takeBlock_spec (h : Heap Pages) (size : Nat) {c : Block} {before after live : List Block}
    (hchain : FreeChain h (before ++ c :: after))
    (hshape : HeapShape (before ++ c :: after) live h.taken) (hfits : size ≤ c.size)
    (haligned : size % 16 = 0) (hpos : 16 ≤ size) :
    let h' := takeBlock h c.addr ((before.map Block.addr).getLastD 0) size
    FreeChain h' (before ++ (leftover c size ++ after)) ∧
      h'.hdr c.addr = ⟨(takenBlock c size).size, 0, 0⟩ ∧
      h.SameExcept ((before ++ takenBlock c size :: (leftover c size ++ after)).map Block.addr)
        h' := by
  have hc := hshape.free_ok c (by simp)
  have hroom : size + headerSize + minAlloc < 2 ^ 32 := by
    have hlow := hshape.addr_ge c (by simp)
    have hbound := hc.bounded
    simp only [Block.fin, pageSize, headerSize, minAlloc] at *
    omega
  have hnodup := (hshape.split haligned hpos).free_nodup
  have haddr := takenBlock_addr c size
  have hleft : ∀ d ∈ leftover c size, d.addr ∉ (before ++ c :: after).map Block.addr := by
    intro d hd hmem
    have hd' : d.addr ∈ (leftover c size).map Block.addr := List.mem_map_of_mem hd
    rw [List.map_append, List.map_cons, ← haddr] at hmem
    rw [List.map_append, List.map_cons, List.map_append] at hnodup
    grind
  obtain ⟨hsplit, hsame₁⟩ := splitBlock_spec h size c before after hchain hc hroom
    hshape.free_nodup hleft
  obtain ⟨hunlink, hheader, hsame₂⟩ := unlinkBlock_spec _ _ before _ hsplit hnodup
  rw [haddr] at hunlink hheader hsame₂
  refine ⟨hunlink, hheader, ?_, hsame₂.heapPages.trans hsame₁.heapPages,
    hsame₂.pages.trans hsame₁.pages, hsame₂.taken.trans hsame₁.taken⟩
  intro a ha
  rw [takeBlock, hsame₂.hdr a ha, hsame₁.hdr]
  simp only [List.map_append, List.map_cons, List.mem_append, List.mem_cons, not_or, haddr] at ha ⊢
  exact ⟨ha.2.1, ha.2.2.1⟩

theorem heapStatsWalk_spec (hdr : Nat → BlockHeader) (free : List Block)
    (cur steps bytes blocks : Nat) (hlinked : freeLayout.Linked hdr cur 0 free)
    (hlen : free.length < steps) (hbytes : bytes + (free.map Block.size).sum < 2 ^ 32)
    (hblocks : blocks + free.length < 2 ^ 32) :
    heapStatsWalk hdr steps cur (bytes, blocks) =
      some (bytes + (free.map Block.size).sum, blocks + free.length) := by
  induction free generalizing cur steps bytes blocks with
  | nil =>
      cases steps with
      | zero => simp at hlen
      | succ steps =>
          have hcur : cur = 0 := hlinked
          simp [heapStatsWalk, hcur]
  | cons b free ih =>
      obtain ⟨rfl, hne, ⟨hsize, hfree⟩, htail⟩ := hlinked
      simp only [freeLayout] at hne hsize hfree htail
      simp only [List.map_cons, List.sum_cons, List.length_cons] at *
      cases steps with
      | zero => simp at hlen
      | succ steps =>
          have hmod : (bytes + b.size) % 2 ^ 32 = bytes + b.size :=
            Nat.mod_eq_of_lt (by omega)
          have hmod' : (blocks + 1) % 2 ^ 32 = blocks + 1 := Nat.mod_eq_of_lt (by omega)
          have hih := ih _ steps (bytes + b.size) (blocks + 1) htail (by omega) (by omega)
            (by omega)
          simp only [heapStatsWalk, freeLayout, hsize, hfree, hmod, hmod']
          rw [if_neg hne, if_pos (by decide), hih]
          congr 2 <;> omega

end Magnos
