import Mathlib.Data.List.Sort
import Magnos.Framework.Spans
import Magnos.Memory.Heap

/-!
# The heap as a partition of its pages

The abstract heap: free blocks in address order, live blocks, and the pages they were cut
from.  `HeapShape` says that the blocks partition the pages; inserting, coalescing, taking
and adding a page keep it.
-/

namespace Magnos

open Framework

/-- A block by its header's address and its usable size. -/
structure Block where
  addr : Nat
  size : Nat
deriving DecidableEq

/-- The address after the block's last byte. -/
def Block.fin (b : Block) : Nat := b.addr + headerSize + b.size

def Block.span (b : Block) : Span Nat := ⟨b.addr, b.fin⟩

def pageSpan (page : Nat) : Span Nat := ⟨page, page + pageSize⟩

/-- Alignment and extent of a block. -/
structure Block.Ok (b : Block) : Prop where
  addr_aligned : b.addr % 16 = 0
  addr_pos : 0 < b.addr
  size_aligned : b.size % 16 = 0
  size_pos : 16 ≤ b.size
  bounded : b.fin ≤ 2 ^ 32

/-- The free list after `list_insert`. -/
def insertBlock (b : Block) (free : List Block) : List Block :=
  free.orderedInsert (fun x y => x.addr ≤ y.addr) b

/-- The free list after the coalescing loop: a block that has taken in its neighbour is not
compared with the next one again. -/
def coalesceList : List Block → List Block
  | [] => []
  | [b] => [b]
  | b :: c :: l =>
      if b.fin = c.addr then ⟨b.addr, b.size + (headerSize + c.size)⟩ :: coalesceList l
      else b :: coalesceList (c :: l)

/-- The block handed out when a request of `size` bytes is served from `c`. -/
def takenBlock (c : Block) (size : Nat) : Block :=
  if c.size ≥ size + headerSize + minAlloc then ⟨c.addr, size⟩ else c

/-- What the request leaves of `c` on the free list. -/
def leftover (c : Block) (size : Nat) : List Block :=
  if c.size ≥ size + headerSize + minAlloc then
    [⟨c.addr + headerSize + size, c.size - size - headerSize⟩]
  else []

theorem takenBlock_addr (c : Block) (size : Nat) : (takenBlock c size).addr = c.addr := by
  unfold takenBlock
  split <;> rfl

/-- The blocks partition the pages taken from the page source. -/
structure HeapShape (free live : List Block) (taken : List Nat) : Prop where
  ok : ∀ b ∈ free ++ live, b.Ok
  sorted : free.Pairwise fun b c => b.addr < c.addr
  cover : ∀ a, coverCount ((free ++ live).map Block.span) a = coverCount (taken.map pageSpan) a
  total : ((free ++ live).map fun b => headerSize + b.size).sum = pageSize * taken.length
  taken_nodup : taken.Nodup
  taken_aligned : ∀ p ∈ taken, p % pageSize = 0
  taken_pos : ∀ p ∈ taken, 0 < p
  taken_bounded : ∀ p ∈ taken, p < 2 ^ 32

theorem insertBlock_perm (b : Block) (free : List Block) : (insertBlock b free).Perm (b :: free) :=
  List.perm_orderedInsert _ b free

theorem insertBlock_of_le (b c : Block) (free : List Block) (hle : b.addr ≤ c.addr) :
    insertBlock b (c :: free) = b :: c :: free := by
  rw [insertBlock, List.orderedInsert_cons, if_pos hle]

theorem insertBlock_of_gt (b c : Block) (free : List Block) (hgt : c.addr < b.addr) :
    insertBlock b (c :: free) = c :: insertBlock b free := by
  rw [insertBlock, List.orderedInsert_cons, if_neg (Nat.not_le_of_lt hgt)]
  rfl

theorem insertBlock_append (b : Block) (before after : List Block)
    (hbefore : ∀ d ∈ before, d.addr < b.addr) (hafter : ∀ e ∈ after, b.addr ≤ e.addr) :
    insertBlock b (before ++ after) = before ++ b :: after := by
  induction before with
  | nil =>
      cases after with
      | nil => rfl
      | cons e after => exact insertBlock_of_le b e after (hafter e (by simp))
  | cons d before ih =>
      rw [List.cons_append, insertBlock_of_gt b d _ (hbefore d (by simp)),
        ih fun e he => hbefore e (by simp [he])]
      rfl

theorem insertBlock_sorted (b : Block) (free : List Block)
    (hsorted : free.Pairwise fun b c => b.addr < c.addr) (hnew : b.addr ∉ free.map Block.addr) :
    (insertBlock b free).Pairwise fun b c => b.addr < c.addr := by
  induction free with
  | nil => simp [insertBlock]
  | cons c free ih =>
      obtain ⟨hhead, htail⟩ := List.pairwise_cons.mp hsorted
      simp only [List.map_cons, List.mem_cons, not_or] at hnew
      by_cases hle : b.addr ≤ c.addr
      · rw [insertBlock_of_le b c free hle]
        refine List.Pairwise.cons ?_ hsorted
        intro d hd
        rcases List.mem_cons.mp hd with rfl | hd
        · omega
        · have hlt := hhead d hd
          omega
      · rw [insertBlock_of_gt b c free (by omega)]
        refine List.Pairwise.cons ?_ (ih htail hnew.2)
        intro d hd
        rcases List.mem_cons.mp ((insertBlock_perm b free).mem_iff.mp hd) with rfl | hd
        · omega
        · exact hhead d hd

theorem Block.Ok.lt {b : Block} (hb : b.Ok) : b.addr < b.fin := by
  have := hb.size_pos
  simp only [Block.fin, headerSize]
  omega

private theorem pages_apart (taken : List Nat) (hnodup : taken.Nodup)
    (haligned : ∀ p ∈ taken, p % pageSize = 0) :
    (taken.map pageSpan).Pairwise Span.Apart := by
  rw [List.pairwise_map]
  apply hnodup.imp_of_mem
  intro p q hp hq hne
  have hp' := haligned p hp
  have hq' := haligned q hq
  simp only [Span.Apart, pageSpan, pageSize] at *
  omega

namespace HeapShape

variable {free live : List Block} {taken : List Nat}

theorem cover_le_one (hs : HeapShape free live taken) (a : Nat) :
    coverCount ((free ++ live).map Block.span) a ≤ 1 := by
  rw [hs.cover]
  exact coverCount_le_one_of_apart _ (pages_apart taken hs.taken_nodup hs.taken_aligned) a

theorem apart (hs : HeapShape free live taken) :
    (free ++ live).Pairwise fun b c => b.span.Apart c.span := by
  rw [← List.pairwise_map (f := Block.span) (R := Span.Apart)]
  apply apart_of_coverCount_le_one _ hs.cover_le_one
  intro s hmem
  obtain ⟨b, hb, rfl⟩ := List.mem_map.mp hmem
  exact (hs.ok b hb).lt

theorem free_ok (hs : HeapShape free live taken) (b : Block) (hb : b ∈ free) : b.Ok :=
  hs.ok b (List.mem_append_left _ hb)

theorem live_ok (hs : HeapShape free live taken) (b : Block) (hb : b ∈ live) : b.Ok :=
  hs.ok b (List.mem_append_right _ hb)

theorem ordered (hs : HeapShape free live taken) :
    free.Pairwise fun b c => b.fin ≤ c.addr := by
  have hapart := (List.pairwise_append.mp hs.apart).1
  apply (hapart.and hs.sorted).imp_of_mem
  intro b c hb hc hboth
  obtain ⟨hapart, hlt⟩ := hboth
  have hok := (hs.free_ok c hc).lt
  simp only [Span.Apart, Block.span] at hapart
  omega

theorem free_nodup (hs : HeapShape free live taken) : (free.map Block.addr).Nodup := by
  rw [List.Nodup, List.pairwise_map]
  exact hs.sorted.imp fun hlt => Nat.ne_of_lt hlt

theorem live_apart (hs : HeapShape free live taken) (b c : Block) (hb : b ∈ free)
    (hc : c ∈ live) : b.span.Apart c.span :=
  (List.pairwise_append.mp hs.apart).2.2 b hb c hc

theorem live_addr_notMem (hs : HeapShape free live taken) (c : Block) (hc : c ∈ live) :
    c.addr ∉ free.map Block.addr := by
  intro hmem
  obtain ⟨b, hb, heq⟩ := List.mem_map.mp hmem
  have hapart := hs.live_apart b c hb hc
  have hbok := (hs.free_ok b hb).lt
  have hcok := (hs.live_ok c hc).lt
  simp only [Span.Apart, Block.span] at hapart
  omega

theorem addr_ge (hs : HeapShape free live taken) (b : Block) (hb : b ∈ free ++ live) :
    pageSize ≤ b.addr := by
  have hheld : 0 < coverCount ((free ++ live).map Block.span) b.addr :=
    coverCount_pos.mpr ⟨b.span, List.mem_map_of_mem hb, Nat.le_refl _, (hs.ok b hb).lt⟩
  rw [hs.cover, coverCount_pos] at hheld
  obtain ⟨s, hmem, hholds⟩ := hheld
  obtain ⟨p, hp, rfl⟩ := List.mem_map.mp hmem
  have haligned := hs.taken_aligned p hp
  have hpos := hs.taken_pos p hp
  simp only [Span.Holds, pageSpan, pageSize] at *
  omega

theorem length_lt (hs : HeapShape free live taken) : free.length < walkLimit := by
  rw [← List.length_map (f := Block.addr)]
  apply length_lt_of_aligned 16 walkLimit _ (by decide) hs.free_nodup
  · intro a ha
    obtain ⟨b, hb, rfl⟩ := List.mem_map.mp ha
    exact (hs.free_ok b hb).addr_aligned
  · intro a ha
    obtain ⟨b, hb, rfl⟩ := List.mem_map.mp ha
    exact (hs.free_ok b hb).addr_pos
  · intro a ha
    obtain ⟨b, hb, rfl⟩ := List.mem_map.mp ha
    have hlt := (hs.free_ok b hb).lt
    have hbound := (hs.free_ok b hb).bounded
    unfold walkLimit
    omega

theorem taken_length_lt (hs : HeapShape free live taken) : taken.length < 2 ^ 20 :=
  length_lt_of_aligned pageSize _ taken (by decide) hs.taken_nodup
    hs.taken_aligned hs.taken_pos hs.taken_bounded

theorem of_perm {free' live' : List Block} (hs : HeapShape free live taken)
    (hperm : (free' ++ live').Perm (free ++ live))
    (hsorted : free'.Pairwise fun b c => b.addr < c.addr) : HeapShape free' live' taken := by
  refine ⟨fun b hb => hs.ok b (hperm.mem_iff.mp hb), hsorted, ?_, ?_, hs.taken_nodup,
    hs.taken_aligned, hs.taken_pos, hs.taken_bounded⟩
  · intro a
    rw [← hs.cover, coverCount_perm (hperm.map Block.span)]
  · rw [← hs.total]
    exact (hperm.map _).sum_eq

theorem perm_live {live' : List Block} (hs : HeapShape free live taken)
    (hperm : live.Perm live') : HeapShape free live' taken :=
  hs.of_perm (hperm.symm.append_left free) hs.sorted

theorem insert {b : Block} (hs : HeapShape free (b :: live) taken) :
    HeapShape (insertBlock b free) live taken := by
  have hall : (insertBlock b free ++ live).Perm (free ++ b :: live) :=
    ((insertBlock_perm b free).append_right live).trans List.perm_middle.symm
  exact hs.of_perm hall (insertBlock_sorted b free hs.sorted (hs.live_addr_notMem b (by simp)))

theorem unlink {before after : List Block} {b : Block}
    (hs : HeapShape (before ++ b :: after) live taken) :
    HeapShape (before ++ after) (b :: live) taken := by
  have hperm : (before ++ after ++ b :: live).Perm (before ++ b :: after ++ live) :=
    List.perm_middle.trans (List.perm_middle.append_right live).symm
  exact hs.of_perm hperm
    (List.Pairwise.sublist ((List.sublist_cons_self b after).append_left before) hs.sorted)

end HeapShape

theorem coalesceList_addrs (free : List Block) :
    ((coalesceList free).map Block.addr).Sublist (free.map Block.addr) := by
  fun_induction coalesceList free with
  | case1 => simp
  | case2 b => simp
  | case3 b c l hadj ih => exact (ih.cons c.addr).cons_cons b.addr
  | case4 b c l hadj ih => exact ih.cons_cons b.addr

theorem coverCount_coalesceList (free : List Block) (hok : ∀ b ∈ free, b.Ok) (a : Nat) :
    coverCount ((coalesceList free).map Block.span) a = coverCount (free.map Block.span) a := by
  fun_induction coalesceList free with
  | case1 => rfl
  | case2 b => rfl
  | case3 b c l hadj ih =>
      have hb := (hok b (by simp)).lt
      have hc := (hok c (by simp)).lt
      have hspan : c.span = ⟨b.fin, c.fin⟩ := by rw [Block.span, hadj]
      have hjoined : (⟨b.addr, b.size + (headerSize + c.size)⟩ : Block).span =
          ⟨b.addr, c.fin⟩ := by
        simp only [Block.span, Block.fin] at *
        congr 1
        omega
      rw [List.map_cons, List.map_cons, List.map_cons, hspan, hjoined, Block.span,
        coverCount_cut _ _ _ (by omega) (by omega), coverCount_cons, coverCount_cons,
        ih fun d hd => hok d (by simp [hd])]
  | case4 b c l hadj ih =>
      rw [List.map_cons, List.map_cons, coverCount_cons, coverCount_cons,
        ih fun d hd => hok d (by simp_all)]

theorem coalesceList_ok (free : List Block) (hok : ∀ b ∈ free, b.Ok) :
    ∀ b ∈ coalesceList free, b.Ok := by
  fun_induction coalesceList free with
  | case1 => simp
  | case2 b => exact hok
  | case3 b c l hadj ih =>
      intro d hd
      rcases List.mem_cons.mp hd with rfl | hd
      · have hb := hok b (by simp)
        have hc := hok c (by simp)
        have h1 := hb.size_aligned
        have h2 := hc.size_aligned
        have h3 := hb.size_pos
        have h4 := hc.bounded
        refine ⟨hb.addr_aligned, hb.addr_pos, ?_, ?_, ?_⟩ <;>
          simp only [Block.fin, headerSize] at * <;> omega
      · exact ih (fun e he => hok e (by simp [he])) d hd
  | case4 b c l hadj ih =>
      intro d hd
      rcases List.mem_cons.mp hd with rfl | hd
      · exact hok d (by simp)
      · exact ih (fun e he => hok e (by simp_all)) d hd

theorem coalesceList_total (free : List Block) :
    ((coalesceList free).map fun b => headerSize + b.size).sum =
      (free.map fun b => headerSize + b.size).sum := by
  fun_induction coalesceList free with
  | case1 => rfl
  | case2 b => rfl
  | case3 b c l hadj ih =>
      simp only [List.map_cons, List.sum_cons, ih]
      omega
  | case4 b c l hadj ih => simp only [List.map_cons, List.sum_cons, ih]

namespace HeapShape

variable {free live : List Block} {taken : List Nat}

theorem coalesce (hs : HeapShape free live taken) :
    HeapShape (coalesceList free) live taken := by
  refine ⟨?_, ?_, ?_, ?_, hs.taken_nodup, hs.taken_aligned, hs.taken_pos, hs.taken_bounded⟩
  · intro b hb
    rcases List.mem_append.mp hb with hb | hb
    · exact coalesceList_ok free hs.free_ok b hb
    · exact hs.live_ok b hb
  · have hsorted := hs.sorted
    rw [← List.pairwise_map (f := Block.addr) (R := fun x y => x < y)] at hsorted ⊢
    exact hsorted.sublist (coalesceList_addrs free)
  · intro a
    rw [← hs.cover, List.map_append, List.map_append, coverCount_append, coverCount_append,
      coverCount_coalesceList free hs.free_ok]
  · rw [← hs.total]
    simp only [List.map_append, List.sum_append, coalesceList_total]

theorem addPage (hs : HeapShape free live taken) (page : Nat) (hnew : page ∉ taken)
    (haligned : page % pageSize = 0) (hpos : 0 < page) (hbound : page < 2 ^ 32) :
    HeapShape free (⟨page, pageSize - headerSize⟩ :: live) (page :: taken) := by
  have hspan : (⟨page, pageSize - headerSize⟩ : Block).span = pageSpan page := by
    simp [Block.span, Block.fin, pageSpan, pageSize, headerSize]
  have hok : (⟨page, pageSize - headerSize⟩ : Block).Ok := by
    constructor <;> simp only [Block.fin, pageSize, headerSize] at * <;> omega
  have hall : (free ++ ⟨page, pageSize - headerSize⟩ :: live).Perm
      (⟨page, pageSize - headerSize⟩ :: (free ++ live)) := List.perm_middle
  refine ⟨?_, hs.sorted, ?_, ?_, List.nodup_cons.mpr ⟨hnew, hs.taken_nodup⟩, ?_, ?_, ?_⟩
  · intro b hb
    rcases List.mem_cons.mp (hall.mem_iff.mp hb) with rfl | hb
    · exact hok
    · exact hs.ok b hb
  · intro a
    rw [coverCount_perm (hall.map Block.span), List.map_cons, List.map_cons, hspan,
      coverCount_cons, coverCount_cons, hs.cover]
  · rw [(hall.map _).sum_eq, List.map_cons, List.sum_cons, hs.total, List.length_cons]
    simp only [pageSize, headerSize]
    omega
  · exact List.forall_mem_cons.mpr ⟨haligned, hs.taken_aligned⟩
  · exact List.forall_mem_cons.mpr ⟨hpos, hs.taken_pos⟩
  · exact List.forall_mem_cons.mpr ⟨hbound, hs.taken_bounded⟩

theorem sorted_cut {before after : List Block} {a b c : Block}
    (hs : HeapShape (before ++ c :: after) live taken) (ha : a.Ok) (hb : b.Ok)
    (hstart : a.addr = c.addr) (hmid : a.fin = b.addr) (hend : b.fin = c.fin) :
    (before ++ a :: b :: after).Pairwise fun b c => b.addr < c.addr := by
  have halt := ha.lt
  have hblt := hb.lt
  have hafter := (List.pairwise_cons.mp (List.pairwise_append.mp hs.ordered).2.1).1
  obtain ⟨hbefore, htail, hcross⟩ := List.pairwise_append.mp hs.sorted
  rw [List.pairwise_append, List.pairwise_cons, List.pairwise_cons, List.forall_mem_cons]
  refine ⟨hbefore, ⟨⟨by omega, ?_⟩, ?_, (List.pairwise_cons.mp htail).2⟩, ?_⟩
  · intro d hd
    have hle := hafter d hd
    omega
  · intro d hd
    have hle := hafter d hd
    omega
  · intro d hd
    have hlt := hcross d hd c List.mem_cons_self
    rw [List.forall_mem_cons, List.forall_mem_cons]
    exact ⟨by omega, by omega, fun e he => hcross d hd e (List.mem_cons_of_mem _ he)⟩

theorem cut {before after : List Block} {a b c : Block}
    (hs : HeapShape (before ++ c :: after) live taken) (ha : a.Ok) (hb : b.Ok)
    (hstart : a.addr = c.addr) (hmid : a.fin = b.addr) (hend : b.fin = c.fin) :
    HeapShape (before ++ a :: b :: after) live taken := by
  have halt := ha.lt
  have hblt := hb.lt
  have hnew : (before ++ a :: b :: after ++ live).Perm (a :: b :: (before ++ after ++ live)) := by
    refine (List.perm_middle.append_right live).trans (List.Perm.cons _ ?_)
    exact List.perm_middle.append_right live
  have hold : (before ++ c :: after ++ live).Perm (c :: (before ++ after ++ live)) :=
    List.perm_middle.append_right live
  refine ⟨?_, hs.sorted_cut ha hb hstart hmid hend, ?_, ?_, hs.taken_nodup, hs.taken_aligned,
    hs.taken_pos, hs.taken_bounded⟩
  · intro d hd
    rw [hnew.mem_iff, List.mem_cons, List.mem_cons] at hd
    rcases hd with rfl | rfl | hd
    · exact ha
    · exact hb
    · exact hs.ok d (hold.mem_iff.mpr (List.mem_cons_of_mem _ hd))
  · intro x
    rw [← hs.cover, coverCount_perm (hnew.map Block.span), coverCount_perm (hold.map Block.span),
      List.map_cons, List.map_cons, List.map_cons, Block.span, Block.span, Block.span, hstart, hmid,
      hend]
    exact coverCount_cut c.addr b.addr c.fin (by omega) (by omega) _ x
  · rw [← hs.total, (hnew.map _).sum_eq, (hold.map _).sum_eq]
    simp only [List.map_cons, List.sum_cons, Block.fin] at *
    omega

/-- A free block is split into the part that serves a request and the leftover. -/
theorem split {before after : List Block} {c : Block} {size : Nat}
    (hs : HeapShape (before ++ c :: after) live taken) (haligned : size % 16 = 0)
    (hpos : 16 ≤ size) :
    HeapShape (before ++ takenBlock c size :: (leftover c size ++ after)) live taken := by
  have hc := hs.free_ok c (by simp)
  obtain ⟨hcaligned, hcpos, hcsize, -, hcbounded⟩ := hc
  by_cases hsplit : c.size ≥ size + headerSize + minAlloc
  · rw [takenBlock, if_pos hsplit, leftover, if_pos hsplit, List.singleton_append]
    simp only [Block.fin, headerSize, minAlloc] at hcbounded hsplit
    apply hs.cut
    · constructor <;> simp only [Block.fin, headerSize] <;> omega
    · constructor <;> simp only [Block.fin, headerSize] <;> omega
    · rfl
    · rfl
    · simp only [Block.fin, headerSize]
      omega
  · rw [takenBlock, if_neg hsplit, leftover, if_neg hsplit, List.nil_append]
    exact hs

end HeapShape

end Magnos
