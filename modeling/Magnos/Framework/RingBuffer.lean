import Mathlib.Tactic

/-!
# Ring buffers

A queue in a circular array of `n` slots: `head` is the next slot to write and `tail` the next
one to read.  One slot stays free, so that the full ring can be told from the empty one.
-/

namespace Magnos.Framework

structure RingBuffer (Elem : Type*) where
  slot : Nat → Elem
  head : Nat
  tail : Nat

namespace RingBuffer

variable {Elem : Type*} {n : Nat} {r : RingBuffer Elem} {queue : List Elem} {a : Elem}

def put (n : Nat) (r : RingBuffer Elem) (a : Elem) : RingBuffer Elem :=
  { r with slot := Function.update r.slot r.head a, head := (r.head + 1) % n }

def advance (n : Nat) (r : RingBuffer Elem) : RingBuffer Elem := { r with tail := (r.tail + 1) % n }

/-- The ring holds the elements of a queue, the first to be read first. -/
structure Holds (n : Nat) (r : RingBuffer Elem) (queue : List Elem) : Prop where
  tail_lt : r.tail < n
  short : queue.length < n
  head_eq : r.head = (r.tail + queue.length) % n
  entry : ∀ i b, queue[i]? = some b → r.slot ((r.tail + i) % n) = b

theorem mod_of_lt_double {x : Nat} (h : x < 2 * n) : x % n = if x < n then x else x - n := by
  split
  · next hlt => exact Nat.mod_eq_of_lt hlt
  · next hge =>
      rw [Nat.mod_eq_sub_mod (Nat.le_of_not_lt hge)]
      exact Nat.mod_eq_of_lt (by omega)

theorem holds_nil (slot : Nat → Elem) (hn : 0 < n) : Holds n ⟨slot, 0, 0⟩ [] :=
  ⟨hn, hn, (Nat.mod_eq_of_lt hn).symm, fun i b h => by cases h⟩

namespace Holds

theorem empty_iff (h : Holds n r queue) : r.tail = r.head ↔ queue = [] := by
  have htail := h.tail_lt
  have hshort := h.short
  rw [h.head_eq, mod_of_lt_double (by omega), ← List.length_eq_zero_iff]
  split <;> omega

theorem full_iff (h : Holds n r queue) : (r.head + 1) % n = r.tail ↔ queue.length + 1 = n := by
  have htail := h.tail_lt
  have hshort := h.short
  rw [h.head_eq, Nat.mod_add_mod, Nat.add_assoc, mod_of_lt_double (by omega)]
  split <;> omega

theorem entry_ne_head (h : Holds n r queue) {i : Nat} (hi : i < queue.length) :
    (r.tail + i) % n ≠ r.head := by
  have htail := h.tail_lt
  have hshort := h.short
  rw [h.head_eq, mod_of_lt_double (by omega), mod_of_lt_double (by omega)]
  split <;> split <;> omega

theorem put (h : Holds n r queue) (hroom : (r.head + 1) % n ≠ r.tail) (a : Elem) :
    Holds n (r.put n a) (queue ++ [a]) := by
  have hshort := h.short
  have hfull := h.full_iff.not.mp hroom
  refine ⟨h.tail_lt, ?_, ?_, ?_⟩
  · rw [List.length_append, List.length_singleton]
    omega
  · show (r.head + 1) % n = (r.tail + (queue ++ [a]).length) % n
    rw [h.head_eq, Nat.mod_add_mod, List.length_append, List.length_singleton, Nat.add_assoc]
  · intro i b hi
    show Function.update r.slot r.head a ((r.tail + i) % n) = b
    rw [List.getElem?_append] at hi
    split at hi
    · next hlt =>
        rw [Function.update_of_ne (h.entry_ne_head hlt)]
        exact h.entry i b hi
    · next hge =>
        obtain ⟨hzero, rfl⟩ : i - queue.length = 0 ∧ a = b := by
          simpa [List.getElem?_singleton] using hi
        obtain rfl : i = queue.length := by omega
        rw [← h.head_eq, Function.update_self]

theorem first (h : Holds n r (a :: queue)) : r.slot r.tail = a := by
  have hentry := h.entry 0 a rfl
  rwa [Nat.add_zero, Nat.mod_eq_of_lt h.tail_lt] at hentry

theorem advance (h : Holds n r (a :: queue)) : Holds n (r.advance n) queue := by
  have hshort := h.short
  rw [List.length_cons] at hshort
  refine ⟨Nat.mod_lt _ (by omega), by omega, ?_, ?_⟩
  · show r.head = ((r.tail + 1) % n + queue.length) % n
    rw [h.head_eq, Nat.mod_add_mod, List.length_cons, Nat.add_assoc, Nat.add_comm 1]
  · intro i b hi
    show r.slot (((r.tail + 1) % n + i) % n) = b
    rw [Nat.mod_add_mod, Nat.add_assoc, Nat.add_comm 1]
    exact h.entry (i + 1) b hi

end Holds

end RingBuffer

end Magnos.Framework
