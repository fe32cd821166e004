import Mathlib.Data.List.Basic
import Mathlib.Tactic

/-!
# Concatenations of equal pieces

A sequence cut into pieces of one width: what stands at a position is found in the piece
with that position's quotient, at its remainder.
-/

namespace Magnos.Framework

universe u v

variable {Item : Type u} {Elem : Type v} {f : Item → List Elem} {width : Nat}

theorem length_flatMap_const (l : List Item) (hwidth : ∀ a ∈ l, (f a).length = width) :
    (l.flatMap f).length = width * l.length := by
  induction l with
  | nil => simp
  | cons a l ih =>
      have ha := hwidth a (by simp)
      rw [List.flatMap_cons, List.length_append, ih fun b hb => hwidth b (by simp [hb]), ha,
        List.length_cons, Nat.mul_succ, Nat.add_comm]

theorem drop_flatMap_const (l : List Item) (i : Nat) (hwidth : ∀ a ∈ l, (f a).length = width) :
    (l.flatMap f).drop (width * i) = (l.drop i).flatMap f := by
  induction i generalizing l with
  | zero => simp
  | succ i ih =>
      cases l with
      | nil => simp
      | cons a l =>
          have ha := hwidth a (by simp)
          rw [List.flatMap_cons, List.drop_succ_cons, Nat.mul_succ, Nat.add_comm, ← ha,
            ← List.drop_drop, List.drop_left, ha]
          exact ih l fun b hb => hwidth b (by simp [hb])

theorem slice_flatMap_const (l : List Item) (a : Item) (i off n : Nat)
    (hwidth : ∀ a ∈ l, (f a).length = width) (hi : l[i]? = some a) (hfits : off + n ≤ width) :
    ((l.flatMap f).drop (width * i + off)).take n = ((f a).drop off).take n := by
  obtain ⟨hlt, ha⟩ := List.getElem?_eq_some_iff.mp hi
  have hpiece := hwidth a (ha ▸ List.getElem_mem hlt)
  rw [← List.drop_drop, drop_flatMap_const l i hwidth, List.drop_eq_getElem_cons hlt, ha,
    List.flatMap_cons, List.drop_append_of_le_length (by omega)]
  apply List.take_append_of_le_length
  rw [List.length_drop]
  omega

section Steps

variable {c p n : Nat} (hc : 0 < c) (hn : p % c + n ≤ c)
include hc hn

theorem add_div_of_boundary (hpos : 0 < n) (hend : (p + n) % c = 0) : (p + n) / c = p / c + 1 := by
  have hdiv := Nat.div_add_mod p c
  have hfull : p % c + n = c := by
    by_contra hne
    rw [← hdiv, Nat.add_assoc, Nat.mul_add_mod, Nat.mod_eq_of_lt (by omega)] at hend
    omega
  rw [← hdiv, Nat.add_assoc, hfull, ← Nat.mul_succ, Nat.mul_div_cancel_left _ hc, hdiv]

theorem add_div_of_inside (hend : (p + n) % c ≠ 0) : (p + n) / c = p / c := by
  have hdiv := Nat.div_add_mod p c
  have hlt : p % c + n < c := by
    by_contra hge
    have hfull : p % c + n = c := by omega
    rw [← hdiv, Nat.add_assoc, hfull, ← Nat.mul_succ, Nat.mul_mod_right] at hend
    exact hend rfl
  rw [← hdiv, Nat.add_assoc, Nat.mul_add_div hc, Nat.div_eq_of_lt hlt, hdiv, Nat.add_zero]

end Steps

end Magnos.Framework
