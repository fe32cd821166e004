import Mathlib.Data.List.Basic

/-!
# Counting loops

A counting loop with an early return is `List.findSome?` over a range.  The lemmas below say
what such a loop returns in terms of the least index at which it stops.  A loop without one is a
fold over the range, and keeps what each of its rounds keeps.
-/

namespace Magnos.Framework

universe u

variable {Result : Type u}

theorem findSome?_range_eq_some (n : Nat) (visit : Nat → Option Result) (r : Result) :
    (List.range n).findSome? visit = some r ↔
      ∃ i, i < n ∧ visit i = some r ∧ ∀ j, j < i → visit j = none := by
  induction n with
  | zero => simp
  | succ n ih =>
      rw [List.range_succ, List.findSome?_append]
      constructor
      · intro hfound
        cases hinit : (List.range n).findSome? visit with
        | some s =>
            rw [hinit, Option.some_or, Option.some.injEq] at hfound
            subst s
            obtain ⟨i, hi, hstop, hbefore⟩ := ih.mp hinit
            exact ⟨i, by omega, hstop, hbefore⟩
        | none =>
            rw [hinit, Option.none_or] at hfound
            rw [List.findSome?_eq_none_iff] at hinit
            refine ⟨n, by omega, by simpa using hfound, ?_⟩
            intro j hj
            exact hinit j (List.mem_range.mpr hj)
      · rintro ⟨i, hi, hstop, hbefore⟩
        by_cases hlast : i < n
        · rw [ih.mpr ⟨i, hlast, hstop, hbefore⟩, Option.some_or]
        · have heq : i = n := by omega
          subst i
          have hinit : (List.range n).findSome? visit = none := by
            rw [List.findSome?_eq_none_iff]
            intro j hj
            exact hbefore j (List.mem_range.mp hj)
          rw [hinit, Option.none_or]
          simpa using hstop

theorem foldl_range_induct {State : Type u} {visit : State → Nat → State}
    (inv : Nat → State → Prop) {n : Nat} {s : State} (hstart : inv 0 s)
    (hround : ∀ i < n, ∀ t, inv i t → inv (i + 1) (visit t i)) :
    inv n ((List.range n).foldl visit s) := by
  induction n with
  | zero => exact hstart
  | succ n ih =>
      rw [List.range_succ, List.foldl_append]
      apply hround n n.lt_succ_self
      apply ih
      intro i hi
      exact hround i (Nat.lt_succ_of_lt hi)

theorem foldl_grid_induct {State : Type u} {visit : State → Nat → Nat → State}
    (inv : Nat → State → Prop) {h w : Nat} {s : State} (hstart : inv 0 s)
    (hround : ∀ y < h, ∀ x < w, ∀ t, inv (y * w + x) t → inv (y * w + x + 1) (visit t y x)) :
    inv (h * w) ((List.range h).foldl
      (fun t y => (List.range w).foldl (fun t x => visit t y x) t) s) := by
  apply foldl_range_induct fun y => inv (y * w)
  · rwa [Nat.zero_mul]
  · intro y hy t ht
    rw [Nat.succ_mul]
    exact foldl_range_induct (fun x => inv (y * w + x)) ht (hround y hy)

theorem findSome?_range_eq_none (n : Nat) (visit : Nat → Option Result) :
    (List.range n).findSome? visit = none ↔ ∀ i, i < n → visit i = none := by
  simp [List.findSome?_eq_none_iff]

end Magnos.Framework
