import Mathlib.Data.List.Nodup
import Mathlib.Data.List.Perm.Subperm

/-!
# Round robin over a ring of slots

From slot `cur` of `n` the search goes through `cur + 1`, …, `cur + n`, and stops at the first live
slot.  Repeated searches visit the live slots in the order of one trip around the ring.
-/

namespace Magnos.Framework

/-- The slots in the order in which a search from `cur` meets them; `cur` is the last. -/
def cycle (n cur : Nat) : List Nat := (List.range' 1 n).map fun i => (cur + i) % n

/-- The slots at which the first `k` of repeated searches stop. -/
def visits (live : Nat → Bool) (n : Nat) : Nat → Nat → List Nat
  | 0, _ => []
  | k + 1, cur =>
      match (cycle n cur).find? live with
      | none => []
      | some next => next :: visits live n k next

variable {live : Nat → Bool} {n cur : Nat}

@[simp] theorem length_cycle : (cycle n cur).length = n := by simp [cycle]

theorem getElem_cycle {i : Nat} (hi : i < (cycle n cur).length) :
    (cycle n cur)[i] = (cur + (1 + i)) % n := by
  simp [cycle]

theorem mem_cycle (hcur : cur < n) {slot : Nat} : slot ∈ cycle n cur ↔ slot < n := by
  simp only [cycle, List.mem_map, List.mem_range'_1]
  constructor
  · rintro ⟨i, -, rfl⟩
    exact Nat.mod_lt _ (by omega)
  · intro hslot
    by_cases hle : slot ≤ cur
    · refine ⟨slot + n - cur, by omega, ?_⟩
      rw [show cur + (slot + n - cur) = slot + n by omega, Nat.add_mod_right, Nat.mod_eq_of_lt hslot]
    · refine ⟨slot - cur, by omega, ?_⟩
      rw [show cur + (slot - cur) = slot by omega, Nat.mod_eq_of_lt hslot]

theorem cycle_perm (hcur : cur < n) : (cycle n cur).Perm (List.range n) := by
  have hsub : List.range n ⊆ cycle n cur := by
    intro slot hslot
    rw [List.mem_range] at hslot
    exact (mem_cycle hcur).mpr hslot
  have hsubperm : (List.range n).Subperm (cycle n cur) := List.subperm_of_subset List.nodup_range hsub
  exact (hsubperm.perm_of_length_le (by simp)).symm

theorem nodup_cycle (hcur : cur < n) : (cycle n cur).Nodup :=
  (cycle_perm hcur).nodup_iff.mpr List.nodup_range

theorem cycle_last (hcur : cur < n) : ∃ init, cycle n cur = init ++ [cur] := by
  refine ⟨(List.range' 1 (n - 1)).map fun i => (cur + i) % n, ?_⟩
  obtain ⟨m, rfl⟩ : ∃ m, n = m + 1 := ⟨n - 1, by omega⟩
  simp [cycle, List.range'_1_concat, Nat.add_comm 1 m, Nat.mod_eq_of_lt hcur]

/-- A search that comes back to its slot has met no other live one. -/
theorem eq_of_find_cycle (hcur : cur < n) (hfind : (cycle n cur).find? live = some cur) {slot : Nat}
    (hslot : slot < n) (hlive : live slot = true) : slot = cur := by
  obtain ⟨init, hinit⟩ := cycle_last hcur
  have hnodup := nodup_cycle hcur
  have hmem := (mem_cycle hcur).mpr hslot
  rw [hinit] at hfind hnodup hmem
  rw [List.find?_append, Option.or_eq_some_iff] at hfind
  rcases hfind with hearly | ⟨hnone, -⟩
  · exact absurd (List.mem_of_find?_eq_some hearly) (by simpa using List.disjoint_of_nodup_append hnodup)
  · rw [List.mem_append, List.mem_singleton] at hmem
    exact hmem.resolve_left fun hin => List.find?_eq_none.mp hnone slot hin hlive

theorem cycle_add {j : Nat} (hj : j ≤ n) :
    cycle n ((cur + j) % n) = (cycle n cur).drop j ++ (cycle n cur).take j := by
  apply List.ext_getElem
  · simp
    omega
  · intro i hi _
    rw [length_cycle] at hi
    rw [getElem_cycle, Nat.mod_add_mod, List.getElem_append]
    split
    · next h =>
        rw [List.getElem_drop, getElem_cycle]
        congr 1
        omega
    · next h =>
        simp only [List.length_drop, length_cycle] at h ⊢
        rw [List.getElem_take, getElem_cycle, ← Nat.add_mod_right (cur + _)]
        congr 1
        omega

theorem visits_from {j : Nat} {quiet rest : List Nat} (hj : j ≤ n)
    (hsplit : (cycle n cur).drop j = quiet ++ rest) (hquiet : ∀ slot ∈ quiet, live slot = false) :
    visits live n (rest.filter live).length ((cur + j) % n) = rest.filter live := by
  induction rest generalizing j quiet with
  | nil => rfl
  | cons slot rest ih =>
      cases hlive : live slot with
      | false =>
          rw [List.filter_cons_of_neg (by simp [hlive])]
          have hnext : (cycle n cur).drop j = (quiet ++ [slot]) ++ rest := by simpa using hsplit
          apply ih hj hnext
          simpa [or_imp, forall_and, hlive] using hquiet
      | true =>
          have hdrop : (cycle n cur).drop (j + quiet.length) = slot :: rest := by
            rw [← List.drop_drop, hsplit, List.drop_left]
          have hlt : j + quiet.length < (cycle n cur).length := by
            by_contra hge
            rw [List.drop_eq_nil_of_le (by omega)] at hdrop
            simp at hdrop
          rw [List.drop_eq_getElem_cons hlt, List.cons.injEq, getElem_cycle, Nat.add_comm 1] at hdrop
          have hfind : (cycle n ((cur + j) % n)).find? live = some slot := by
            rw [cycle_add hj, hsplit, List.append_assoc, List.find?_append,
              List.find?_eq_none.mpr (by simpa using hquiet)]
            simp [hlive]
          rw [List.filter_cons_of_pos hlive, List.length_cons, visits, hfind]
          simp only [List.cons.injEq, true_and]
          rw [length_cycle] at hlt
          rw [← hdrop.1]
          exact ih hlt (hdrop.2.trans (List.nil_append rest).symm) (by simp)

theorem visits_cycle (live : Nat → Bool) (hcur : cur < n) :
    visits live n ((cycle n cur).filter live).length cur = (cycle n cur).filter live := by
  have hsplit : (cycle n cur).drop 0 = [] ++ cycle n cur := rfl
  have hquiet : ∀ slot ∈ [], live slot = false := by simp
  have hvisits := visits_from (Nat.zero_le n) hsplit hquiet
  rwa [Nat.add_zero, Nat.mod_eq_of_lt hcur] at hvisits

end Magnos.Framework
