import Mathlib.Data.Finset.Max
import Mathlib.Data.Finset.Sort
import Mathlib.Data.Nat.Count
import Magnos.Framework.Transition

/-!
# Pools

A pool is a finite set of items.  A request takes its least item and is refused when there is
none; any item may be given back.  An item that was taken is not taken again before it is
given back.
-/

namespace Magnos.Framework

universe u

variable {Item : Type u} [LinearOrder Item]

inductive PoolCall (Item : Type u) where
  | take (item : Item)
  | refuse
  | give (item : Item)
  | pass

def poolStep (pool : Finset Item) : PoolCall Item → Finset Item → Prop
  | .take a, pool' => IsLeast (pool : Set Item) a ∧ pool' = pool.erase a
  | .refuse, pool' => pool = ∅ ∧ pool' = pool
  | .give a, pool' => pool' = insert a pool
  | .pass, pool' => pool' = pool

theorem poolStep_not_mem {a : Item} {pool pool' : Finset Item} {call : PoolCall Item}
    (hout : a ∉ pool) (hcall : call ≠ .give a) (hstep : poolStep pool call pool') :
    a ∉ pool' := by
  cases call with
  | take b =>
      obtain ⟨-, rfl⟩ := hstep
      exact fun h => hout (Finset.mem_of_mem_erase h)
  | refuse =>
      obtain ⟨-, rfl⟩ := hstep
      exact hout
  | give b =>
      obtain rfl : pool' = insert b pool := hstep
      rw [Finset.mem_insert, not_or]
      exact ⟨fun h => hcall (by rw [h]), hout⟩
  | pass =>
      obtain rfl : pool' = pool := hstep
      exact hout

theorem poolRun_give_between {a : Item} {pool pool' : Finset Item}
    {before between after : List (PoolCall Item)}
    (hrun : Run poolStep pool (before ++ .take a :: (between ++ .take a :: after)) pool') :
    .give a ∈ between := by
  by_contra hnone
  obtain ⟨pool₁, -, hrun⟩ := hrun.of_append
  obtain ⟨pool₂, hfirst, hrun⟩ := hrun.of_cons
  obtain ⟨pool₃, hbetween, hrun⟩ := hrun.of_append
  obtain ⟨pool₄, hsecond, -⟩ := hrun.of_cons
  have hout : a ∉ pool₂ := by
    rw [hfirst.2]
    exact Finset.notMem_erase a pool₁
  have hkept : ∀ call ∈ between, call ≠ .give a := by
    rintro call hcall rfl
    exact hnone hcall
  have hstill : a ∉ pool₃ :=
    hbetween.invariant_of_labels (fun _ _ _ hs hl hstep => poolStep_not_mem hs hl hstep) hkept hout
  exact hstill hsecond.1.1

/-- The least `n` items of a pool, in order: what `n` requests take. -/
def lowest (pool : Finset Item) (n : Nat) : List Item := (pool.sort (· ≤ ·)).take n

@[simp]
theorem lowest_zero (pool : Finset Item) : lowest pool 0 = [] := rfl

@[simp]
theorem lowest_empty (n : Nat) : lowest (∅ : Finset Item) n = [] := by
  rw [lowest, Finset.sort_empty, List.take_nil]

theorem lowest_succ {pool : Finset Item} {a : Item} (hleast : IsLeast (pool : Set Item) a)
    (n : Nat) : lowest pool (n + 1) = a :: lowest (pool.erase a) n := by
  have hsort := Finset.sort_insert (· ≤ ·) (s := pool.erase a) (a := a)
    (fun b hb => hleast.2 (Finset.mem_of_mem_erase hb)) (Finset.notMem_erase a pool)
  rw [Finset.insert_erase hleast.1] at hsort
  rw [lowest, hsort, List.take_succ_cons, lowest]

theorem lowest_length (pool : Finset Item) (n : Nat) :
    (lowest pool n).length = min n pool.card := by
  rw [lowest, List.length_take, Finset.length_sort]

theorem lowest_subset (pool : Finset Item) (n : Nat) : ∀ a ∈ lowest pool n, a ∈ pool := by
  intro a ha
  exact (Finset.mem_sort (· ≤ ·)).mp (List.mem_of_mem_take ha)

/-- Taking the least item and then the least `n` of the others leaves what taking the least
`n + 1` items leaves. -/
theorem erase_sdiff_lowest {pool : Finset Item} {a : Item} (hleast : IsLeast (pool : Set Item) a)
    (n : Nat) : pool.erase a \ (lowest (pool.erase a) n).toFinset =
      pool \ (lowest pool (n + 1)).toFinset := by
  rw [lowest_succ hleast, List.toFinset_cons, Finset.sdiff_insert, Finset.erase_sdiff_comm]

theorem lowest_eq_range' {pool : Finset Nat} {a n : Nat} (hbelow : ∀ b ∈ pool, a ≤ b)
    (hmem : ∀ i < n, a + i ∈ pool) : lowest pool n = List.range' a n := by
  induction n generalizing pool a with
  | zero => rfl
  | succ n ih =>
      have hleast : IsLeast (pool : Set Nat) a := ⟨hmem 0 (Nat.succ_pos n), hbelow⟩
      have hrest : lowest (pool.erase a) n = List.range' (a + 1) n := by
        apply ih
        · intro b hb
          have hne := Finset.ne_of_mem_erase hb
          have hle := hbelow b (Finset.mem_of_mem_erase hb)
          omega
        · intro i hi
          have hin := hmem (i + 1) (by omega)
          rw [Finset.mem_erase]
          exact ⟨by omega, by rwa [Nat.add_assoc, Nat.add_comm 1]⟩
      rw [lowest_succ hleast, hrest, List.range'_succ]

theorem foldl_range_count (holds : Nat → Prop) [DecidablePred holds] (n start : Nat) :
    (List.range n).foldl (fun count i => if holds i then count + 1 else count) start =
      start + Nat.count holds n := by
  induction n with
  | zero => rfl
  | succ n ih =>
      rw [List.range_succ, List.foldl_append, ih, Nat.count_succ]
      simp only [List.foldl_cons, List.foldl_nil]
      split <;> rfl

end Magnos.Framework
