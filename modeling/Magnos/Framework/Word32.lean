import Mathlib.Order.Interval.Finset.Nat
import Mathlib.Tactic

/-!
# Wrapping 32-bit arithmetic on naturals

Machine words are naturals below `2 ^ 32`; sums are reduced where they are formed and
subtraction borrows from `2 ^ 32`.
-/

namespace Magnos.Framework

/-- Subtraction of 32-bit words. -/
def sub32 (a b : Nat) : Nat := (a + (2 ^ 32 - b)) % 2 ^ 32

theorem sub32_of_le {a b : Nat} (hle : b ≤ a) (ha : a < 2 ^ 32) : sub32 a b = a - b := by
  unfold sub32
  omega

theorem and_highMask (k n : Nat) (hk : k ≤ 32) (hn : n < 2 ^ 32) :
    n &&& (2 ^ 32 - 2 ^ k) = n / 2 ^ k * 2 ^ k := by
  have hmask : 2 ^ 32 - 2 ^ k = (2 ^ (32 - k) - 1) * 2 ^ k := by
    rw [Nat.sub_mul, Nat.one_mul, ← Nat.pow_add, Nat.sub_add_cancel hk]
  have hbit : ∀ i, (n &&& (2 ^ 32 - 2 ^ k)).testBit i = (n / 2 ^ k * 2 ^ k).testBit i := by
    intro i
    rw [Nat.testBit_and, hmask, Nat.testBit_mul_two_pow, Nat.testBit_mul_two_pow,
      Nat.testBit_two_pow_sub_one]
    by_cases hlow : k ≤ i
    · rw [Nat.testBit_div_two_pow, Nat.sub_add_cancel hlow]
      by_cases hhigh : i - k < 32 - k
      · simp [hlow, hhigh]
      · have hbig : n < 2 ^ i := lt_of_lt_of_le hn (Nat.pow_le_pow_right (by decide) (by omega))
        simp [hhigh, Nat.testBit_lt_two_pow hbig]
    · simp [hlow]
  exact Nat.eq_of_testBit_eq hbit

theorem or_low (k a b : Nat) (hb : b < 2 ^ k) : a * 2 ^ k ||| b = a * 2 ^ k + b := by
  rw [Nat.mul_comm, Nat.two_pow_add_eq_or_of_lt hb]

theorem or_low_and (k a b mask : Nat) (hmask : mask < 2 ^ k) :
    (a * 2 ^ k ||| b) &&& mask = b &&& mask := by
  apply Nat.eq_of_testBit_eq
  intro i
  rw [Nat.testBit_and, Nat.testBit_or, Nat.testBit_and, Nat.testBit_mul_two_pow]
  by_cases hlow : k ≤ i
  · have hbig : mask < 2 ^ i := lt_of_lt_of_le hmask (Nat.pow_le_pow_right (by decide) hlow)
    simp [Nat.testBit_lt_two_pow hbig]
  · simp [hlow]

/-- A word read as a signed `int`. -/
def toInt32 (n : Nat) : Int := if n < 2 ^ 31 then n else (n : Int) - 2 ^ 32

theorem toInt32_pos {n : Nat} (hn : n < 2 ^ 32) (hpos : 0 < (toInt32 n).toNat) :
    n < 2 ^ 31 ∧ (toInt32 n).toNat = n := by
  unfold toInt32 at *
  split at hpos
  · next hsmall => exact ⟨hsmall, by rw [if_pos hsmall, Int.toNat_natCast]⟩
  · omega

theorem length_lt_of_aligned (unit n : Nat) (addrs : List Nat) (hn : 0 < n)
    (hnodup : addrs.Nodup) (haligned : ∀ a ∈ addrs, a % unit = 0) (hpos : ∀ a ∈ addrs, 0 < a)
    (hbound : ∀ a ∈ addrs, a < unit * n) : addrs.length < n := by
  have hdiv : ∀ a ∈ addrs, unit * (a / unit) = a := by
    intro a ha
    exact Nat.mul_div_cancel' (Nat.dvd_of_mod_eq_zero (haligned a ha))
  have hquot : (addrs.map (· / unit)).Nodup := by
    apply hnodup.map_on
    intro a ha b hb heq
    rw [← hdiv a ha, ← hdiv b hb, heq]
  have hsub : (addrs.map (· / unit)).toFinset ⊆ Finset.Ioo 0 n := by
    intro q hq
    rw [List.mem_toFinset, List.mem_map] at hq
    obtain ⟨a, ha, rfl⟩ := hq
    rw [Finset.mem_Ioo]
    constructor
    · by_contra hzero
      have hmul := hdiv a ha
      rw [Nat.eq_zero_of_not_pos hzero, Nat.mul_zero] at hmul
      exact absurd (hpos a ha) (by omega)
    · exact Nat.div_lt_of_lt_mul (hbound a ha)
  have hcard := Finset.card_le_card hsub
  rw [List.toFinset_card_of_nodup hquot, Nat.card_Ioo, List.length_map] at hcard
  omega

end Magnos.Framework
