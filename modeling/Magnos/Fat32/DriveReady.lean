import Magnos.Framework.Word32

/-!
# Waiting for the drive

The polling loop of `ide_init` counts down in its condition and decides behind the loop from the
counter: the zero that a successful last poll leaves is taken for a timeout.
-/

namespace Magnos

/-- What the drive presents: a byte for each read of the status or the alternate status register. -/
abbrev StatusBytes := Nat → UInt8

def ideStatusRdy : UInt8 := 0x40

def ideStatusBsy : UInt8 := 0x80

def idePolls : Nat := 100000

/-- Four reads of the alternate status register. -/
def ide400nsDelay (time : Nat) : Nat := time + 4

/-- The loop of `ide_init` with the counter's value behind it: `timeout--` leaves `-1` when the
condition fails. -/
def ideInitLoop (status : StatusBytes) : Nat → Nat → Int × Nat
  | 0, time => (-1, time)
  | timeout + 1, time =>
      if status time &&& ideStatusBsy = 0 then (timeout, time + 1)
      else ideInitLoop status timeout (time + 1)

def ideInit (status : StatusBytes) (time : Nat) : Int × Nat :=
  let time := ide400nsDelay time
  let first := status time
  let time := time + 1
  if first = 0xFF then (-1, time)
  else
    let (timeout, time) := ideInitLoop status idePolls (ide400nsDelay time)
    if timeout ≤ 0 then (-1, time) else (0, time)

/-- The status that `ide_init` reads first. -/
def firstStatus (status : StatusBytes) (time : Nat) : UInt8 := status (time + 4)

/-- The status of a poll behind the selection of the drive. -/
def polledStatus (status : StatusBytes) (time i : Nat) : UInt8 := status (time + 9 + i)

theorem exists_poll_succ (P : Nat → Prop) (n time : Nat) :
    (∃ i < n + 1, P (time + i)) ↔ P time ∨ ∃ i < n, P (time + 1 + i) := by
  rw [Nat.exists_lt_succ_left]
  simp only [Nat.add_zero, Nat.add_assoc, Nat.add_comm 1]

theorem ideInitLoop_pos (status : StatusBytes) (n time : Nat) :
    0 < (ideInitLoop status (n + 1) time).1 ↔ ∃ i < n, status (time + i) &&& ideStatusBsy = 0 := by
  induction n generalizing time with
  | zero =>
      rw [ideInitLoop]
      split <;> simp [ideInitLoop]
  | succ n ih =>
      rw [exists_poll_succ fun t => status t &&& ideStatusBsy = 0, ideInitLoop]
      by_cases hready : status time &&& ideStatusBsy = 0
      · rw [if_pos hready]
        exact iff_of_true (Int.natCast_pos.mpr n.succ_pos) (.inl hready)
      · rw [if_neg hready, ih, or_iff_right hready]

theorem ideInit_eq_zero (status : StatusBytes) (time : Nat) :
    (ideInit status time).1 = 0 ↔ firstStatus status time ≠ 0xFF ∧
      ∃ i < 99999, polledStatus status time i &&& ideStatusBsy = 0 := by
  have hloop : 0 < (ideInitLoop status idePolls (time + 9)).1 ↔
      ∃ i < 99999, polledStatus status time i &&& ideStatusBsy = 0 :=
    ideInitLoop_pos status 99999 (time + 9)
  simp only [ideInit, ide400nsDelay, Nat.add_assoc, Nat.reduceAdd]
  rw [← hloop, firstStatus]
  by_cases hnone : status (time + 4) = 0xFF
  · simp [hnone]
  · rw [if_neg hnone, and_iff_right hnone, ← not_le]
    split
    · next hspent => simp [hspent]
    · next hleft => simp [hleft]

/-- `ide_init` accepts a drive if one of its 100000 polls finds it ready, exactly if the only such
poll is not the last one. -/
theorem ideInit_accepts_iff (status : StatusBytes) (time : Nat) :
    ((ideInit status time).1 = 0 ↔ firstStatus status time ≠ 0xFF ∧
        ∃ i < 100000, polledStatus status time i &&& ideStatusBsy = 0) ↔
      firstStatus status time = 0xFF ∨
        (∃ i < 99999, polledStatus status time i &&& ideStatusBsy = 0) ∨
        polledStatus status time 99999 &&& ideStatusBsy ≠ 0 := by
  have hpolls : (∃ i < 100000, polledStatus status time i &&& ideStatusBsy = 0) ↔
      (∃ i < 99999, polledStatus status time i &&& ideStatusBsy = 0) ∨
        polledStatus status time 99999 &&& ideStatusBsy = 0 := Nat.exists_lt_succ_right
  rw [ideInit_eq_zero, hpolls]
  by_cases hfirst : firstStatus status time = 0xFF
  · simp only [hfirst, ne_eq, not_true_eq_false, false_and, true_or]
  · by_cases hearly : ∃ i < 99999, polledStatus status time i &&& ideStatusBsy = 0
    · exact iff_of_true (and_congr_right' (iff_of_true hearly (.inl hearly))) (.inr (.inl hearly))
    · rw [or_iff_right hearly, or_iff_right hfirst, or_iff_right hearly, and_iff_right hfirst,
        and_iff_right hfirst, iff_false_left hearly]

/-- A drive that is busy up to the last poll. -/
def lateDrive : StatusBytes := fun i => if i < 100008 then ideStatusBsy else ideStatusRdy

/-- It is refused, although the last poll finds it ready. -/
theorem ideInit_refuses_late :
    ¬ ∀ (status : StatusBytes) (time : Nat), ((ideInit status time).1 = 0 ↔
      firstStatus status time ≠ 0xFF ∧
        ∃ i < 100000, polledStatus status time i &&& ideStatusBsy = 0) := by
  intro hclaim
  have hready : polledStatus lateDrive 0 99999 &&& ideStatusBsy = 0 := by decide
  have hbusy : ∀ i < 99999, polledStatus lateDrive 0 i &&& ideStatusBsy ≠ 0 := by
    intro i hi
    rw [polledStatus, lateDrive, if_pos (by omega)]
    decide
  have haccepted := (hclaim lateDrive 0).mpr ⟨by decide, 99999, by decide, hready⟩
  obtain ⟨-, i, hi, hclear⟩ := (ideInit_eq_zero lateDrive 0).mp haccepted
  exact hbusy i hi hclear

end Magnos
