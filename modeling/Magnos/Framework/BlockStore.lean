import Mathlib.Tactic

/-!
# Block stores

A store of numbered blocks, some of which cannot be accessed.  A transfer moves a run of blocks in
order and ends at the first bad one.
-/

namespace Magnos.Framework

variable {Block : Type}

/-- The blocks of a run before its first bad one. -/
def sound (bad : Nat → Bool) (lba n : Nat) : List Nat :=
  (List.range' lba n).takeWhile fun l => !bad l

@[simp] theorem sound_zero (bad : Nat → Bool) (lba : Nat) : sound bad lba 0 = [] := rfl

theorem sound_bad {bad : Nat → Bool} {lba : Nat} (hbad : bad lba = true) (n : Nat) :
    sound bad lba (n + 1) = [] := by
  simp [sound, List.range'_succ, hbad]

theorem sound_good {bad : Nat → Bool} {lba : Nat} (hgood : bad lba = false) (n : Nat) :
    sound bad lba (n + 1) = lba :: sound bad (lba + 1) n := by
  simp [sound, List.range'_succ, hgood]

theorem sound_of_good {bad : Nat → Bool} {lba n : Nat}
    (hgood : ∀ l, lba ≤ l → l < lba + n → bad l = false) : sound bad lba n = List.range' lba n := by
  induction n generalizing lba with
  | zero => rfl
  | succ n ih =>
      rw [sound_good (hgood lba le_rfl (by omega)), List.range'_succ, ih]
      intro l hle hlt
      exact hgood l (by omega) (by omega)

/-- What reading a run delivers. -/
def readBlocks (disk : Nat → Block) (bad : Nat → Bool) (lba n : Nat) : List Block :=
  (sound bad lba n).map disk

/-- What writing a run leaves. -/
def writeBlocks (bad : Nat → Bool) : (Nat → Block) → Nat → List Block → Nat → Block
  | disk, _, [] => disk
  | disk, lba, b :: bs =>
      if bad lba then disk else writeBlocks bad (Function.update disk lba b) (lba + 1) bs

theorem writeBlocks_below (bad : Nat → Bool) (disk : Nat → Block) (lba : Nat) (bs : List Block)
    {l : Nat} (hl : l < lba) : writeBlocks bad disk lba bs l = disk l := by
  induction bs generalizing disk lba with
  | nil => rfl
  | cons b bs ih =>
      rw [writeBlocks]
      split
      · rfl
      · rw [ih _ _ (by omega), Function.update_of_ne (by omega)]

/-- Only the good blocks at the front of the run are written. -/
theorem writeBlocks_apply (bad : Nat → Bool) (disk : Nat → Block) (lba : Nat) (bs : List Block)
    (l : Nat) :
    writeBlocks bad disk lba bs l =
      if l ∈ sound bad lba bs.length then bs.getD (l - lba) (disk l) else disk l := by
  induction bs generalizing disk lba with
  | nil => simp [writeBlocks]
  | cons b bs ih =>
      rw [writeBlocks, List.length_cons]
      cases hbad : bad lba with
      | true => simp [sound_bad hbad]
      | false =>
          rw [sound_good hbad, if_neg Bool.false_ne_true]
          rcases Nat.lt_trichotomy l lba with hl | rfl | hl
          · have hout : l ∉ sound bad (lba + 1) bs.length := by
              intro hmem
              have hrange := (List.takeWhile_subset _) hmem
              rw [List.mem_range'_1] at hrange
              omega
            rw [writeBlocks_below _ _ _ _ (by omega), Function.update_of_ne (by omega), if_neg]
            simp [hout]
            omega
          · rw [writeBlocks_below _ _ _ _ (by omega), Function.update_self]
            simp
          · have hindex : l - lba = l - (lba + 1) + 1 := by omega
            rw [ih, Function.update_of_ne (by omega), hindex, List.getD_cons_succ]
            simp [show l ≠ lba by omega]

theorem readBlocks_writeBlocks (bad : Nat → Bool) (disk : Nat → Block) (lba : Nat) (bs : List Block)
    (hgood : ∀ l, lba ≤ l → l < lba + bs.length → bad l = false) :
    readBlocks (writeBlocks bad disk lba bs) bad lba bs.length = bs := by
  have hsound := sound_of_good hgood
  rw [readBlocks, hsound]
  apply List.ext_getElem
  · simp
  · intro i hi hlt
    simp only [List.getElem_map, List.getElem_range', Nat.one_mul]
    rw [writeBlocks_apply, hsound, if_pos (by rw [List.mem_range'_1]; omega), Nat.add_sub_cancel_left]
    simp [hlt]

end Magnos.Framework
