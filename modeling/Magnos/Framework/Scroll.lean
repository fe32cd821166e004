import Mathlib.Logic.Function.Basic

/-!
# Scrolling windows

A screen of `h` rows of `w` cells shows a window on a strip of cells without end.  On the strip the
cursor moves and cells are written in their places for good; the window follows the cursor down, and
what it shows changes as if the screen were scrolled by hand.
-/

namespace Magnos.Framework

universe u

variable {Cell : Type u}

/-- The cells of a strip, the rows above its window, and the place of the cursor. -/
structure Strip (Cell : Type u) where
  cell : Nat → Cell
  top : Nat
  pos : Nat

namespace Strip

/-- Put a cell at the cursor. -/
def write (s : Strip Cell) (a : Cell) : Strip Cell :=
  { s with cell := Function.update s.cell s.pos a }

/-- Move the cursor; the window follows if it leaves it at the bottom. -/
def move (w h : Nat) (s : Strip Cell) (p : Nat) : Strip Cell :=
  { s with pos := p, top := max s.top (p / w + 1 - h) }

theorem move_top_inside {w h c : Nat} (hw : 0 < w) (hc : c < w * h) (s : Strip Cell) :
    (s.move w h (w * s.top + c)).top = s.top := by
  have hrow : c / w < h := Nat.div_lt_of_lt_mul hc
  rw [move, Nat.mul_add_div hw]
  dsimp only
  omega

theorem move_top_below {w h : Nat} (hw : 0 < w) (s : Strip Cell) :
    (s.move w h (w * (s.top + h))).top = s.top + 1 := by
  rw [move, Nat.mul_div_cancel_left _ hw]
  dsimp only
  omega

/-- A screen and its cursor show the window, and the strip is blank below it. -/
structure Shown (w h : Nat) (blank : Cell) (s : Strip Cell) (screen : Nat → Cell) (cursor : Nat) :
    Prop where
  cells : ∀ i < w * h, screen i = s.cell (w * s.top + i)
  below : ∀ q, w * (s.top + h) ≤ q → s.cell q = blank
  pos : s.pos = w * s.top + cursor
  cursor_lt : cursor < w * h

namespace Shown

variable {w h : Nat} {blank : Cell} {s : Strip Cell} {screen screen' : Nat → Cell} {cursor : Nat}

theorem pos_lt (hs : Shown w h blank s screen cursor) : s.pos < w * (s.top + h) := by
  rw [hs.pos, Nat.mul_add]
  exact Nat.add_lt_add_left hs.cursor_lt _

theorem write (hs : Shown w h blank s screen cursor) (a : Cell) :
    Shown w h blank (s.write a) (Function.update screen cursor a) cursor := by
  refine ⟨?_, ?_, hs.pos, hs.cursor_lt⟩
  · intro i hi
    by_cases hcursor : i = cursor
    · simp [Strip.write, hcursor, hs.pos]
    · have hne : w * s.top + i ≠ s.pos := by
        rw [hs.pos]
        omega
      simp only [Strip.write, Function.update_of_ne hcursor, Function.update_of_ne hne]
      exact hs.cells i hi
  · intro q hq
    have hne : q ≠ s.pos := Nat.ne_of_gt (Nat.lt_of_lt_of_le hs.pos_lt hq)
    simp only [Strip.write, Function.update_of_ne hne]
    exact hs.below q hq

theorem move_inside (hw : 0 < w) (hs : Shown w h blank s screen cursor) {c : Nat}
    (hc : c < w * h) : Shown w h blank (s.move w h (w * s.top + c)) screen c := by
  have htop := s.move_top_inside hw hc
  refine ⟨?_, ?_, ?_, hc⟩
  · rw [htop]
    exact hs.cells
  · rw [htop]
    exact hs.below
  · rw [htop]
    rfl

/-- A move to the row below the window scrolls the screen by a row. -/
theorem move_below (hw : 0 < w) (hh : 0 < h) (hs : Shown w h blank s screen cursor)
    (hscroll : ∀ i < w * h, screen' i = if i + w < w * h then screen (i + w) else blank) :
    Shown w h blank (s.move w h (w * (s.top + h))) screen' (w * (h - 1)) := by
  have htop := s.move_top_below (h := h) hw
  have hnext : w * (s.top + 1) = w * s.top + w := Nat.mul_succ w s.top
  have hlast : w * (h - 1) + w = w * h := by
    rw [← Nat.mul_succ, Nat.succ_eq_add_one, Nat.sub_add_cancel hh]
  have hend : w * (s.top + h) = w * s.top + w * h := Nat.mul_add w s.top h
  refine ⟨?_, ?_, ?_, by omega⟩
  · intro i hi
    rw [hscroll i hi, htop, hnext]
    split
    · next hin =>
        rw [hs.cells _ hin]
        change s.cell _ = s.cell _
        congr 1
        omega
    · exact (hs.below _ (by omega)).symm
  · intro q hq
    apply hs.below
    rw [htop, Nat.add_right_comm, Nat.mul_succ] at hq
    omega
  · rw [htop, hnext]
    change w * (s.top + h) = _
    omega

end Shown

end Strip

end Magnos.Framework
