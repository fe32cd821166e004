import Mathlib.Data.List.Basic

/-!
# Laying text out in rows

A text is cut at its line ends, and every line into rows of a fixed width.  A line whose length is
a multiple of the width has an empty row at its end.  The same rows come out of a pass over the
text that fills one row after the other.
-/

namespace Magnos.Framework

universe u

variable {Item : Type u}

/-- The rows of a line. -/
def cutRows (w : Nat) (line : List Item) : List (List Item) :=
  (List.range (line.length / w + 1)).map fun i => (line.drop (w * i)).take w

theorem cutRows_short {w : Nat} {line : List Item} (hline : line.length < w) :
    cutRows w line = [line] := by
  simp [cutRows, Nat.div_eq_of_lt hline, List.take_of_length_le (Nat.le_of_lt hline)]

theorem cutRows_full {w : Nat} {row line : List Item} (hw : 0 < w) (hrow : row.length = w) :
    cutRows w (row ++ line) = row :: cutRows w line := by
  have hrows : (row ++ line).length / w + 1 = (line.length / w + 1) + 1 := by
    rw [List.length_append, hrow, Nat.add_div_left _ hw]
  rw [cutRows, hrows, List.range_succ_eq_map, List.map_cons, List.map_map]
  congr 1
  · rw [Nat.mul_zero, List.drop_zero, ← hrow, List.take_left]
  · apply List.map_congr_left
    intro i _
    rw [Function.comp_apply, Nat.mul_succ, Nat.add_comm, ← hrow, List.drop_length_add_append]

theorem getElem?_concat_none {l : List Item} {n : Nat} (hn : l.length < n) (a : Item) :
    (l ++ [a])[n]? = none := by
  apply List.getElem?_eq_none
  rwa [List.length_append, List.length_singleton, Nat.succ_le_iff]

/-- What the rows hold at a place, if it is not behind the end of its row. -/
def rowsAt (rows : List (List Item)) (y x : Nat) : Option Item := rows[y]?.bind (·[x]?)

theorem rowsAt_drop (rows : List (List Item)) (n y x : Nat) :
    rowsAt (rows.drop n) y x = rowsAt rows (n + y) x := by
  rw [rowsAt, rowsAt, List.getElem?_drop]

theorem rowsAt_newRow (rows : List (List Item)) (y x : Nat) :
    rowsAt (rows ++ [[]]) y x = rowsAt rows y x := by
  rw [rowsAt, rowsAt]
  rcases Nat.lt_trichotomy y rows.length with hy | rfl | hy
  · rw [List.getElem?_append_left hy]
  · simp
  · rw [getElem?_concat_none hy, List.getElem?_eq_none (Nat.le_of_lt hy)]

theorem rowsAt_item (rows : List (List Item)) (row : List Item) (c : Item) (y x : Nat) :
    rowsAt (rows ++ [row ++ [c]]) y x =
      if y = rows.length ∧ x = row.length then some c else rowsAt (rows ++ [row]) y x := by
  rw [rowsAt, rowsAt]
  rcases Nat.lt_trichotomy y rows.length with hy | rfl | hy
  · rw [List.getElem?_append_left hy, List.getElem?_append_left hy,
      if_neg fun h => Nat.ne_of_lt hy h.1]
  · simp only [List.getElem?_concat_length, Option.bind_some, true_and]
    split
    · next hx => rw [hx, List.getElem?_concat_length]
    · next hx =>
        rcases Nat.lt_or_gt_of_ne hx with hlt | hgt
        · rw [List.getElem?_append_left hlt]
        · rw [getElem?_concat_none hgt, List.getElem?_eq_none (Nat.le_of_lt hgt)]
  · rw [getElem?_concat_none hy, getElem?_concat_none hy,
      if_neg fun h => Nat.ne_of_gt hy h.1]

variable [DecidableEq Item]

/-- The rows of a text whose lines end with `stop`; the last one is open. -/
def layout (w : Nat) (stop : Item) (text : List Item) : List (List Item) :=
  (text.splitOn stop).flatMap (cutRows w)

/-- The rows of a text that is written behind what a row already holds. -/
def layoutFrom (w : Nat) (stop : Item) : List Item → List Item → List (List Item)
  | row, [] => [row]
  | row, c :: text =>
      if c = stop then row :: layoutFrom w stop [] text
      else if row.length + 1 = w then (row ++ [c]) :: layoutFrom w stop [] text
      else layoutFrom w stop (row ++ [c]) text

theorem splitOn_append {stop : Item} {front : List Item} (hfront : stop ∉ front)
    (rest : List Item) :
    (front ++ rest).splitOn stop = (rest.splitOn stop).modifyHead (front ++ ·) := by
  induction front with
  | nil =>
      rw [List.nil_append]
      cases rest.splitOn stop <;> rfl
  | cons c front ih =>
      rw [List.mem_cons, not_or] at hfront
      have hc : ¬ (c == stop) = true := fun h => hfront.1 (beq_iff_eq.mp h).symm
      rw [List.cons_append, List.splitOn_cons_eq_if_modifyHead, if_neg hc, ih hfront.2,
        List.modifyHead_modifyHead]
      rfl

theorem layout_full {w : Nat} {stop : Item} {row : List Item} (hw : 0 < w) (hrow : row.length = w)
    (hstop : stop ∉ row) (text : List Item) :
    layout w stop (row ++ text) = row :: layout w stop text := by
  rw [layout, layout, splitOn_append hstop]
  cases hlines : text.splitOn stop with
  | nil => exact absurd hlines (List.splitOn_ne_nil stop text)
  | cons line lines =>
      rw [List.modifyHead_cons, List.flatMap_cons, List.flatMap_cons, cutRows_full hw hrow]
      rfl

/-- Filling row after row gives the rows of the whole text. -/
theorem layoutFrom_eq {w : Nat} {stop : Item} {row : List Item} (hrow : row.length < w)
    (hstop : stop ∉ row) (text : List Item) :
    layoutFrom w stop row text = layout w stop (row ++ text) := by
  have hw : 0 < w := Nat.zero_lt_of_lt hrow
  have hempty : ([] : List Item).length < w := hw
  induction text generalizing row with
  | nil =>
      rw [layoutFrom, List.append_nil, layout, List.splitOn_eq_singleton hstop,
        List.flatMap_singleton, cutRows_short hrow]
  | cons c text ih =>
      rw [layoutFrom]
      by_cases hc : c = stop
      · rw [if_pos hc, hc, layout, List.splitOn_append_cons_self_of_not_mem hstop,
          List.flatMap_cons, cutRows_short hrow, ih hempty List.not_mem_nil]
        rfl
      · have hnext : stop ∉ row ++ [c] := by
          rw [List.mem_append, List.mem_singleton, not_or]
          exact ⟨hstop, Ne.symm hc⟩
        have hsplit : row ++ c :: text = (row ++ [c]) ++ text := by simp
        rw [if_neg hc, hsplit]
        by_cases hfull : row.length + 1 = w
        · rw [if_pos hfull, layout_full hw (by simpa using hfull) hnext, ih hempty List.not_mem_nil]
          rfl
        · rw [if_neg hfull, ih (by rw [List.length_append, List.length_singleton]; omega) hnext]

end Magnos.Framework
