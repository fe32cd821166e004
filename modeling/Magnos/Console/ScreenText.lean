import Mathlib.Data.List.TakeWhile
import Magnos.Console.Vga
import Magnos.Framework.TextLayout

/-!
# What is on the screen

The screen is a window on a strip of rows that only grows: wrapping, newlines and scrolling move the
cursor and the window, and a cell that was written keeps its place on the strip.  Printed text
therefore appears as its rows, laid out as a whole, and the screen shows the last of them.
-/

namespace Magnos

open Framework

/-- The screen shows the window on a strip from which rows have scrolled away since `base`. -/
structure Vga.Shows (base : Nat) (color : UInt8) (r : Strip UInt16) (s : Vga) : Prop where
  shown : r.Shown vgaWidth vgaHeight (vgaEntry 0x20 color) s.buffer (s.row * vgaWidth + s.column)
  column_lt : s.column < vgaWidth
  color_eq : s.color = color
  scrolled : s.scrolled = base + r.top

/-- What `vga_putchar` does to the strip. -/
def putStrip (color : UInt8) (r : Strip UInt16) (c : UInt8) : Strip UInt16 :=
  if c = 0x0A then r.move vgaWidth vgaHeight (vgaWidth * (r.pos / vgaWidth + 1))
  else if c = 0x0D then r.move vgaWidth vgaHeight (vgaWidth * (r.pos / vgaWidth))
  else if c = 0x08 then r.move vgaWidth vgaHeight (max (r.pos - 1) (vgaWidth * r.top))
  else if c = 0x09 then r.move vgaWidth vgaHeight (4 * (r.pos / 4 + 1))
  else (r.write (vgaEntry c color)).move vgaWidth vgaHeight (r.pos + 1)

/-- The strip of a screen and blank rows below it. -/
def startStrip (s : Vga) : Strip UInt16 where
  cell := firstCells (vgaWidth * vgaHeight) s.buffer fun _ => vgaEntry 0x20 s.color
  top := 0
  pos := s.row * vgaWidth + s.column

section Simulation

variable {base : Nat} {color : UInt8} {r : Strip UInt16} {s : Vga}

theorem startStrip_shows (hrow : s.row < vgaHeight) (hcolumn : s.column < vgaWidth) :
    s.Shows s.scrolled s.color (startStrip s) := by
  refine ⟨⟨?_, ?_, ?_, ?_⟩, hcolumn, rfl, rfl⟩
  · intro i hi
    simp only [startStrip, firstCells, Nat.mul_zero, Nat.zero_add, if_pos hi]
  · intro q hq
    exact if_neg (by simpa [startStrip] using hq)
  · simp [startStrip]
  · simp only [vgaWidth, vgaHeight] at *
    omega

namespace Vga.Shows

theorem width_pos : 0 < vgaWidth := by decide

theorem row_lt (hs : s.Shows base color r) : s.row < vgaHeight := by
  have hcursor := hs.shown.cursor_lt
  simp only [vgaWidth, vgaHeight] at *
  omega

theorem pos_eq (hs : s.Shows base color r) :
    r.pos = vgaWidth * r.top + (s.row * vgaWidth + s.column) := hs.shown.pos

theorem goto (hs : s.Shows base color r) {row column p : Nat} (hrow : row < vgaHeight)
    (hcolumn : column < vgaWidth) (hp : p = vgaWidth * r.top + (row * vgaWidth + column)) :
    { s with row := row, column := column }.Shows base color (r.move vgaWidth vgaHeight p) := by
  have hcell : row * vgaWidth + column < vgaWidth * vgaHeight := by
    simp only [vgaWidth, vgaHeight] at *
    omega
  rw [hp]
  refine ⟨hs.shown.move_inside width_pos hcell, hcolumn, hs.color_eq, ?_⟩
  rw [r.move_top_inside width_pos hcell]
  exact hs.scrolled

theorem nextRow (hs : s.Shows base color r) {p : Nat} (hp : p = vgaWidth * (r.top + s.row + 1)) :
    (vgaNextRow { s with column := 0 }).Shows base color (r.move vgaWidth vgaHeight p) := by
  have hrow := hs.row_lt
  unfold vgaNextRow
  dsimp only
  split
  · next hlast =>
      obtain ⟨touched, -, heq⟩ := vgaScroll_spec { s with row := s.row + 1, column := 0 }
      have hbelow : p = vgaWidth * (r.top + vgaHeight) := by
        rw [hp]
        congr 1
        omega
      have hscroll : ∀ i < vgaWidth * vgaHeight,
          scrolledCells { s with row := s.row + 1, column := 0 } i =
            if i + vgaWidth < vgaWidth * vgaHeight then s.buffer (i + vgaWidth)
            else vgaEntry 0x20 color := by
        intro i hi
        have hiff : i < (vgaHeight - 1) * vgaWidth ↔ i + vgaWidth < vgaWidth * vgaHeight := by
          simp only [vgaWidth, vgaHeight]
          omega
        simp only [scrolledCells, firstCells, if_pos hi, hiff, hs.color_eq]
      have hcursor : (vgaHeight - 1) * vgaWidth + 0 = vgaWidth * (vgaHeight - 1) := by decide
      have hshown := hs.shown.move_below width_pos (by decide) hscroll
      rw [← hcursor] at hshown
      rw [heq, hbelow]
      refine ⟨hshown, width_pos, hs.color_eq, ?_⟩
      rw [r.move_top_below width_pos]
      exact congrArg (· + 1) hs.scrolled
  · next hroom =>
      apply hs.goto (Nat.lt_of_not_le hroom) width_pos
      rw [hp]
      simp only [vgaWidth]
      omega

theorem wrap (hs : s.Shows base color r) {column p : Nat} (hcolumn : column ≤ vgaWidth)
    (hp : p = vgaWidth * r.top + (s.row * vgaWidth + column)) :
    (vgaWrap { s with column := column }).Shows base color (r.move vgaWidth vgaHeight p) := by
  unfold vgaWrap
  dsimp only
  split
  · next hfull =>
      apply hs.nextRow
      rw [hp]
      simp only [vgaWidth] at *
      omega
  · next hroom => exact hs.goto hs.row_lt (Nat.lt_of_not_le hroom) hp

theorem store (hs : s.Shows base color r) (entry : UInt16) :
    (s.store (s.row * vgaWidth + s.column) entry).Shows base color (r.write entry) :=
  ⟨hs.shown.write entry, hs.column_lt, hs.color_eq, hs.scrolled⟩

theorem updateCursor (hs : s.Shows base color r) : (vgaUpdateCursor s).Shows base color r :=
  ⟨hs.shown, hs.column_lt, hs.color_eq, hs.scrolled⟩

theorem putchar (hs : s.Shows base color r) (c : UInt8) :
    (vgaPutchar s c).Shows base color (putStrip color r c) := by
  have hpos := hs.pos_eq
  have hrow := hs.row_lt
  have hcolumn := hs.column_lt
  apply Vga.Shows.updateCursor
  unfold putStrip
  split
  · apply hs.nextRow
    simp only [vgaWidth] at *
    omega
  split
  · apply hs.goto hrow width_pos
    simp only [vgaWidth] at *
    omega
  split
  · split
    · apply hs.goto hrow (by omega)
      omega
    · split
      · apply hs.goto (by omega) (by decide)
        simp only [vgaWidth] at *
        omega
      · apply hs.goto hrow hcolumn
        simp only [vgaWidth] at *
        omega
  split
  · have htab : (s.column + 4) &&& 0xFFFFFFFC = (s.column + 4) / 4 * 4 :=
      and_highMask 2 _ (by decide) (by simp only [vgaWidth] at hcolumn; omega)
    rw [htab]
    apply hs.wrap
    · simp only [vgaWidth] at *
      omega
    · simp only [vgaWidth] at *
      omega
  · rw [hs.color_eq]
    apply (hs.store (vgaEntry c color)).wrap hcolumn
    exact congrArg (· + 1) hpos

theorem putchars (hs : s.Shows base color r) (str : List UInt8) :
    (str.foldl vgaPutchar s).Shows base color (str.foldl (putStrip color) r) := by
  induction str generalizing s r with
  | nil => exact hs
  | cons c str ih => exact ih (hs.putchar c)

end Vga.Shows

end Simulation

section Text

variable {color : UInt8} {back : Nat → UInt16} {rows : List (List UInt8)} {row : List UInt8}
  {r : Strip UInt16} {c : UInt8}

/-- A character that `vga_putchar` writes into a cell, or a newline. -/
def PlainChar (c : UInt8) : Prop := c ≠ 0x08 ∧ c ≠ 0x09 ∧ c ≠ 0x0D ∧ c ≠ 0

instance (c : UInt8) : Decidable (PlainChar c) := inferInstanceAs (Decidable (_ ∧ _))

/-- Rows on the strip, in front of what was there, with the cursor at the end of the last one. -/
structure Laid (color : UInt8) (back : Nat → UInt16) (rows : List (List UInt8)) (row : List UInt8)
    (r : Strip UInt16) : Prop where
  pos : r.pos = vgaWidth * rows.length + row.length
  top : r.top = rows.length + 1 - vgaHeight
  cells : ∀ y x, x < vgaWidth → r.cell (vgaWidth * y + x) =
    (rowsAt (rows ++ [row]) y x).elim (back (vgaWidth * y + x)) (vgaEntry · color)

namespace Laid

theorem newline (hlaid : Laid color back rows row r) (hrow : row.length < vgaWidth) :
    Laid color back (rows ++ [row]) [] (putStrip color r 0x0A) := by
  have hpos := hlaid.pos
  have htop := hlaid.top
  have hline : r.pos / vgaWidth = rows.length := by
    simp only [vgaWidth] at *
    omega
  rw [putStrip, if_pos rfl, hline]
  refine ⟨?_, ?_, ?_⟩
  · simp [Strip.move]
  · simp only [Strip.move, Nat.mul_div_cancel_left _ Vga.Shows.width_pos, List.length_append,
      List.length_singleton]
    omega
  · intro y x hx
    rw [rowsAt_newRow]
    exact hlaid.cells y x hx

/-- A cell that is written at the cursor ends the last row. -/
theorem written (hlaid : Laid color back rows row r) (hrow : row.length < vgaWidth) (y x : Nat)
    (hx : x < vgaWidth) : (r.write (vgaEntry c color)).cell (vgaWidth * y + x) =
      (rowsAt (rows ++ [row ++ [c]]) y x).elim (back (vgaWidth * y + x)) (vgaEntry · color) := by
  have hpos := hlaid.pos
  have hplace : vgaWidth * y + x = r.pos ↔ y = rows.length ∧ x = row.length := by
    simp only [vgaWidth] at *
    omega
  rw [rowsAt_item]
  by_cases hcursor : vgaWidth * y + x = r.pos
  · rw [if_pos (hplace.mp hcursor), hcursor]
    simp [Strip.write]
  · rw [if_neg fun h => hcursor (hplace.mpr h), ← hlaid.cells y x hx]
    exact Function.update_of_ne hcursor _ _

theorem putStrip_plain (hc : PlainChar c) (hline : c ≠ 0x0A) :
    putStrip color r c = (r.write (vgaEntry c color)).move vgaWidth vgaHeight (r.pos + 1) := by
  rw [putStrip, if_neg hline, if_neg hc.2.2.1, if_neg hc.1, if_neg hc.2.1]

theorem item (hlaid : Laid color back rows row r) (hc : PlainChar c) (hline : c ≠ 0x0A)
    (hrow : row.length + 1 < vgaWidth) :
    Laid color back rows (row ++ [c]) (putStrip color r c) := by
  have hpos := hlaid.pos
  have htop := hlaid.top
  rw [putStrip_plain hc hline]
  refine ⟨?_, ?_, hlaid.written (by omega)⟩
  · rw [List.length_append, List.length_singleton, ← Nat.add_assoc]
    exact congrArg (· + 1) hpos
  · simp only [Strip.move, Strip.write, vgaWidth, vgaHeight] at *
    omega

theorem lastItem (hlaid : Laid color back rows row r) (hc : PlainChar c) (hline : c ≠ 0x0A)
    (hrow : row.length + 1 = vgaWidth) :
    Laid color back (rows ++ [row ++ [c]]) [] (putStrip color r c) := by
  have hpos := hlaid.pos
  have htop := hlaid.top
  rw [putStrip_plain hc hline]
  refine ⟨?_, ?_, ?_⟩
  · simp only [Strip.move, List.length_append, List.length_singleton, List.length_nil, vgaWidth] at *
    omega
  · simp only [Strip.move, Strip.write, List.length_append, List.length_singleton, vgaWidth,
      vgaHeight] at *
    omega
  · intro y x hx
    rw [rowsAt_newRow]
    exact hlaid.written (by omega) y x hx

theorem text (hlaid : Laid color back rows row r) (hrow : row.length < vgaWidth)
    (str : List UInt8) (hplain : ∀ c ∈ str, PlainChar c) :
    ∃ rows' row', rows ++ layoutFrom vgaWidth 0x0A row str = rows' ++ [row'] ∧
      row'.length < vgaWidth ∧ Laid color back rows' row' (str.foldl (putStrip color) r) := by
  induction str generalizing rows row r with
  | nil => exact ⟨rows, row, rfl, hrow, hlaid⟩
  | cons c str ih =>
      obtain ⟨hc, hstr⟩ := List.forall_mem_cons.mp hplain
      rw [List.foldl_cons, layoutFrom]
      by_cases hline : c = 0x0A
      · rw [if_pos hline, hline, List.append_cons]
        exact ih (hlaid.newline hrow) Vga.Shows.width_pos hstr
      · rw [if_neg hline]
        by_cases hfull : row.length + 1 = vgaWidth
        · rw [if_pos hfull, List.append_cons]
          exact ih (hlaid.lastItem hc hline hfull) Vga.Shows.width_pos hstr
        · have hroom : row.length + 1 < vgaWidth := by omega
          rw [if_neg hfull]
          exact ih (hlaid.item hc hline hroom) (by simpa using hroom) hstr

theorem empty {s : Vga} (hrow : s.row = 0) (hcolumn : s.column = 0) :
    Laid color (startStrip s).cell [] [] (startStrip s) := by
  refine ⟨?_, rfl, ?_⟩
  · simp [startStrip, hrow, hcolumn]
  · intro y x hx
    have hnone : rowsAt ([] ++ [[]] : List (List UInt8)) y x = none := by
      rw [rowsAt_newRow]
      rfl
    rw [hnone]
    rfl

theorem screen {base : Nat} {s : Vga} (hlaid : Laid color back rows row r)
    (hs : s.Shows base color r) {y x : Nat} (hy : y < vgaHeight) (hx : x < vgaWidth) :
    s.buffer (y * vgaWidth + x) =
      (rowsAt (rows ++ [row]) (rows.length + 1 - vgaHeight + y) x).elim
        (back (vgaWidth * (rows.length + 1 - vgaHeight + y) + x)) (vgaEntry · color) := by
  have hcell : y * vgaWidth + x < vgaWidth * vgaHeight := by
    simp only [vgaWidth, vgaHeight] at *
    omega
  have hplace : vgaWidth * r.top + (y * vgaWidth + x) = vgaWidth * (r.top + y) + x := by
    simp only [vgaWidth]
    omega
  rw [hs.shown.cells _ hcell, hplace, hlaid.cells _ x hx, hlaid.top]

theorem cursor {base : Nat} {s : Vga} (hlaid : Laid color back rows row r)
    (hs : s.Shows base color r) (hrow : row.length < vgaWidth) :
    s.row = min (rows.length + 1) vgaHeight - 1 ∧ s.column = row.length := by
  have hpos := hs.pos_eq
  have htop := hlaid.top
  have hcolumn := hs.column_lt
  rw [hlaid.pos] at hpos
  simp only [vgaWidth, vgaHeight] at *
  omega

end Laid

theorem vgaPuts_noNul {s : Vga} {str : List UInt8} (hstr : ∀ c ∈ str, c ≠ 0) :
    vgaPuts s str = str.foldl vgaPutchar s := by
  have hall : str.takeWhile (· ≠ 0) = str := by
    rw [List.takeWhile_eq_self_iff]
    intro c hc
    simpa using hstr c hc
  rw [vgaPuts, hall]

theorem vgaPuts_pieces {s : Vga} {pieces : List (List UInt8)}
    (hplain : ∀ c ∈ pieces.flatten, PlainChar c) :
    pieces.foldl vgaPuts s = pieces.flatten.foldl vgaPutchar s := by
  induction pieces generalizing s with
  | nil => rfl
  | cons piece pieces ih =>
      rw [List.flatten_cons, List.forall_mem_append] at hplain
      rw [List.foldl_cons, vgaPuts_noNul fun c hc => (hplain.1 c hc).2.2.2, ih hplain.2,
        List.flatten_cons, List.foldl_append]

/-- A cell of the screen that shows rows: its character, or a blank in a colour of its own. -/
def textCell (rows : List (List UInt8)) (color pad : UInt8) (y x : Nat) : UInt16 :=
  (rowsAt rows y x).elim (vgaEntry 0x20 pad) (vgaEntry · color)

theorem vgaClear_fields (s : Vga) : (vgaClear s).row = 0 ∧ (vgaClear s).column = 0 ∧
    (vgaClear s).color = s.color ∧
    ∀ i < vgaWidth * vgaHeight, (vgaClear s).buffer i = vgaEntry 0x20 s.color := by
  obtain ⟨touched, -, heq⟩ := vgaClear_spec s
  rw [heq]
  exact ⟨rfl, rfl, rfl, fun i hi => if_pos hi⟩

theorem clearedStrip_cell (s : Vga) (color : UInt8) {i x : Nat} (hx : x < vgaWidth) :
    (startStrip { vgaClear s with color := color }).cell (vgaWidth * i + x) =
      vgaEntry 0x20 (if i < vgaHeight then s.color else color) := by
  obtain ⟨-, -, -, hblank⟩ := vgaClear_fields s
  have hiff : vgaWidth * i + x < vgaWidth * vgaHeight ↔ i < vgaHeight := by
    simp only [vgaWidth, vgaHeight] at *
    omega
  by_cases hi : i < vgaHeight
  · rw [if_pos hi, ← hblank _ (hiff.mpr hi)]
    exact if_pos (hiff.mpr hi)
  · rw [if_neg hi]
    exact if_neg (mt hiff.mp hi)

/-- The screen after a text: the last 25 of its rows from the top, and blanks.  The blanks of the
first 25 rows are those of `vga_clear`, the others come from scrolling. -/
theorem vgaPuts_layout (s : Vga) (color : UInt8) (pieces : List (List UInt8))
    (hplain : ∀ c ∈ pieces.flatten, PlainChar c) :
    let rows := layout 80 0x0A pieces.flatten
    let t := pieces.foldl vgaPuts { vgaClear s with color := color }
    (∀ y < 25, ∀ x < 80, t.buffer (y * 80 + x) =
        textCell (rows.drop (rows.length - 25)) color
          (if rows.length - 25 + y < 25 then s.color else color) y x) ∧
      t.row = min rows.length 25 - 1 ∧ t.column = (rows.getLastD []).length := by
  intro rows t
  obtain ⟨hrow, hcolumn, -, -⟩ := vgaClear_fields s
  have hcell := @clearedStrip_cell s color
  set start : Vga := { vgaClear s with color := color }
  have hstartrow : start.row = 0 := hrow
  have hstartcolumn : start.column = 0 := hcolumn
  have hempty : Laid color (startStrip start).cell [] [] (startStrip start) :=
    .empty hstartrow hstartcolumn
  obtain ⟨rows', row', hrows, hlen, hlaid⟩ := hempty.text Vga.Shows.width_pos _ hplain
  have hlayout : rows = rows' ++ [row'] := by
    rw [← hrows, List.nil_append, layoutFrom_eq Vga.Shows.width_pos List.not_mem_nil]
    rfl
  have hshows : t.Shows start.scrolled color (pieces.flatten.foldl (putStrip color)
      (startStrip start)) := by
    have hfirst : start.Shows start.scrolled color (startStrip start) := by
      apply startStrip_shows
      · rw [hstartrow]
        decide
      · rw [hstartcolumn]
        decide
    have hrun := hfirst.putchars pieces.flatten
    rwa [← vgaPuts_pieces hplain] at hrun
  have hcount : rows.length = rows'.length + 1 := by simp [hlayout]
  have hlast : rows.getLastD [] = row' := by simp [hlayout]
  constructor
  · intro y hy x hx
    have hscreen := hlaid.screen hshows hy hx
    rw [hcell hx, ← hlayout, ← hcount] at hscreen
    rw [textCell, rowsAt_drop]
    exact hscreen
  · rw [hcount, hlast]
    exact hlaid.cursor hshows hlen

/-- Two lines on a screen that was cleared in the same colour. -/
theorem vgaPuts_layout_hello :
    let t := [[0x48, 0x69, 0x0A], [0x21]].foldl vgaPuts
      { vgaClear (unusedVga (fun _ => 0) 0 0) with color := 7 }
    t.buffer 0 = vgaEntry 0x48 7 ∧ t.buffer 80 = vgaEntry 0x21 7 ∧ t.row = 1 ∧ t.column = 1 := by
  have hlayout := vgaPuts_layout (unusedVga (fun _ => 0) 0 0) 7 [[0x48, 0x69, 0x0A], [0x21]]
    (by simp [PlainChar])
  have hrows : layout 80 0x0A [[0x48, 0x69, 0x0A], [(0x21 : UInt8)]].flatten =
      [[0x48, 0x69], [0x21]] := by decide
  dsimp only at hlayout
  rw [hrows] at hlayout
  obtain ⟨hcells, hrow, hcolumn⟩ := hlayout
  exact ⟨hcells 0 (by decide) 0 (by decide), hcells 1 (by decide) 0 (by decide), hrow, hcolumn⟩

end Text

end Magnos
