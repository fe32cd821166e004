import Magnos.Console.Keyboard
import Magnos.Framework.Scroll
import Magnos.Framework.Search
import Magnos.Framework.Word32

/-!
# Text output

The text mode driver of `vga.c`: a buffer of 25 rows of 80 cells, a cursor that wraps and scrolls,
and one colour for all that is written.  Cells are read and written by their index alone, so that
the cursor's bounds are all that keeps the driver inside the buffer.
-/

namespace Magnos

open Framework

inductive VgaColor where
  | black | blue | green | cyan | red | magenta | brown | lightGrey
  | darkGrey | lightBlue | lightGreen | lightCyan | lightRed | lightMagenta | yellow | white
deriving DecidableEq

def VgaColor.code : VgaColor → UInt8
  | black => 0
  | blue => 1
  | green => 2
  | cyan => 3
  | red => 4
  | magenta => 5
  | brown => 6
  | lightGrey => 7
  | darkGrey => 8
  | lightBlue => 9
  | lightGreen => 10
  | lightCyan => 11
  | lightRed => 12
  | lightMagenta => 13
  | yellow => 14
  | white => 15

def vgaWidth : Nat := 80

def vgaHeight : Nat := 25

/-- The statics of `vga.c`, the memory behind `vga_buffer` by cells, and the position that the
hardware cursor was given.  `scrolled` counts the calls of `vga_scroll` and `touched` lists the
cells read and written; no code reads them. -/
structure Vga where
  buffer : Nat → UInt16
  row : Nat
  column : Nat
  color : UInt8
  cursorHigh : UInt8
  cursorLow : UInt8
  scrolled : Nat
  touched : List Nat

def vgaEntryColor (fg bg : VgaColor) : UInt8 := fg.code ||| (bg.code <<< 4)

def vgaEntry (c color : UInt8) : UInt16 := c.toUInt16 ||| (color.toUInt16 <<< 8)

def Vga.load (s : Vga) (index : Nat) : UInt16 × Vga :=
  (s.buffer index, { s with touched := index :: s.touched })

def Vga.store (s : Vga) (index : Nat) (entry : UInt16) : Vga :=
  { s with buffer := Function.update s.buffer index entry, touched := index :: s.touched }

def vgaUpdateCursor (s : Vga) : Vga :=
  let pos := UInt16.ofNat (s.row * vgaWidth + s.column)
  { s with cursorLow := (pos &&& 0xFF).toUInt8, cursorHigh := ((pos >>> 8) &&& 0xFF).toUInt8 }

def vgaClear (s : Vga) : Vga :=
  let s := (List.range vgaHeight).foldl (fun s y => (List.range vgaWidth).foldl
    (fun s x => s.store (y * vgaWidth + x) (vgaEntry 0x20 s.color)) s) s
  vgaUpdateCursor { s with row := 0, column := 0 }

def vgaInit (s : Vga) : Vga :=
  vgaClear { s with row := 0, column := 0, color := vgaEntryColor .lightGrey .black }

/-- The copy of a cell from the row below. -/
def vgaCopyUp (s : Vga) (y x : Nat) : Vga :=
  let (entry, s) := s.load ((y + 1) * vgaWidth + x)
  s.store (y * vgaWidth + x) entry

def vgaScroll (s : Vga) : Vga :=
  let s := (List.range (vgaHeight - 1)).foldl
    (fun s y => (List.range vgaWidth).foldl (fun s x => vgaCopyUp s y x) s) s
  let s := (List.range vgaWidth).foldl
    (fun s x => s.store ((vgaHeight - 1) * vgaWidth + x) (vgaEntry 0x20 s.color)) s
  { s with row := vgaHeight - 1, scrolled := s.scrolled + 1 }

/-- `if (++vga_row >= VGA_HEIGHT) vga_scroll();`. -/
def vgaNextRow (s : Vga) : Vga :=
  let s := { s with row := s.row + 1 }
  if s.row ≥ vgaHeight then vgaScroll s else s

/-- What follows every change of the column that may leave the row. -/
def vgaWrap (s : Vga) : Vga :=
  if s.column ≥ vgaWidth then vgaNextRow { s with column := 0 } else s

def vgaPutchar (s : Vga) (c : UInt8) : Vga :=
  vgaUpdateCursor
    (if c = 0x0A then vgaNextRow { s with column := 0 }
    else if c = 0x0D then { s with column := 0 }
    else if c = 0x08 then
      if s.column > 0 then { s with column := s.column - 1 }
      else if s.row > 0 then { s with row := s.row - 1, column := vgaWidth - 1 }
      else s
    else if c = 0x09 then vgaWrap { s with column := (s.column + 4) &&& 0xFFFFFFFC }
    else
      let s := s.store (s.row * vgaWidth + s.column) (vgaEntry c s.color)
      vgaWrap { s with column := s.column + 1 })

/-- `vga_puts` of a string up to its terminator. -/
def vgaPuts (s : Vga) (str : List UInt8) : Vga := (str.takeWhile (· ≠ 0)).foldl vgaPutchar s

def vgaSetColor (s : Vga) (fg bg : VgaColor) : Vga := { s with color := vgaEntryColor fg bg }

def hexDigits : List UInt8 := "0123456789ABCDEF".toList.map ascii

/-- The digits that the loop of `vga_puthex` prints. -/
def hexText (n : UInt32) : List UInt8 :=
  ([28, 24, 20, 16, 12, 8, 4, 0] : List UInt32).map fun i =>
    hexDigits.getD ((n >>> i) &&& 0xF).toNat 0

def vgaPuthex (s : Vga) (n : UInt32) : Vga :=
  (hexText n).foldl vgaPutchar (vgaPuts s [ascii '0', ascii 'x'])

/-- The position that the hardware cursor was given. -/
def Vga.hardwareCursor (s : Vga) : Nat := s.cursorHigh.toNat * 256 + s.cursorLow.toNat

section Loops

variable {s t : Vga} {cells : Nat → UInt16}

/-- `t` is `s` with other cells, and after reads and writes of cells of the screen. -/
def Vga.Painted (s : Vga) (cells : Nat → UInt16) (t : Vga) : Prop :=
  ∃ touched, t = { s with buffer := cells, touched := touched } ∧
    ∀ i ∈ touched, i ∈ s.touched ∨ i < vgaWidth * vgaHeight

/-- Cells of which the first `n` are replaced. -/
def firstCells (n : Nat) (front back : Nat → UInt16) : Nat → UInt16 :=
  fun i => if i < n then front i else back i

theorem firstCells_succ (n : Nat) (front back : Nat → UInt16) :
    Function.update (firstCells n front back) n (front n) = firstCells (n + 1) front back := by
  funext i
  by_cases hi : i = n
  · simp [firstCells, hi]
  · have hlt : i < n + 1 ↔ i < n := by omega
    simp only [firstCells, Function.update_of_ne hi, hlt]

theorem Vga.Painted.color (hpaint : s.Painted cells t) : t.color = s.color := by
  obtain ⟨touched, rfl, -⟩ := hpaint
  rfl

theorem Vga.Painted.refl (s : Vga) : s.Painted s.buffer s := ⟨s.touched, rfl, fun _ hi => .inl hi⟩

theorem Vga.Painted.store (hpaint : s.Painted cells t) {i : Nat} (hi : i < vgaWidth * vgaHeight)
    (entry : UInt16) : s.Painted (Function.update cells i entry) (t.store i entry) := by
  obtain ⟨touched, rfl, hin⟩ := hpaint
  refine ⟨i :: touched, rfl, ?_⟩
  rw [List.forall_mem_cons]
  exact ⟨.inr hi, hin⟩

theorem Vga.Painted.copyUp (hpaint : s.Painted cells t) {y x : Nat} (hy : y < vgaHeight - 1)
    (hx : x < vgaWidth) :
    s.Painted (Function.update cells (y * vgaWidth + x) (cells (y * vgaWidth + x + vgaWidth)))
      (vgaCopyUp t y x) := by
  have hsrc : (y + 1) * vgaWidth + x = y * vgaWidth + x + vgaWidth := by
    rw [Nat.succ_mul]
    omega
  obtain ⟨touched, rfl, hin⟩ := hpaint
  refine ⟨(y * vgaWidth + x) :: ((y + 1) * vgaWidth + x) :: touched, ?_, ?_⟩
  · simp only [vgaCopyUp, Vga.load, Vga.store, hsrc]
  · rw [List.forall_mem_cons, List.forall_mem_cons]
    simp only [vgaWidth, vgaHeight] at *
    exact ⟨.inr (by omega), .inr (by omega), hin⟩

theorem vgaClear_painted (s : Vga) :
    s.Painted (firstCells (vgaWidth * vgaHeight) (fun _ => vgaEntry 0x20 s.color) s.buffer)
      ((List.range vgaHeight).foldl (fun s y => (List.range vgaWidth).foldl
        (fun s x => s.store (y * vgaWidth + x) (vgaEntry 0x20 s.color)) s) s) := by
  apply foldl_grid_induct fun n t =>
    s.Painted (firstCells n (fun _ => vgaEntry 0x20 s.color) s.buffer) t
  · exact .refl s
  · intro y hy x hx t hpaint
    rw [hpaint.color, ← firstCells_succ]
    apply hpaint.store
    simp only [vgaWidth, vgaHeight] at *
    omega

theorem vgaCopyRows_painted (s : Vga) :
    s.Painted (firstCells ((vgaHeight - 1) * vgaWidth) (fun i => s.buffer (i + vgaWidth)) s.buffer)
      ((List.range (vgaHeight - 1)).foldl
        (fun s y => (List.range vgaWidth).foldl (fun s x => vgaCopyUp s y x) s) s) := by
  apply foldl_grid_induct fun n t =>
    s.Painted (firstCells n (fun i => s.buffer (i + vgaWidth)) s.buffer) t
  · exact .refl s
  · intro y hy x hx t hpaint
    have hsource : firstCells (y * vgaWidth + x) (fun i => s.buffer (i + vgaWidth)) s.buffer
        (y * vgaWidth + x + vgaWidth) = s.buffer (y * vgaWidth + x + vgaWidth) :=
      if_neg (by omega)
    have hcopy := hpaint.copyUp hy hx
    rwa [hsource, firstCells_succ] at hcopy

/-- The screen one row up, with a blank row below. -/
def scrolledCells (s : Vga) : Nat → UInt16 :=
  firstCells (vgaWidth * vgaHeight)
    (fun i => if i < (vgaHeight - 1) * vgaWidth then s.buffer (i + vgaWidth)
      else vgaEntry 0x20 s.color) s.buffer

theorem vgaScroll_spec (s : Vga) :
    ∃ touched, (∀ i ∈ touched, i ∈ s.touched ∨ i < vgaWidth * vgaHeight) ∧
      vgaScroll s = { s with
        buffer := scrolledCells s, row := vgaHeight - 1, scrolled := s.scrolled + 1,
        touched := touched } := by
  have hrows := vgaCopyRows_painted s
  rw [vgaScroll]
  generalize (List.range (vgaHeight - 1)).foldl _ s = t at hrows ⊢
  have hlast : s.Painted (scrolledCells s) ((List.range vgaWidth).foldl
      (fun s x => s.store ((vgaHeight - 1) * vgaWidth + x) (vgaEntry 0x20 s.color)) t) := by
    apply foldl_range_induct fun x t => s.Painted (firstCells ((vgaHeight - 1) * vgaWidth + x)
      (fun i => if i < (vgaHeight - 1) * vgaWidth then s.buffer (i + vgaWidth)
        else vgaEntry 0x20 s.color) s.buffer) t
    · convert hrows using 1
      funext i
      by_cases hi : i < (vgaHeight - 1) * vgaWidth
      · simp only [firstCells, Nat.add_zero, if_pos hi]
      · simp only [firstCells, Nat.add_zero, if_neg hi]
    · intro x hx t hpaint
      have hblank : (if (vgaHeight - 1) * vgaWidth + x < (vgaHeight - 1) * vgaWidth then
          s.buffer ((vgaHeight - 1) * vgaWidth + x + vgaWidth) else vgaEntry 0x20 s.color) =
          vgaEntry 0x20 s.color := if_neg (by omega)
      rw [hpaint.color, ← Nat.add_assoc, ← firstCells_succ, hblank]
      apply hpaint.store
      simp only [vgaWidth, vgaHeight] at *
      omega
  obtain ⟨touched, heq, hin⟩ := hlast
  exact ⟨touched, hin, by rw [heq]⟩

theorem vgaClear_spec (s : Vga) :
    ∃ touched, (∀ i ∈ touched, i ∈ s.touched ∨ i < vgaWidth * vgaHeight) ∧
      vgaClear s = vgaUpdateCursor { s with
        buffer := firstCells (vgaWidth * vgaHeight) (fun _ => vgaEntry 0x20 s.color) s.buffer,
        row := 0, column := 0, touched := touched } := by
  obtain ⟨touched, heq, hin⟩ := vgaClear_painted s
  exact ⟨touched, hin, by rw [vgaClear, heq]⟩

end Loops

section Bounds

variable {memory : Nat → UInt16} {s : Vga}

/-- The cursor is on the screen, and only cells of the screen were read or written. -/
structure Vga.Inside (memory : Nat → UInt16) (s : Vga) : Prop where
  row_lt : s.row < vgaHeight
  column_lt : s.column < vgaWidth
  touched : ∀ i ∈ s.touched, i < vgaWidth * vgaHeight
  outside : ∀ i, vgaWidth * vgaHeight ≤ i → s.buffer i = memory i

/-- The hardware cursor is where the next character goes. -/
structure Vga.Ok (memory : Nat → UInt16) (s : Vga) : Prop extends s.Inside memory where
  hardware : s.hardwareCursor = s.row * vgaWidth + s.column

namespace Vga.Inside

theorem goto (hs : s.Inside memory) {row column : Nat} (hrow : row < vgaHeight)
    (hcolumn : column < vgaWidth) : { s with row := row, column := column }.Inside memory :=
  ⟨hrow, hcolumn, hs.touched, hs.outside⟩

theorem nextRow (hs : s.Inside memory) : (vgaNextRow { s with column := 0 }).Inside memory := by
  have hzero : 0 < vgaWidth := by decide
  have hlast : vgaHeight - 1 < vgaHeight := by decide
  unfold vgaNextRow
  dsimp only
  split
  · obtain ⟨touched, hin, heq⟩ := vgaScroll_spec { s with row := s.row + 1, column := 0 }
    rw [heq]
    refine ⟨hlast, hzero, ?_, ?_⟩
    · intro i hi
      exact (hin i hi).elim (hs.touched i) id
    · intro i hi
      rw [← hs.outside i hi]
      exact if_neg (Nat.not_lt_of_le hi)
  · next hrow => exact hs.goto (Nat.lt_of_not_le hrow) hzero

theorem wrap (hs : s.Inside memory) (column : Nat) :
    (vgaWrap { s with column := column }).Inside memory := by
  unfold vgaWrap
  split
  · exact hs.nextRow
  · next hcolumn => exact hs.goto hs.row_lt (Nat.lt_of_not_le hcolumn)

theorem index_lt (hs : s.Inside memory) : s.row * vgaWidth + s.column < vgaWidth * vgaHeight := by
  have hrow := hs.row_lt
  have hcolumn := hs.column_lt
  simp only [vgaWidth, vgaHeight] at *
  omega

theorem store (hs : s.Inside memory) (entry : UInt16) :
    (s.store (s.row * vgaWidth + s.column) entry).Inside memory := by
  have hindex := hs.index_lt
  refine ⟨hs.row_lt, hs.column_lt, ?_, ?_⟩
  · exact List.forall_mem_cons.mpr ⟨hindex, hs.touched⟩
  · intro i hi
    rw [← hs.outside i hi]
    exact Function.update_of_ne (by omega) _ _

theorem updateCursor (hs : s.Inside memory) : (vgaUpdateCursor s).Ok memory := by
  have hindex := hs.index_lt
  have hpos : s.row * vgaWidth + s.column < 2 ^ 16 := Nat.lt_trans hindex (by decide)
  refine ⟨⟨hs.row_lt, hs.column_lt, hs.touched, hs.outside⟩, ?_⟩
  have hmask : ∀ n : Nat, n &&& 255 = n % 2 ^ 8 := fun n => Nat.and_two_pow_sub_one_eq_mod n 8
  simp only [Vga.hardwareCursor, vgaUpdateCursor, UInt16.toNat_toUInt8, UInt16.toNat_and,
    UInt16.toNat_shiftRight, UInt16.toNat_ofNat_of_lt' hpos, UInt16.reduceToNat, hmask,
    Nat.shiftRight_eq_div_pow, Nat.reduceMod, Nat.reducePow]
  simp only [vgaWidth, vgaHeight] at *
  omega

end Vga.Inside

theorem vgaPutchar_ok (hs : s.Inside memory) (c : UInt8) : (vgaPutchar s c).Ok memory := by
  have hrow := hs.row_lt
  have hcolumn := hs.column_lt
  have hzero : 0 < vgaWidth := by decide
  apply Vga.Inside.updateCursor
  split
  · exact hs.nextRow
  split
  · exact hs.goto hrow hzero
  split
  · split
    · exact hs.goto hrow (by omega)
    · split
      · exact hs.goto (by omega) (by decide)
      · exact hs
  split
  · exact hs.wrap _
  · exact (hs.store _).wrap _

theorem vgaPutchars_ok (hs : s.Ok memory) (str : List UInt8) :
    (str.foldl vgaPutchar s).Ok memory := by
  induction str generalizing s with
  | nil => exact hs
  | cons c str ih => exact ih (vgaPutchar_ok hs.toInside c)

theorem vgaClear_ok (hs : ∀ i ∈ s.touched, i < vgaWidth * vgaHeight)
    (hmem : ∀ i, vgaWidth * vgaHeight ≤ i → s.buffer i = memory i) : (vgaClear s).Ok memory := by
  obtain ⟨touched, hin, heq⟩ := vgaClear_spec s
  rw [heq]
  apply Vga.Inside.updateCursor
  refine ⟨(by decide : 0 < vgaHeight), (by decide : 0 < vgaWidth), ?_, ?_⟩
  · intro i hi
    exact (hin i hi).elim (hs i) id
  · intro i hi
    rw [← hmem i hi]
    exact if_neg (Nat.not_lt_of_le hi)

end Bounds

inductive VgaCall where
  | putchar (c : UInt8)
  | puts (str : List UInt8)
  | puthex (n : UInt32)
  | setColor (fg bg : VgaColor)
  | clear
deriving DecidableEq

def vgaCall (s : Vga) : VgaCall → Vga
  | .putchar c => vgaPutchar s c
  | .puts str => vgaPuts s str
  | .puthex n => vgaPuthex s n
  | .setColor fg bg => vgaSetColor s fg bg
  | .clear => vgaClear s

theorem vgaCall_ok {memory : Nat → UInt16} {s : Vga} (hs : s.Ok memory) (call : VgaCall) :
    (vgaCall s call).Ok memory := by
  cases call with
  | putchar c => exact vgaPutchar_ok hs.toInside c
  | puts str => exact vgaPutchars_ok hs _
  | puthex n => exact vgaPutchars_ok (vgaPutchars_ok hs _) _
  | setColor fg bg => exact ⟨⟨hs.row_lt, hs.column_lt, hs.touched, hs.outside⟩, hs.hardware⟩
  | clear => exact vgaClear_ok hs.touched hs.outside

/-- The driver's statics before `vga_init`, with any memory and any cursor. -/
def unusedVga (buffer : Nat → UInt16) (cursorHigh cursorLow : UInt8) : Vga :=
  ⟨buffer, 0, 0, 0, cursorHigh, cursorLow, 0, []⟩

theorem vgaCalls_ok (memory : Nat → UInt16) (cursorHigh cursorLow : UInt8)
    (calls : List VgaCall) :
    (calls.foldl vgaCall (vgaInit (unusedVga memory cursorHigh cursorLow))).Ok memory := by
  have hinit : (vgaInit (unusedVga memory cursorHigh cursorLow)).Ok memory := by
    apply vgaClear_ok
    · intro i hi
      cases hi
    · intro i hi
      rfl
  generalize vgaInit (unusedVga memory cursorHigh cursorLow) = s at hinit ⊢
  induction calls generalizing s with
  | nil => exact hinit
  | cons call calls ih => exact ih _ (vgaCall_ok hinit call)

/-- After any calls the cursor is on the screen, with the hardware cursor at the same place, and all
that was read or written of the memory are cells of the screen. -/
theorem vgaCalls_inside (memory : Nat → UInt16) (cursorHigh cursorLow : UInt8)
    (calls : List VgaCall) :
    let t := calls.foldl vgaCall (vgaInit (unusedVga memory cursorHigh cursorLow))
    t.row < 25 ∧ t.column < 80 ∧ t.hardwareCursor = t.row * 80 + t.column ∧
      (∀ i ∈ t.touched, i < 2000) ∧ ∀ i, 2000 ≤ i → t.buffer i = memory i := by
  have hok := vgaCalls_ok memory cursorHigh cursorLow calls
  exact ⟨hok.row_lt, hok.column_lt, hok.hardware, hok.touched, hok.outside⟩

end Magnos
