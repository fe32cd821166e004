import Mathlib.Data.List.GetD
import Magnos.Console.ScreenText
import Magnos.Console.Shells

/-!
# The echo of a command line

The userspace shell echoes the characters that it takes into its buffer, and erases one with
backspace, blank, backspace.  What the screen then shows of the line is compared with the echo of
the buffer alone.  They differ after an echo that did not just fill the cell at the cursor: a tab
moves to a multiple of four and writes nothing, and a character in the last cell scrolls.
-/

namespace Magnos

open Framework

def asciiText (str : String) : List UInt8 := str.toList.map ascii

/-- What `SYSCALL_PRINT` does to the screen. -/
def print (s : Vga) (str : List UInt8) : Vga := vgaPuts (vgaSetColor s .white .black) str

abbrev printColor : UInt8 := vgaEntryColor .white .black

def promptText : List UInt8 := asciiText "MagnOS> "

def eraseText : List UInt8 := [0x08, 0x20, 0x08]

/-- What the shell prints for a result of `exec`. -/
def execMessages (buf : List UInt8) (result : Int) : List (List UInt8) :=
  if result = -1 then [asciiText "Command not found: ", buf, [0x0A]]
  else if result = -2 then [asciiText "Error: File too large\n"]
  else if result = -3 then [asciiText "Error: Failed to read file\n"]
  else if result = -4 then [asciiText "Error: Not an ELF binary\n"]
  else if result = -5 then [asciiText "Error: Failed to execute\n"]
  else []

/-- The screen, the first `cmd_pos` characters of `cmd_buf`, and whether the shell has returned. -/
structure ShellScreen where
  screen : Vga
  buf : List UInt8
  exited : Bool

/-- One turn of the loop of `main`; `exec` returns a result and leaves a screen. -/
def shellTurn (exec : List UInt8 → Vga → Int × Vga) (s : ShellScreen) (c : UInt8) : ShellScreen :=
  if c = 0x08 then
    if 0 < s.buf.length then
      { s with buf := s.buf.dropLast, screen := print s.screen eraseText }
    else s
  else if c = 0x0A then
    let screen := print s.screen [0x0A]
    if 0 < s.buf.length then
      if shellStrncmp 64 s.buf clearLine = 0 then
        { s with screen := print (vgaClear screen) promptText, buf := [] }
      else if shellStrncmp 64 s.buf exitLine = 0 then { s with screen := screen, exited := true }
      else
        let (result, screen) := exec s.buf screen
        { s with
          screen := print ((execMessages s.buf result).foldl print screen) promptText, buf := [] }
    else { s with screen := print screen promptText, buf := [] }
  else if s.buf.length < 63 then { s with buf := s.buf ++ [c], screen := print s.screen [c] }
  else s

theorem shellTurn_line (exec : List UInt8 → Vga → Int × Vga) (s : ShellScreen) (u : UserShell)
    (hbuf : u.buf = s.buf) (hexited : u.exited = s.exited) (c : UInt8) :
    (userShellKey u c).buf = (shellTurn exec s c).buf ∧
      (userShellKey u c).exited = (shellTurn exec s c).exited := by
  unfold userShellKey shellTurn
  rw [hbuf]
  split
  · split
    · exact ⟨rfl, hexited⟩
    · exact ⟨hbuf, hexited⟩
  split
  · split
    · split
      · exact ⟨rfl, hexited⟩
      split
      · exact ⟨rfl, rfl⟩
      · exact ⟨rfl, hexited⟩
    · exact ⟨rfl, hexited⟩
  split
  · exact ⟨rfl, hexited⟩
  · exact ⟨hbuf, hexited⟩

theorem shellTurns_line (exec : List UInt8 → Vga → Int × Vga) (keys : List UInt8)
    (s : ShellScreen) (u : UserShell) (hbuf : u.buf = s.buf) (hexited : u.exited = s.exited) :
    (keys.foldl userShellKey u).buf = (keys.foldl (shellTurn exec) s).buf := by
  induction keys generalizing s u with
  | nil => exact hbuf
  | cons c keys ih =>
      have hturn := shellTurn_line exec s u hbuf hexited c
      exact ih _ _ hturn.1 hturn.2

/-- A character that the keyboard driver puts into its buffer. -/
def Deliverable (c : UInt8) : Prop := c ≠ 0 ∧ ∃ m scancode, (translateScancode m scancode).1 = c

/-- The character of a cell. -/
def vgaChar (entry : UInt16) : UInt8 := entry.toUInt8

def Vga.cursor (s : Vga) : Nat := s.row * vgaWidth + s.column

/-- The characters from the place where `start` had its cursor up to the cursor.  The place moves up
with the rows that have scrolled since. -/
def lineText (start s : Vga) : List UInt8 :=
  let first := start.cursor - vgaWidth * (s.scrolled - start.scrolled)
  (List.range' first (s.cursor - first)).map fun i => vgaChar (s.buffer i)

/-- The cursor and the text after the prompt are those of the echo of the buffer. -/
def EchoAgrees (exec : List UInt8 → Vga → Int × Vga) (start : Vga) (s : ShellScreen) : Prop :=
  let t := s.buf.foldl (shellTurn exec) ⟨start, [], false⟩
  s.screen.row = t.screen.row ∧ s.screen.column = t.screen.column ∧
    lineText start s.screen = lineText start t.screen

/-- Where an echo leaves the cursor, in cells from the top left of the screen with the prompt. -/
def echoStep (p : Nat) (c : UInt8) : Nat := if c = 0x09 then 4 * (p / 4 + 1) else p + 1

def echoEnd (p : Nat) (line : List UInt8) : Nat := line.foldl echoStep p

/-- A line that is typed at `p` and the cells that were blanked by erasing. -/
structure LineEdit where
  line : List UInt8
  erased : List Nat

def LineEdit.key (p : Nat) (t : LineEdit) (c : UInt8) : LineEdit :=
  if c = 0x08 then
    if 0 < t.line.length then ⟨t.line.dropLast, (echoEnd p t.line - 1) :: t.erased⟩ else t
  else if t.line.length < 63 then ⟨t.line ++ [c], t.erased⟩
  else t

/-- The echo of the last character went one cell ahead and did not scroll. -/
def Erasable (p : Nat) (line : List UInt8) : Prop :=
  echoEnd p line = echoEnd p line.dropLast + 1 ∧
    ¬ (vgaWidth * vgaHeight ≤ echoEnd p line ∧ echoEnd p line % vgaWidth = 0)

/-- A tab passes no cell that was blanked, but those that were blank at the prompt. -/
def TabClean (start : Vga) (t : LineEdit) : Prop :=
  ∀ q ∈ t.erased, echoEnd start.cursor t.line ≤ q → q < echoEnd start.cursor (t.line ++ [0x09]) →
    q < vgaWidth * vgaHeight → vgaChar (start.buffer q) = 0x20

/-- What a key must meet for the screen to keep up with the buffer. -/
def EchoFits (start : Vga) (t : LineEdit) (c : UInt8) : Prop :=
  (c = 0x08 → 0 < t.line.length → Erasable start.cursor t.line) ∧
    (c = 0x09 → t.line.length < 63 → TabClean start t)

theorem echoFits_of_ne {start : Vga} {t : LineEdit} {c : UInt8} (hback : c ≠ 0x08)
    (htab : c ≠ 0x09) : EchoFits start t c :=
  ⟨fun heq => absurd heq hback, fun heq => absurd heq htab⟩

/-- A character whose echo moves the cursor ahead. -/
structure EchoChar (c : UInt8) : Prop where
  nul : c ≠ 0
  backspace : c ≠ 0x08
  newline : c ≠ 0x0A
  return_ : c ≠ 0x0D

/-- A screen on which the shell has printed. -/
structure Prompted (start : Vga) : Prop where
  row_lt : start.row < vgaHeight
  column_lt : start.column < vgaWidth
  color : start.color = printColor

theorem Prompted.shows {start : Vga} (hstart : Prompted start) :
    start.Shows start.scrolled printColor (startStrip start) := by
  rw [← hstart.color]
  exact startStrip_shows hstart.row_lt hstart.column_lt

theorem vgaChar_vgaEntry (c color : UInt8) : vgaChar (vgaEntry c color) = c := by
  have hhigh : color.toNat <<< 8 % 256 = 0 := by
    rw [Nat.shiftLeft_eq]
    omega
  apply UInt8.toNat_inj.mp
  simp [vgaChar, vgaEntry, hhigh]

theorem getD_ne {xs : List UInt8} {c : UInt8} (hmem : c ∉ xs) (hzero : c ≠ 0) (i : Nat) :
    xs.getD i 0 ≠ c := by
  by_cases hi : i < xs.length
  · rw [List.getD_eq_getElem _ _ hi]
    exact fun heq => hmem (heq ▸ List.getElem_mem hi)
  · rw [List.getD_eq_default _ _ (Nat.le_of_not_lt hi)]
    exact hzero.symm

theorem ite_fst_ne {p : Prop} [Decidable p] {x y : UInt8 × Modifiers} {c : UInt8} (hx : x.1 ≠ c)
    (hy : y.1 ≠ c) : (if p then x else y).1 ≠ c := by
  split
  · exact hx
  · exact hy

theorem translateScancode_ne_return (m : Modifiers) (scancode : UInt8) :
    (translateScancode m scancode).1 ≠ 0x0D := by
  have hplain := getD_ne (by decide : 0x0D ∉ scancodeToAscii) (by decide)
  have hshift := getD_ne (by decide : 0x0D ∉ scancodeToAsciiShift) (by decide)
  have htable : ∀ (useShift : Bool) (i : Nat), (if useShift then scancodeToAsciiShift.getD i 0
      else scancodeToAscii.getD i 0) ≠ 0x0D := by
    intro useShift i
    cases useShift with
    | false => exact hplain i
    | true => exact hshift i
  have hnone : (0 : UInt8) ≠ 0x0D := by decide
  have hback : (0x08 : UInt8) ≠ 0x0D := by decide
  have hescape : (27 : UInt8) ≠ 0x0D := by decide
  unfold translateScancode
  repeat' apply ite_fst_ne
  all_goals first | exact hnone | exact hback | exact hescape | exact htable _ _

theorem Deliverable.echoChar {c : UInt8} (hc : Deliverable c) (hback : c ≠ 0x08)
    (hline : c ≠ 0x0A) : EchoChar c := by
  obtain ⟨hnul, m, scancode, rfl⟩ := hc
  exact ⟨hnul, hback, hline, translateScancode_ne_return m scancode⟩

section Cursor

variable {line : List UInt8}

theorem lt_echoStep (p : Nat) (c : UInt8) : p < echoStep p c := by
  unfold echoStep
  split <;> omega

theorem echoStep_le (p : Nat) (c : UInt8) : echoStep p c ≤ p + 4 := by
  unfold echoStep
  split <;> omega

theorem echoEnd_snoc (p : Nat) (line : List UInt8) (c : UInt8) :
    echoEnd p (line ++ [c]) = echoStep (echoEnd p line) c := by
  rw [echoEnd, List.foldl_append]
  rfl

theorem le_echoEnd (p : Nat) (line : List UInt8) : p ≤ echoEnd p line := by
  induction line using List.reverseRecOn with
  | nil => exact Nat.le_refl p
  | append_singleton line c ih =>
      rw [echoEnd_snoc]
      exact Nat.le_trans ih (Nat.le_of_lt (lt_echoStep _ c))

theorem lt_echoEnd (p : Nat) (hline : 0 < line.length) : p < echoEnd p line := by
  cases line with
  | nil => cases hline
  | cons c line => exact Nat.lt_of_lt_of_le (lt_echoStep p c) (le_echoEnd _ line)

theorem echoEnd_le (p : Nat) (line : List UInt8) : echoEnd p line ≤ p + 4 * line.length := by
  induction line using List.reverseRecOn with
  | nil => exact Nat.le_refl p
  | append_singleton line c ih =>
      have hstep := echoStep_le (echoEnd p line) c
      rw [echoEnd_snoc, List.length_append, List.length_singleton]
      omega

theorem echoEnd_dropLast (p : Nat) (hline : 0 < line.length) :
    echoEnd p line.dropLast < echoEnd p line ∧ echoEnd p line ≤ echoEnd p line.dropLast + 4 := by
  rcases List.eq_nil_or_concat line with rfl | ⟨line, c, rfl⟩
  · cases hline
  · rw [List.concat_eq_append, List.dropLast_concat, echoEnd_snoc]
    exact ⟨lt_echoStep _ c, echoStep_le _ c⟩

theorem echoEnd_rows_le (p : Nat) (hshort : line.length ≤ 63) :
    vgaWidth * (echoEnd p line / vgaWidth + 1 - vgaHeight) ≤ p := by
  have hend := echoEnd_le p line
  simp only [vgaWidth, vgaHeight]
  omega

end Cursor

section OnTheStrip

variable {start : Vga} {t : LineEdit} {r : Strip UInt16} {color c : UInt8} {line : List UInt8}

theorem putStrip_echo (hc : EchoChar c) :
    putStrip color r c = (if c = 0x09 then r else r.write (vgaEntry c color)).move vgaWidth vgaHeight
      (echoStep r.pos c) := by
  rw [putStrip, if_neg hc.newline, if_neg hc.return_, if_neg hc.backspace, echoStep]
  split <;> rfl

theorem putStrip_echo_cell (hc : EchoChar c) {q : Nat} (hq : q ≠ r.pos) :
    (putStrip color r c).cell q = r.cell q := by
  rw [putStrip_echo hc]
  split
  · rfl
  · exact Function.update_of_ne hq _ _

theorem putStrip_tab_cell (hc : c = 0x09) : (putStrip color r c).cell = r.cell := by
  rw [hc]
  rfl

theorem putStrip_erase (hback : vgaWidth * r.top < r.pos)
    (hshown : r.pos < vgaWidth * (r.top + vgaHeight)) :
    eraseText.foldl (putStrip color) r =
      ⟨Function.update r.cell (r.pos - 1) (vgaEntry 0x20 color), r.top, r.pos - 1⟩ := by
  have htop : ∀ q ≤ r.pos, max r.top (q / vgaWidth + 1 - vgaHeight) = r.top := by
    intro q hq
    simp only [vgaWidth, vgaHeight] at *
    omega
  have hprev : max (r.pos - 1) (vgaWidth * r.top) = r.pos - 1 := by omega
  have hnext : r.pos - 1 + 1 = r.pos := by omega
  have hbackspace : ∀ u : Strip UInt16, u.pos = r.pos → u.top = r.top →
      putStrip color u 0x08 = { u with pos := r.pos - 1 } := by
    intro u hpos hu
    have hmove : putStrip color u 0x08 =
        u.move vgaWidth vgaHeight (max (u.pos - 1) (vgaWidth * u.top)) := rfl
    rw [hmove, hpos, hu, hprev, Strip.move, hu, htop _ (Nat.sub_le _ _)]
  have hblank : putStrip color { r with pos := r.pos - 1 } 0x20 =
      ⟨Function.update r.cell (r.pos - 1) (vgaEntry 0x20 color), r.top, r.pos⟩ := by
    change Strip.mk _ (max r.top ((r.pos - 1 + 1) / vgaWidth + 1 - vgaHeight)) (r.pos - 1 + 1) = _
    rw [hnext, htop _ (Nat.le_refl _)]
    rfl
  rw [eraseText, List.foldl_cons, List.foldl_cons, List.foldl_cons, List.foldl_nil,
    hbackspace r rfl rfl, hblank]
  exact hbackspace _ rfl rfl

theorem startStrip_blank_iff (start : Vga) (q : Nat) :
    vgaChar ((startStrip start).cell q) = 0x20 ↔
      (q < vgaWidth * vgaHeight → vgaChar (start.buffer q) = 0x20) := by
  by_cases hq : q < vgaWidth * vgaHeight
  · simp [startStrip, firstCells, hq]
  · simp [startStrip, firstCells, hq, vgaChar_vgaEntry]

/-- The echo of a line on the strip of the screen with the prompt. -/
def lineStrip (start : Vga) (line : List UInt8) : Strip UInt16 :=
  line.foldl (putStrip printColor) (startStrip start)

theorem lineStrip_snoc (start : Vga) (line : List UInt8) (c : UInt8) :
    lineStrip start (line ++ [c]) = putStrip printColor (lineStrip start line) c := by
  rw [lineStrip, List.foldl_append]
  rfl

/-- A strip with a line that was edited: the echo of the line up to the cursor, and from there on
what was there, but for the cells that were blanked. -/
structure Traces (start : Vga) (t : LineEdit) (r : Strip UInt16) : Prop where
  pos : r.pos = echoEnd start.cursor t.line
  top : r.top = echoEnd start.cursor t.line / vgaWidth + 1 - vgaHeight
  text : ∀ q, q < r.pos → start.cursor ≤ q →
    vgaChar (r.cell q) = vgaChar ((lineStrip start t.line).cell q)
  rest : ∀ q, r.pos ≤ q → vgaChar (r.cell q) =
    if q ∈ t.erased then 0x20 else vgaChar ((startStrip start).cell q)

namespace Traces

theorem echo_pos (hr : Traces start t r) (hc : EchoChar c) :
    (putStrip color r c).pos = echoEnd start.cursor (t.line ++ [c]) := by
  rw [putStrip_echo hc, echoEnd_snoc, ← hr.pos]
  rfl

theorem echo_top (hr : Traces start t r) (hc : EchoChar c) : (putStrip color r c).top =
    echoEnd start.cursor (t.line ++ [c]) / vgaWidth + 1 - vgaHeight := by
  have htop := hr.top
  have hmoved : (putStrip color r c).top =
      max r.top (echoStep r.pos c / vgaWidth + 1 - vgaHeight) := by
    rw [putStrip_echo hc]
    split <;> rfl
  have hrows : r.pos / vgaWidth ≤ echoStep r.pos c / vgaWidth :=
    Nat.div_le_div_right (Nat.le_of_lt (lt_echoStep r.pos c))
  rw [← hr.pos] at htop
  rw [hmoved, echoEnd_snoc, ← hr.pos]
  omega

theorem echo (hr : Traces start t r) (hline : Traces start ⟨t.line, []⟩ (lineStrip start t.line))
    (hc : EchoChar c) (htab : c = 0x09 → TabClean start t) :
    Traces start ⟨t.line ++ [c], t.erased⟩ (putStrip printColor r c) := by
  have hpos := hr.pos
  have hahead := lt_echoStep r.pos c
  have hsame : (lineStrip start t.line).pos = r.pos := by rw [hline.pos, hpos]
  have hend : echoEnd start.cursor (t.line ++ [c]) = echoStep r.pos c := by rw [echoEnd_snoc, hpos]
  refine ⟨hr.echo_pos hc, hr.echo_top hc, ?_, ?_⟩
  · intro q hq hcursor
    rw [hr.echo_pos hc, hend] at hq
    rw [lineStrip_snoc]
    by_cases hbefore : q < r.pos
    · rw [putStrip_echo_cell hc (by omega), putStrip_echo_cell hc (by omega)]
      exact hr.text q hbefore hcursor
    · by_cases htabbed : c = 0x09
      -- A tab shows what the cells it passes hold.
      · have hfrom : r.pos ≤ q := Nat.le_of_not_lt hbefore
        rw [putStrip_tab_cell htabbed, putStrip_tab_cell htabbed, hr.rest q hfrom,
          hline.rest q (hsame ▸ hfrom), if_neg List.not_mem_nil]
        split
        · next herased =>
            rw [← hend, htabbed] at hq
            rw [hpos] at hfrom
            exact ((startStrip_blank_iff start q).mpr (htab htabbed q herased hfrom hq)).symm
        · rfl
      · have hqpos : q = r.pos := by
          rw [echoStep, if_neg htabbed] at hq
          omega
        rw [putStrip_echo hc, putStrip_echo hc, if_neg htabbed, if_neg htabbed]
        simp [Strip.move, Strip.write, hqpos, hsame]
  · intro q hq
    rw [hr.echo_pos hc, hend] at hq
    rw [putStrip_echo_cell hc (by omega)]
    exact hr.rest q (by omega)

theorem boot (hstart : Prompted start) : Traces start ⟨[], []⟩ (startStrip start) := by
  have hrow := hstart.row_lt
  have hcolumn := hstart.column_lt
  refine ⟨rfl, ?_, fun _ _ _ => rfl, ?_⟩
  · change 0 = start.cursor / vgaWidth + 1 - vgaHeight
    simp only [Vga.cursor, vgaWidth, vgaHeight] at *
    omega
  · intro q _
    rw [if_neg List.not_mem_nil]

theorem typed (hstart : Prompted start) (hline : ∀ c ∈ line, EchoChar c) :
    Traces start ⟨line, []⟩ (lineStrip start line) := by
  induction line using List.reverseRecOn with
  | nil => exact boot hstart
  | append_singleton line c ih =>
      rw [List.forall_mem_append, List.forall_mem_singleton] at hline
      rw [lineStrip_snoc]
      apply (ih hline.1).echo (ih hline.1) hline.2
      intro _ q hq
      cases hq

theorem top_le (hr : Traces start t r) (hshort : t.line.length ≤ 63) :
    vgaWidth * r.top ≤ start.cursor := by
  rw [hr.top]
  exact echoEnd_rows_le start.cursor hshort

theorem erase {erased : List Nat} (hr : Traces start ⟨line ++ [c], erased⟩ r)
    (hline : Traces start ⟨line, []⟩ (lineStrip start line)) (hc : EchoChar c)
    (hfits : Erasable start.cursor (line ++ [c])) :
    Traces start ⟨line, (echoEnd start.cursor (line ++ [c]) - 1) :: erased⟩
      ⟨Function.update r.cell (r.pos - 1) (vgaEntry 0x20 color), r.top, r.pos - 1⟩ := by
  have hpos := hr.pos
  have htop := hr.top
  obtain ⟨hone, hscroll⟩ := hfits
  rw [List.dropLast_concat] at hone
  dsimp only at hpos htop
  refine ⟨?_, ?_, ?_, ?_⟩
  · change r.pos - 1 = echoEnd start.cursor line
    omega
  · change r.top = echoEnd start.cursor line / vgaWidth + 1 - vgaHeight
    rw [htop]
    simp only [vgaWidth, vgaHeight] at *
    omega
  · intro q hq hcursor
    dsimp only at hq
    have htext := hr.text q (by omega) hcursor
    rw [lineStrip_snoc, putStrip_echo_cell hc (by rw [hline.pos]; dsimp only; omega)] at htext
    rw [← htext]
    exact congrArg vgaChar (Function.update_of_ne (by omega) _ _)
  · intro q hq
    dsimp only at hq ⊢
    rw [← hpos]
    by_cases hlast : q = r.pos - 1
    · rw [hlast, Function.update_self, vgaChar_vgaEntry, if_pos List.mem_cons_self]
    · rw [Function.update_of_ne hlast, hr.rest q (by omega)]
      simp [hlast]

end Traces

/-- The characters of a strip from the prompt up to the cursor. -/
def stripText (start : Vga) (r : Strip UInt16) : List UInt8 :=
  (List.range' start.cursor (r.pos - start.cursor)).map fun q => vgaChar (r.cell q)

end OnTheStrip

section OnTheScreen

variable {exec : List UInt8 → Vga → Int × Vga} {start : Vga} {s : ShellScreen} {t : LineEdit}
  {r : Strip UInt16} {base : Nat} {c : UInt8} {line : List UInt8}

theorem Vga.Shows.print {s : Vga} (hs : s.Shows base printColor r)
    {str : List UInt8} (hstr : ∀ c ∈ str, c ≠ 0) :
    (print s str).Shows base printColor (str.foldl (putStrip printColor) r) := by
  have hcolor : s.color = vgaEntryColor .white .black := hs.color_eq
  have hsame : vgaSetColor s .white .black = s := by rw [vgaSetColor, ← hcolor]
  rw [Magnos.print, hsame, vgaPuts_noNul hstr]
  exact hs.putchars str

theorem Vga.Shows.printChar {s : Vga} (hs : s.Shows base printColor r) (hc : c ≠ 0) :
    (Magnos.print s [c]).Shows base printColor (putStrip printColor r c) := by
  have hprinted : (Magnos.print s [c]).Shows base printColor ([c].foldl (putStrip printColor) r) :=
    hs.print (by simpa using hc)
  exact hprinted

theorem prompted {v : Vga} (hrow : v.row < vgaHeight) (hcolumn : v.column < vgaWidth) :
    Prompted (print v promptText) := by
  have hs : (vgaSetColor v .white .black).Shows v.scrolled printColor
      (startStrip (vgaSetColor v .white .black)) :=
    startStrip_shows (s := vgaSetColor v .white .black) hrow hcolumn
  have hprinted := hs.print (noNul_of_all (by decide : promptText.all (· != 0) = true))
  exact ⟨hprinted.row_lt, hprinted.column_lt, hprinted.color_eq⟩

theorem Vga.Shows.cursor_eq {s : Vga} {color : UInt8} (hs : s.Shows base color r) :
    s.cursor = r.pos - vgaWidth * r.top := by
  rw [hs.pos_eq, Nat.add_sub_cancel_left]
  rfl

theorem Vga.Shows.lineText {s : Vga} {color : UInt8} (hs : s.Shows start.scrolled color r)
    (htop : vgaWidth * r.top ≤ start.cursor) : lineText start s = stripText start r := by
  have hcursor := hs.cursor_eq
  have hscrolled : s.scrolled - start.scrolled = r.top := by
    rw [hs.scrolled, Nat.add_sub_cancel_left]
  have hlen : s.cursor - (start.cursor - vgaWidth * r.top) = r.pos - start.cursor := by omega
  rw [Magnos.lineText, stripText, hscrolled, hlen, List.range'_eq_map_range,
    List.range'_eq_map_range, List.map_map, List.map_map]
  apply List.map_congr_left
  intro k hk
  rw [List.mem_range] at hk
  have hin := hs.shown.cursor_lt
  have hplace : vgaWidth * r.top + (start.cursor - vgaWidth * r.top + k) = start.cursor + k := by
    omega
  change vgaChar (s.buffer (start.cursor - vgaWidth * r.top + k)) = vgaChar (r.cell (start.cursor + k))
  rw [hs.shown.cells _ (by rw [Vga.cursor] at hcursor; omega), hplace]

theorem cursor_inj {s t : Vga} (hs : s.column < vgaWidth) (ht : t.column < vgaWidth) :
    s.cursor = t.cursor ↔ s.row = t.row ∧ s.column = t.column := by
  simp only [Vga.cursor, vgaWidth] at *
  omega

theorem shellTurn_echo (hc : EchoChar c) (hroom : s.buf.length < 63) :
    shellTurn exec s c = { s with buf := s.buf ++ [c], screen := print s.screen [c] } := by
  rw [shellTurn, if_neg hc.backspace, if_neg hc.newline, if_pos hroom]

theorem shellTurn_full (hc : EchoChar c) (hfull : ¬ s.buf.length < 63) :
    shellTurn exec s c = s := by
  rw [shellTurn, if_neg hc.backspace, if_neg hc.newline, if_neg hfull]

theorem shellTurns_echo (exec : List UInt8 → Vga → Int × Vga) (hstart : Prompted start)
    (hline : ∀ c ∈ line, EchoChar c) (hshort : line.length ≤ 63) :
    (line.foldl (shellTurn exec) ⟨start, [], false⟩).buf = line ∧
      (line.foldl (shellTurn exec) ⟨start, [], false⟩).screen.Shows start.scrolled printColor
        (lineStrip start line) := by
  induction line using List.reverseRecOn with
  | nil => exact ⟨rfl, hstart.shows⟩
  | append_singleton line c ih =>
      rw [List.forall_mem_append, List.forall_mem_singleton] at hline
      rw [List.length_append, List.length_singleton] at hshort
      obtain ⟨hbuf, hshows⟩ := ih hline.1 (by omega)
      rw [List.foldl_append, List.foldl_cons, List.foldl_nil,
        shellTurn_echo hline.2 (by rw [hbuf]; omega), hbuf, lineStrip_snoc]
      exact ⟨rfl, hshows.printChar hline.2.nul⟩

theorem echoAgrees_iff (hstart : Prompted start) (hline : ∀ c ∈ s.buf, EchoChar c)
    (hshort : s.buf.length ≤ 63) (hs : s.screen.Shows start.scrolled printColor r)
    (htop : vgaWidth * r.top ≤ start.cursor) :
    EchoAgrees exec start s ↔
      r.pos - vgaWidth * r.top =
          (lineStrip start s.buf).pos - vgaWidth * (lineStrip start s.buf).top ∧
        stripText start r = stripText start (lineStrip start s.buf) := by
  obtain ⟨-, htyped⟩ := shellTurns_echo exec hstart hline hshort
  have htrace := Traces.typed hstart hline
  rw [EchoAgrees, ← and_assoc, ← cursor_inj hs.column_lt htyped.column_lt, hs.lineText htop,
    htyped.lineText (htrace.top_le hshort), hs.cursor_eq, htyped.cursor_eq]

/-- The shell holds the line, and its screen shows the line as it was edited. -/
structure Echoed (start : Vga) (t : LineEdit) (s : ShellScreen) : Prop where
  buf : s.buf = t.line
  chars : ∀ c ∈ t.line, EchoChar c
  short : t.line.length ≤ 63
  screen : ∃ r, s.screen.Shows start.scrolled printColor r ∧ Traces start t r

namespace Echoed

theorem boot (hstart : Prompted start) : Echoed start ⟨[], []⟩ ⟨start, [], false⟩ :=
  ⟨rfl, List.forall_mem_nil _, Nat.zero_le _, startStrip start, hstart.shows, Traces.boot hstart⟩

theorem typed (hstart : Prompted start) (he : Echoed start t s) :
    Traces start ⟨t.line, []⟩ (lineStrip start t.line) :=
  Traces.typed hstart he.chars

theorem agrees (hstart : Prompted start) (he : Echoed start t s) : EchoAgrees exec start s := by
  obtain ⟨r, hs, hr⟩ := he.screen
  have hline := he.typed hstart
  have hpos : r.pos = (lineStrip start t.line).pos := by rw [hr.pos, hline.pos]
  have htop : r.top = (lineStrip start t.line).top := by rw [hr.top, hline.top]
  have hchars := he.chars
  have hshort := he.short
  rw [← he.buf] at hchars hshort
  rw [echoAgrees_iff hstart hchars hshort hs (hr.top_le he.short), he.buf, hpos, htop]
  refine ⟨rfl, ?_⟩
  rw [stripText, stripText, ← hpos]
  apply List.map_congr_left
  intro q hq
  rw [List.mem_range'_1] at hq
  exact hr.text q (by omega) hq.1

theorem eraseShows (exec : List UInt8 → Vga → Int × Vga) (he : Echoed start t s)
    (hline : 0 < t.line.length) :
    ∃ r, Traces start t r ∧ (shellTurn exec s 0x08).buf = t.line.dropLast ∧
      (shellTurn exec s 0x08).screen.Shows start.scrolled printColor
        ⟨Function.update r.cell (r.pos - 1) (vgaEntry 0x20 printColor),
          r.top, r.pos - 1⟩ := by
  obtain ⟨r, hs, hr⟩ := he.screen
  have hturn : shellTurn exec s 0x08 =
      { s with buf := t.line.dropLast, screen := print s.screen eraseText } := by
    rw [shellTurn, if_pos rfl, he.buf, if_pos hline]
  have hback : vgaWidth * r.top < r.pos := by
    have hprompt := hr.top_le he.short
    have hahead := lt_echoEnd start.cursor hline
    rw [hr.pos]
    omega
  have hprinted := hs.print (noNul_of_all (by decide : eraseText.all (· != 0) = true))
  rw [putStrip_erase hback hs.shown.pos_lt] at hprinted
  rw [hturn]
  exact ⟨r, hr, rfl, hprinted⟩

theorem erase (hstart : Prompted start) (he : Echoed start t s) (hline : 0 < t.line.length)
    (hfits : Erasable start.cursor t.line) :
    Echoed start (t.key start.cursor 0x08) (shellTurn exec s 0x08) := by
  obtain ⟨r, hr, hbuf, hshows⟩ := he.eraseShows exec hline
  have hchars := he.chars
  have hshort := he.short
  rw [LineEdit.key, if_pos rfl, if_pos hline]
  obtain ⟨full, erased⟩ := t
  rcases List.eq_nil_or_concat full with rfl | ⟨line, c, rfl⟩
  · cases hline
  · rw [List.concat_eq_append] at *
    rw [List.forall_mem_append, List.forall_mem_singleton] at hchars
    rw [List.length_append] at hshort
    rw [List.dropLast_concat] at hbuf ⊢
    have htyped := Traces.typed hstart hchars.1
    have hrest : line.length ≤ 63 := by omega
    exact ⟨hbuf, hchars.1, hrest, _, hshows, hr.erase htyped hchars.2 hfits⟩

theorem echo (hstart : Prompted start) (he : Echoed start t s) (hc : EchoChar c)
    (hroom : t.line.length < 63) (htab : c = 0x09 → TabClean start t) :
    Echoed start ⟨t.line ++ [c], t.erased⟩ (shellTurn exec s c) := by
  obtain ⟨r, hs, hr⟩ := he.screen
  rw [shellTurn_echo hc (by rwa [he.buf]), he.buf]
  refine ⟨rfl, ?_, by simpa using hroom, _, hs.printChar hc.nul, hr.echo (he.typed hstart) hc htab⟩
  rw [List.forall_mem_append, List.forall_mem_singleton]
  exact ⟨he.chars, hc⟩

theorem key (hstart : Prompted start) (he : Echoed start t s) (hc : c = 0x08 ∨ EchoChar c)
    (hfits : EchoFits start t c) :
    Echoed start (t.key start.cursor c) (shellTurn exec s c) := by
  rcases hc with rfl | hc
  · by_cases hline : 0 < t.line.length
    · exact he.erase hstart hline (hfits.1 rfl hline)
    · rw [LineEdit.key, if_pos rfl, if_neg hline, shellTurn, if_pos rfl, he.buf, if_neg hline]
      exact he
  · rw [LineEdit.key, if_neg hc.backspace]
    by_cases hroom : t.line.length < 63
    · rw [if_pos hroom]
      exact he.echo hstart hc hroom fun htab => hfits.2 htab hroom
    · rw [if_neg hroom, shellTurn_full hc (by rwa [he.buf])]
      exact he

theorem erasable_of_agrees (hstart : Prompted start) (he : Echoed start t s)
    (hline : 0 < t.line.length) (hagree : EchoAgrees exec start (shellTurn exec s 0x08)) :
    Erasable start.cursor t.line := by
  obtain ⟨r, hr, hbuf, hshows⟩ := he.eraseShows exec hline
  have hchars : ∀ c ∈ t.line.dropLast, EchoChar c :=
    fun c hc => he.chars c (List.mem_of_mem_dropLast hc)
  have hshort : t.line.dropLast.length ≤ 63 := by
    have hlen := he.short
    rw [List.length_dropLast]
    omega
  have htyped := Traces.typed hstart hchars
  rw [← hbuf] at hchars hshort
  rw [echoAgrees_iff hstart hchars hshort hshows (hr.top_le he.short), hbuf] at hagree
  have hcursor := hagree.1
  have hlast := echoEnd_dropLast start.cursor hline
  rw [htyped.pos, htyped.top, hr.top, hr.pos] at hcursor
  -- The cursor is off by a row after a scroll and by less than four cells after a tab.
  simp only [Erasable, vgaWidth, vgaHeight] at *
  omega

theorem tabClean_of_agrees (hstart : Prompted start) (he : Echoed start t s)
    (hroom : t.line.length < 63) (hagree : EchoAgrees exec start (shellTurn exec s 0x09)) :
    TabClean start t := by
  obtain ⟨r, hs, hr⟩ := he.screen
  have hc : EchoChar 0x09 := ⟨by decide, by decide, by decide, by decide⟩
  have htyped := he.typed hstart
  have hchars : ∀ c ∈ t.line ++ [0x09], EchoChar c := by
    rw [List.forall_mem_append, List.forall_mem_singleton]
    exact ⟨he.chars, hc⟩
  have hshort : (t.line ++ [0x09]).length ≤ 63 := by simpa using hroom
  have htop : vgaWidth * (putStrip printColor r 0x09).top ≤ start.cursor := by
    rw [hr.echo_top hc]
    exact echoEnd_rows_le start.cursor hshort
  rw [shellTurn_echo hc (by rwa [he.buf]), he.buf,
    echoAgrees_iff hstart hchars hshort (hs.printChar hc.nul) htop] at hagree
  have htext := hagree.2
  rw [stripText, stripText, lineStrip_snoc, hr.echo_pos hc, htyped.echo_pos hc,
    List.map_inj_left] at htext
  intro q hq hfrom hto
  have hsame := htext q (by
    have hprompt := le_echoEnd start.cursor t.line
    rw [List.mem_range'_1]
    omega)
  rw [putStrip_tab_cell rfl, putStrip_tab_cell rfl, hr.rest q (by rwa [hr.pos]), if_pos hq,
    htyped.rest q (by rwa [htyped.pos]), if_neg List.not_mem_nil] at hsame
  exact (startStrip_blank_iff start q).mp hsame.symm

theorem agrees_iff (hstart : Prompted start) (he : Echoed start t s) (hc : c = 0x08 ∨ EchoChar c) :
    EchoAgrees exec start (shellTurn exec s c) ↔ EchoFits start t c := by
  constructor
  · intro hagree
    constructor
    · rintro rfl hline
      exact he.erasable_of_agrees hstart hline hagree
    · rintro rfl hroom
      exact he.tabClean_of_agrees hstart hroom hagree
  · intro hfits
    exact (he.key hstart hc hfits).agrees hstart

end Echoed

/-- The line that is edited and the shell, side by side. -/
def editTurn (exec : List UInt8 → Vga → Int × Vga) (p : Nat) (x : LineEdit × ShellScreen)
    (c : UInt8) : LineEdit × ShellScreen :=
  (x.1.key p c, shellTurn exec x.2 c)

theorem editTurns_iff (hstart : Prompted start) {keys : List UInt8}
    (hkeys : ∀ c ∈ keys, c = 0x08 ∨ EchoChar c) {x : LineEdit × ShellScreen}
    (hx : Echoed start x.1 x.2) :
    Along (editTurn exec start.cursor)
        (fun x c => EchoAgrees exec start (shellTurn exec x.2 c)) keys x ↔
      Along (editTurn exec start.cursor) (fun x c => EchoFits start x.1 c) keys x := by
  let inv (x : LineEdit × ShellScreen) : Prop := Echoed start x.1 x.2
  have hinv : inv x := hx
  refine along_iff ?_ ?_ hinv (along_of_forall (fun c hc _ => hkeys c hc) x)
  · intro x c he hc
    exact Echoed.agrees_iff hstart he hc
  · intro x c he hc hfits
    exact Echoed.key hstart he hc hfits

end OnTheScreen

/-- After every key the cursor and the text are those of the echo of the buffer, if and only if each
key fits; the buffer is the one of the shell that is modelled without a screen. -/
theorem shellEcho_iff (exec : List UInt8 → Vga → Int × Vga) (v : Vga) (hrow : v.row < 25)
    (hcolumn : v.column < 80) (keys : List UInt8) (hkeys : ∀ c ∈ keys, Deliverable c ∧ c ≠ 0x0A) :
    let start := print v promptText
    ((∀ typed, typed <+: keys →
        EchoAgrees exec start (typed.foldl (shellTurn exec) ⟨start, [], false⟩)) ↔
      Along (LineEdit.key start.cursor) (EchoFits start) keys ⟨[], []⟩) ∧
    ∀ u : UserShell, u.buf = [] → u.exited = false →
      (keys.foldl userShellKey u).buf = (keys.foldl (shellTurn exec) ⟨start, [], false⟩).buf := by
  have hstart : Prompted (print v promptText) := prompted hrow hcolumn
  generalize print v promptText = start at hstart ⊢
  intro start
  refine ⟨?_, fun u hbuf hexited => shellTurns_line exec keys _ u hbuf hexited⟩
  have hchars : ∀ c ∈ keys, c = 0x08 ∨ EchoChar c := by
    intro c hc
    by_cases hback : c = 0x08
    · exact .inl hback
    · exact .inr ((hkeys c hc).1.echoChar hback (hkeys c hc).2)
  have hboot := Echoed.boot hstart
  set first : LineEdit × ShellScreen := (⟨[], []⟩, ⟨start, [], false⟩)
  calc
    _ ↔ Along (shellTurn exec) (fun s c => EchoAgrees exec start (shellTurn exec s c)) keys
        first.2 := (along_states (hboot.agrees hstart)).symm
    _ ↔ Along (editTurn exec start.cursor)
        (fun x c => EchoAgrees exec start (shellTurn exec x.2 c)) keys first :=
          (along_view Prod.snd (fun _ _ => rfl) _ keys first).symm
    _ ↔ Along (editTurn exec start.cursor) (fun x c => EchoFits start x.1 c) keys first :=
          editTurns_iff hstart hchars hboot
    _ ↔ Along (LineEdit.key start.cursor) (EchoFits start) keys first.1 :=
          along_view Prod.fst (fun _ _ => rfl) _ keys first

/-- `lz`, erased to `l` and completed to `ls`, on the first row. -/
theorem shellEcho_iff_typo :
    let start := print (vgaInit (unusedVga (fun _ => 0) 0 0)) promptText
    let s := [ascii 'l', ascii 'z', 0x08, ascii 's'].foldl (shellTurn fun _ v => (-1, v))
      ⟨start, [], false⟩
    s.buf = [ascii 'l', ascii 's'] ∧ EchoAgrees (fun _ v => (-1, v)) start s := by
  intro start s
  have hkeys : ∀ c ∈ [ascii 'l', ascii 'z', 0x08, ascii 's'], Deliverable c ∧ c ≠ 0x0A := by
    have hl : Deliverable (ascii 'l') :=
      ⟨by decide, ⟨false, false, false, false⟩, 0x26, by decide⟩
    have hz : Deliverable (ascii 'z') :=
      ⟨by decide, ⟨false, false, false, false⟩, 0x2C, by decide⟩
    have hback : Deliverable 0x08 := ⟨by decide, ⟨false, false, false, false⟩, 0x0E, by decide⟩
    have hs : Deliverable (ascii 's') :=
      ⟨by decide, ⟨false, false, false, false⟩, 0x1F, by decide⟩
    simp [hl, hz, hback, hs]
    decide
  have hcursor : start.cursor = 8 := by decide
  have herase : Erasable start.cursor [ascii 'l', ascii 'z'] := by
    rw [hcursor]
    exact ⟨by decide, by decide⟩
  have hfits : Along (LineEdit.key start.cursor) (EchoFits start)
      [ascii 'l', ascii 'z', 0x08, ascii 's'] ⟨[], []⟩ :=
    ⟨echoFits_of_ne (by decide) (by decide), echoFits_of_ne (by decide) (by decide),
      ⟨fun _ _ => herase, fun htab => absurd htab (by decide)⟩,
      echoFits_of_ne (by decide) (by decide), trivial⟩
  refine ⟨by decide, ?_⟩
  exact (shellEcho_iff (fun _ v => (-1, v)) (vgaInit (unusedVga (fun _ => 0) 0 0)) (by decide)
    (by decide) _ hkeys).1.mpr hfits _ List.prefix_rfl

/-- A tab at the prompt moves the cursor by four columns, and erasing it takes back one. -/
theorem shellEcho_loses_tab :
    let start := print (vgaInit (unusedVga (fun _ => 0) 0 0)) promptText
    let s := [0x09, 0x08].foldl (shellTurn fun _ v => (-1, v)) ⟨start, [], false⟩
    Deliverable 0x09 ∧ Deliverable 0x08 ∧ s.buf = [] ∧ start.column = 8 ∧ s.screen.column = 11 ∧
      ¬ EchoAgrees (fun _ v => (-1, v)) start s := by
  intro start s
  have hbuf : s.buf = [] := by decide
  have hstart : start.column = 8 := by decide
  have hcolumn : s.screen.column = 11 := by decide
  refine ⟨⟨by decide, ⟨false, false, false, false⟩, 0x0F, by decide⟩,
    ⟨by decide, ⟨false, false, false, false⟩, 0x0E, by decide⟩, hbuf, hstart, hcolumn, ?_⟩
  intro hagree
  have hsame := hagree.2.1
  rw [hbuf, hcolumn] at hsame
  exact absurd (hsame.trans hstart) (by decide)

end Magnos
