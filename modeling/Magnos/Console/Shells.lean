import Magnos.Console.Keyboard

/-!
# The two shells

The kernel's fallback shell and the userspace shell read characters from the keyboard buffer and,
if that has none, from the serial port.  Both poll the same console here; scancodes and serial
bytes arrive between polls.

The kernel shell takes a serial `0x7F` as backspace.  `SYSCALL_GETCHAR` passes it on, and the
userspace shell puts it into the line.
-/

namespace Magnos

open Framework

/-- The keyboard and the bytes that wait at the serial port. -/
structure Console where
  kb : Keyboard
  serial : List UInt8

inductive ConsoleEvent where
  | irq (scancode : UInt8)
  | serial (b : UInt8)
  | poll
deriving DecidableEq

/-- Input arrives. -/
def Console.arrive (i : Console) : ConsoleEvent → Console
  | .irq scancode => { i with kb := (keyboardIrqHandler i.kb scancode).2 }
  | .serial b => { i with serial := i.serial ++ [b] }
  | .poll => i

/-- `keyboard_getchar`, and the serial port if there is no character. -/
def readConsole (translate : UInt8 → UInt8) (i : Console) : UInt8 × Console :=
  let (c, kb) := keyboardGetchar i.kb
  if c = 0 then
    match i.serial with
    | [] => (0, ⟨kb, []⟩)
    | b :: rest => (translate b, ⟨kb, rest⟩)
  else (c, ⟨kb, i.serial⟩)

/-- What `SYSCALL_GETCHAR` does to a serial character. -/
def syscallSerialChar (c : UInt8) : UInt8 := if c = 0x0D then 0x0A else c

/-- What the kernel shell does to a serial character. -/
def kernelSerialChar (c : UInt8) : UInt8 :=
  let c := if c = 0x0D then 0x0A else c
  if c = 0x7F then 0x08 else c

/-- One turn of the loop of `SYSCALL_GETCHAR`. -/
def syscallGetchar (i : Console) : UInt8 × Console := readConsole syscallSerialChar i

/-- The read of the kernel shell. -/
def kernelGetchar (i : Console) : UInt8 × Console := readConsole kernelSerialChar i

/-- A shell: the first `cmd_pos` characters of its buffer and the lines it has submitted. -/
structure Shell where
  input : Console
  buf : List UInt8
  lines : List (List UInt8)

def kernelShellKey (s : Shell) (c : UInt8) : Shell :=
  if c = 0x08 then
    if 0 < s.buf.length then { s with buf := s.buf.dropLast } else s
  else if c = 0x0A then
    { s with lines := if 0 < s.buf.length then s.lines ++ [s.buf] else s.lines, buf := [] }
  else if s.buf.length < 63 then { s with buf := s.buf ++ [c] }
  else s

/-- One turn of the loop of the kernel shell. -/
def kernelShellPoll (s : Shell) : Shell :=
  let (c, input) := kernelGetchar s.input
  let s := { s with input := input }
  if c = 0 then s else kernelShellKey s c

/-- The `strncmp` of `shell.c`, on strings up to their terminators. -/
def shellStrncmp : Nat → List UInt8 → List UInt8 → Int
  | 0, _, _ => 0
  | n + 1, x :: a, y :: b => if x = y then shellStrncmp n a b else (x.toNat : Int) - y.toNat
  | _ + 1, x :: _, [] => x.toNat
  | _ + 1, [], y :: _ => -y.toNat
  | _ + 1, [], [] => 0

def clearLine : List UInt8 := [ascii 'c', ascii 'l', ascii 'e', ascii 'a', ascii 'r']

def exitLine : List UInt8 := [ascii 'e', ascii 'x', ascii 'i', ascii 't']

/-- The userspace shell, which returns on `exit`. -/
structure UserShell extends Shell where
  exited : Bool

def userShellKey (s : UserShell) (c : UInt8) : UserShell :=
  if c = 0x08 then
    if 0 < s.buf.length then { s with buf := s.buf.dropLast } else s
  else if c = 0x0A then
    if 0 < s.buf.length then
      if shellStrncmp 64 s.buf clearLine = 0 then { s with lines := s.lines ++ [s.buf], buf := [] }
      else if shellStrncmp 64 s.buf exitLine = 0 then
        { s with lines := s.lines ++ [s.buf], exited := true }
      else { s with lines := s.lines ++ [s.buf], buf := [] }
    else { s with buf := [] }
  else if s.buf.length < 63 then { s with buf := s.buf ++ [c] }
  else s

/-- One turn of the loop of `SYSCALL_GETCHAR` for the userspace shell. -/
def userShellPoll (s : UserShell) : UserShell :=
  let (c, input) := syscallGetchar s.input
  let s := { s with input := input }
  if c = 0 then s else userShellKey s c

def kernelShellStep (s : Shell) : ConsoleEvent → Shell
  | .poll => kernelShellPoll s
  | event => { s with input := s.input.arrive event }

def userShellStep (s : UserShell) : ConsoleEvent → UserShell
  | .poll => if s.exited then s else userShellPoll s
  | event => { s with input := s.input.arrive event }

/-- The lines that the kernel shell submits. -/
def kernelShellLines (start : Console) (events : List ConsoleEvent) : List (List UInt8) :=
  (events.foldl kernelShellStep ⟨start, [], []⟩).lines

/-- The lines that the userspace shell submits. -/
def userShellLines (start : Console) (events : List ConsoleEvent) : List (List UInt8) :=
  (events.foldl userShellStep ⟨⟨start, [], []⟩, false⟩).lines

inductive InputSource where
  | keyboard
  | serial
deriving DecidableEq

inductive Key where
  | char (c : UInt8)
  | erase
  | enter
deriving DecidableEq

/-- What a character means to a line editor.  A terminal sends a carriage return for Enter and
`0x7F` for its erase key. -/
def referenceKey (source : InputSource) (c : UInt8) : Option Key :=
  if c = 0 then none
  else if c = 0x08 ∨ source = .serial ∧ c = 0x7F then some .erase
  else if c = 0x0A ∨ source = .serial ∧ c = 0x0D then some .enter
  else some (.char c)

/-- Line editing with at most 63 characters. -/
def referenceEdit (s : Shell) : Key → Shell
  | .char c => if s.buf.length < 63 then { s with buf := s.buf ++ [c] } else s
  | .erase => { s with buf := s.buf.dropLast }
  | .enter => { s with lines := if s.buf = [] then s.lines else s.lines ++ [s.buf], buf := [] }

/-- The next character and where it comes from. -/
def Console.next (i : Console) : Option (InputSource × UInt8) × Console :=
  let (c, kb) := keyboardGetchar i.kb
  if c ≠ 0 then (some (.keyboard, c), ⟨kb, i.serial⟩)
  else
    match i.serial with
    | [] => (none, ⟨kb, []⟩)
    | b :: rest => (some (.serial, b), ⟨kb, rest⟩)

def referencePoll (s : Shell) : Shell :=
  let (next, input) := s.input.next
  let s := { s with input := input }
  match next.bind fun (source, c) => referenceKey source c with
  | none => s
  | some key => referenceEdit s key

def referenceStep (s : Shell) : ConsoleEvent → Shell
  | .poll => referencePoll s
  | event => { s with input := s.input.arrive event }

/-- The lines of the reference line editor. -/
def referenceLines (start : Console) (events : List ConsoleEvent) : List (List UInt8) :=
  (events.foldl referenceStep ⟨start, [], []⟩).lines

/-- The lines up to the first `exit`. -/
def upToExit : List (List UInt8) → List (List UInt8)
  | [] => []
  | line :: lines => if line = exitLine then [line] else line :: upToExit lines

theorem readConsole_eq (translate : UInt8 → UInt8) (i : Console) :
    i.next.1 = none ∧ readConsole translate i = (0, i.next.2) ∨
      (∃ c, c ≠ 0 ∧ i.next.1 = some (.keyboard, c) ∧ readConsole translate i = (c, i.next.2)) ∨
      ∃ b, b ∈ i.serial ∧ i.next.1 = some (.serial, b) ∧
        readConsole translate i = (translate b, i.next.2) := by
  unfold readConsole Console.next
  dsimp only
  by_cases hc : (keyboardGetchar i.kb).1 = 0
  · rw [if_pos hc, if_neg (not_not.mpr hc)]
    cases hserial : i.serial with
    | nil => exact .inl ⟨rfl, rfl⟩
    | cons b rest => exact .inr (.inr ⟨b, List.mem_cons_self, rfl, rfl⟩)
  · rw [if_neg hc, if_pos hc]
    exact .inr (.inl ⟨_, hc, rfl, rfl⟩)

theorem erase_eq (s : Shell) :
    (if 0 < s.buf.length then { s with buf := s.buf.dropLast } else s) = referenceEdit s .erase := by
  rw [referenceEdit]
  split
  · rfl
  · next hempty =>
      have hnil : s.buf = [] := List.length_eq_zero_iff.mp (by omega)
      rw [hnil, List.dropLast_nil, ← hnil]

theorem enter_eq (s : Shell) :
    { s with lines := if 0 < s.buf.length then s.lines ++ [s.buf] else s.lines, buf := [] } =
      referenceEdit s .enter := by
  rw [referenceEdit]
  by_cases hempty : s.buf = [] <;> simp [hempty, List.length_pos_iff]

/-- The key that both shells take a character for. -/
def shellKey (c : UInt8) : Key :=
  if c = 0x08 then .erase else if c = 0x0A then .enter else .char c

theorem kernelShellKey_eq (s : Shell) (c : UInt8) :
    kernelShellKey s c = referenceEdit s (shellKey c) := by
  unfold kernelShellKey shellKey
  by_cases herase : c = 0x08
  · rw [if_pos herase, if_pos herase]
    exact erase_eq s
  · rw [if_neg herase, if_neg herase]
    by_cases henter : c = 0x0A
    · rw [if_pos henter, if_pos henter]
      exact enter_eq s
    · rw [if_neg henter, if_neg henter]
      rfl

theorem referenceKey_keyboard {c : UInt8} (hc : c ≠ 0) :
    referenceKey .keyboard c = some (shellKey c) := by
  unfold referenceKey shellKey
  by_cases herase : c = 0x08 <;> by_cases henter : c = 0x0A <;> simp [hc, herase, henter]

theorem referenceKey_serial (b : UInt8) :
    referenceKey .serial b =
      if kernelSerialChar b = 0 then none else some (shellKey (kernelSerialChar b)) := by
  unfold referenceKey shellKey kernelSerialChar
  by_cases hzero : b = 0
  · simp +decide [hzero]
  · by_cases hreturn : b = 0x0D
    · simp +decide [hreturn]
    · by_cases hdelete : b = 0x7F
      · simp +decide [hdelete]
      · by_cases herase : b = 0x08 <;> by_cases henter : b = 0x0A <;>
          simp [hzero, hreturn, hdelete, herase, henter]

theorem kernelShellPoll_eq (s : Shell) : kernelShellPoll s = referencePoll s := by
  rw [kernelShellPoll, kernelGetchar, referencePoll]
  rcases readConsole_eq kernelSerialChar s.input with
    ⟨hnone, hread⟩ | ⟨c, hc, hkey, hread⟩ | ⟨b, -, hserial, hread⟩
  · rw [hread]
    dsimp only
    rw [hnone, if_pos rfl]
    rfl
  · rw [hread]
    dsimp only
    rw [hkey, if_neg hc, kernelShellKey_eq]
    simp only [Option.bind_some, referenceKey_keyboard hc]
  · rw [hread]
    dsimp only
    rw [hserial]
    simp only [Option.bind_some, referenceKey_serial b, kernelShellKey_eq]
    by_cases hzero : kernelSerialChar b = 0
    · simp only [if_pos hzero]
    · simp only [if_neg hzero]

theorem kernelShellLines_eq (start : Console) (events : List ConsoleEvent) :
    kernelShellLines start events = referenceLines start events := by
  have hstep : kernelShellStep = referenceStep := by
    funext s event
    cases event with
    | poll => exact kernelShellPoll_eq s
    | irq scancode => rfl
    | serial b => rfl
  rw [kernelShellLines, referenceLines, hstep]

theorem noNul_of_all {line : List UInt8} (hall : line.all (· != 0) = true) : ∀ c ∈ line, c ≠ 0 := by
  intro c hc
  exact bne_iff_ne.mp (List.all_eq_true.mp hall c hc)

theorem shellStrncmp_eq_zero {n : Nat} {a b : List UInt8} (ha : ∀ c ∈ a, c ≠ 0) (hb : ∀ c ∈ b, c ≠ 0)
    (hlen : a.length < n) : shellStrncmp n a b = 0 ↔ a = b := by
  induction n generalizing a b with
  | zero => exact absurd hlen (Nat.not_lt_zero _)
  | succ n ih =>
      cases a with
      | nil =>
          cases b with
          | nil => simp [shellStrncmp]
          | cons y b =>
              have hy : y.toNat ≠ 0 := fun h => hb y List.mem_cons_self (UInt8.toNat_inj.mp h)
              simp [shellStrncmp, hy]
      | cons x a =>
          cases b with
          | nil =>
              have hx : x.toNat ≠ 0 := fun h => ha x List.mem_cons_self (UInt8.toNat_inj.mp h)
              simp [shellStrncmp, hx]
          | cons y b =>
              rw [shellStrncmp]
              by_cases hxy : x = y
              · rw [if_pos hxy, ih (fun c hc => ha c (List.mem_cons_of_mem x hc))
                  (fun c hc => hb c (List.mem_cons_of_mem y hc)) (by simpa using hlen)]
                simp [hxy]
              · have hne : x.toNat ≠ y.toNat := fun h => hxy (UInt8.toNat_inj.mp h)
                rw [if_neg hxy]
                simp only [List.cons.injEq, hxy, false_and, iff_false]
                omega

theorem upToExit_of_not_mem {lines : List (List UInt8)} (h : exitLine ∉ lines) :
    upToExit lines = lines := by
  induction lines with
  | nil => rfl
  | cons line lines ih =>
      rw [List.mem_cons, not_or] at h
      rw [upToExit, if_neg (Ne.symm h.1), ih h.2]

theorem upToExit_snoc_of_mem {lines : List (List UInt8)} (h : exitLine ∈ lines)
    (line : List UInt8) : upToExit (lines ++ [line]) = upToExit lines := by
  induction lines with
  | nil => cases h
  | cons first lines ih =>
      rw [List.cons_append, upToExit, upToExit]
      by_cases hfirst : first = exitLine
      · rw [if_pos hfirst, if_pos hfirst]
      · rw [if_neg hfirst, if_neg hfirst, ih (List.mem_of_ne_of_mem (Ne.symm hfirst) h)]

theorem upToExit_snoc_of_not_mem {lines : List (List UInt8)} (h : exitLine ∉ lines)
    (line : List UInt8) : upToExit (lines ++ [line]) = lines ++ [line] := by
  induction lines with
  | nil =>
      rw [List.nil_append, upToExit]
      split <;> rfl
  | cons first lines ih =>
      rw [List.mem_cons, not_or] at h
      rw [List.cons_append, upToExit, if_neg (Ne.symm h.1), ih h.2]

theorem syscallSerialChar_eq {b : UInt8} (hb : b ≠ 0x7F) :
    syscallSerialChar b = kernelSerialChar b := by
  unfold syscallSerialChar kernelSerialChar
  by_cases hreturn : b = 0x0D
  · simp +decide [hreturn]
  · simp [hreturn, hb]

theorem syscallGetchar_eq {i : Console} (hclean : ∀ b ∈ i.serial, b ≠ 0x7F) :
    syscallGetchar i = kernelGetchar i := by
  rw [syscallGetchar, kernelGetchar, readConsole, readConsole]
  cases hserial : i.serial with
  | nil => rfl
  | cons b rest =>
      rw [hserial] at hclean
      simp only [syscallSerialChar_eq (hclean b List.mem_cons_self)]

theorem kernelGetchar_serial (i : Console) : (kernelGetchar i).2.serial ⊆ i.serial := by
  rw [kernelGetchar, readConsole]
  dsimp only
  split
  · cases hserial : i.serial with
    | nil => exact List.Subset.refl []
    | cons b rest => exact List.subset_cons_self b rest
  · exact List.Subset.refl _

/-- The line that is being edited fits its buffer and is a C string. -/
structure EditOk (s : Shell) : Prop where
  chars : ∀ c ∈ s.buf, c ≠ 0
  short : s.buf.length ≤ 63

theorem shellKey_char {c d : UInt8} (h : shellKey c = .char d) : d = c := by
  unfold shellKey at h
  split at h
  · cases h
  · split at h
    · cases h
    · exact (Key.char.inj h).symm

theorem EditOk.key {s : Shell} (h : EditOk s) {c : UInt8} (hc : c ≠ 0) :
    EditOk (kernelShellKey s c) := by
  have hshort := h.short
  rw [kernelShellKey_eq]
  cases hkey : shellKey c with
  | char d =>
      rw [shellKey_char hkey, referenceEdit]
      split
      · next hroom =>
          refine ⟨?_, by simpa using hroom⟩
          intro e he
          rcases List.mem_append.mp he with hold | hnew
          · exact h.chars e hold
          · rw [List.mem_singleton.mp hnew]
            exact hc
      · exact h
  | erase =>
      constructor
      · intro d hd
        exact h.chars d (List.mem_of_mem_dropLast hd)
      · rw [referenceEdit, List.length_dropLast]
        omega
  | enter => exact ⟨nofun, Nat.zero_le 63⟩

/-- The userspace shell and the kernel shell after the same input. -/
structure ShellsAgree (u : UserShell) (k : Shell) : Prop where
  exited : u.exited = true ↔ exitLine ∈ k.lines
  lines : u.lines = upToExit k.lines
  same : u.exited = false → u.input = k.input ∧ u.buf = k.buf
  edit : EditOk k
  clean : ∀ b ∈ k.input.serial, b ≠ 0x7F

theorem kernelShellKey_input (s : Shell) (c : UInt8) : (kernelShellKey s c).input = s.input := by
  rw [kernelShellKey_eq]
  cases shellKey c with
  | char d =>
      rw [referenceEdit]
      split <;> rfl
  | erase => rfl
  | enter => rfl

theorem kernelShellKey_lines (s : Shell) (c : UInt8) :
    (kernelShellKey s c).lines = s.lines ∨ (kernelShellKey s c).lines = s.lines ++ [s.buf] := by
  rw [kernelShellKey_eq]
  cases shellKey c with
  | char d =>
      left
      rw [referenceEdit]
      split <;> rfl
  | erase => exact .inl rfl
  | enter =>
      rw [referenceEdit]
      dsimp only
      split
      · exact .inl rfl
      · exact .inr rfl

theorem userShellKey_eq {k : Shell} (hedit : EditOk k) (c : UInt8) :
    c ≠ 0x0A ∧ userShellKey ⟨k, false⟩ c = ⟨kernelShellKey k c, false⟩ ∧
        (kernelShellKey k c).lines = k.lines ∨
      c = 0x0A ∧ k.buf ≠ exitLine ∧ userShellKey ⟨k, false⟩ c = ⟨kernelShellKey k c, false⟩ ∨
      c = 0x0A ∧ k.buf = exitLine ∧ (kernelShellKey k c).lines = k.lines ++ [exitLine] ∧
        (userShellKey ⟨k, false⟩ c).lines = k.lines ++ [exitLine] ∧
        (userShellKey ⟨k, false⟩ c).exited = true := by
  have hshort := hedit.short
  by_cases henter : c = 0x0A
  · right
    have hclear : shellStrncmp 64 k.buf clearLine = 0 ↔ k.buf = clearLine :=
      shellStrncmp_eq_zero hedit.chars (noNul_of_all (by decide)) (by omega)
    have hexit : shellStrncmp 64 k.buf exitLine = 0 ↔ k.buf = exitLine :=
      shellStrncmp_eq_zero hedit.chars (noNul_of_all (by decide)) (by omega)
    subst henter
    have hkernel : kernelShellKey k 0x0A =
        { k with lines := if 0 < k.buf.length then k.lines ++ [k.buf] else k.lines, buf := [] } := rfl
    have huser : userShellKey ⟨k, false⟩ 0x0A =
        if 0 < k.buf.length then
          if shellStrncmp 64 k.buf clearLine = 0 then
            ⟨{ k with lines := k.lines ++ [k.buf], buf := [] }, false⟩
          else if shellStrncmp 64 k.buf exitLine = 0 then ⟨{ k with lines := k.lines ++ [k.buf] }, true⟩
          else ⟨{ k with lines := k.lines ++ [k.buf], buf := [] }, false⟩
        else ⟨{ k with buf := [] }, false⟩ := rfl
    rw [hkernel, huser]
    by_cases hline : k.buf = exitLine
    · right
      have hpos : 0 < k.buf.length := by
        rw [hline]
        decide
      have hother : ¬ shellStrncmp 64 k.buf clearLine = 0 := by
        rw [hclear, hline]
        decide
      rw [if_pos hpos, if_neg hother, if_pos (hexit.mpr hline), if_pos hpos, ← hline]
      exact ⟨rfl, rfl, rfl, rfl, rfl⟩
    · left
      refine ⟨rfl, hline, ?_⟩
      by_cases hpos : 0 < k.buf.length
      · rw [if_pos hpos, if_pos hpos, if_neg (hexit.not.mpr hline), ite_self]
      · rw [if_neg hpos, if_neg hpos]
  · left
    refine ⟨henter, ?_, ?_⟩
    · rw [userShellKey, kernelShellKey, if_neg henter, if_neg henter]
      split
      · split <;> rfl
      · split <;> rfl
    · rw [kernelShellKey, if_neg henter]
      split
      · split <;> rfl
      · split <;> rfl

namespace ShellsAgree

variable {u : UserShell} {k : Shell}

theorem key_exited (h : ShellsAgree u k) (hexited : u.exited = true) {c : UInt8} (hc : c ≠ 0) :
    ShellsAgree u (kernelShellKey k c) := by
  have hmem := h.exited.mp hexited
  have hlines : exitLine ∈ (kernelShellKey k c).lines ∧
      upToExit (kernelShellKey k c).lines = upToExit k.lines := by
    rcases kernelShellKey_lines k c with hsame | hnew
    · rw [hsame]
      exact ⟨hmem, rfl⟩
    · rw [hnew]
      exact ⟨List.mem_append_left _ hmem, upToExit_snoc_of_mem hmem _⟩
  refine ⟨⟨fun _ => hlines.1, fun _ => hexited⟩, h.lines.trans hlines.2.symm, ?_, h.edit.key hc, ?_⟩
  · intro hrunning
    rw [hexited] at hrunning
    cases hrunning
  · rw [kernelShellKey_input]
    exact h.clean

theorem running (h : ShellsAgree u k) (hrunning : u.exited = false) :
    u = ⟨k, false⟩ ∧ exitLine ∉ k.lines := by
  have hno : exitLine ∉ k.lines := by
    intro hmem
    rw [h.exited.mpr hmem] at hrunning
    cases hrunning
  obtain ⟨⟨input, buf, lines⟩, exited⟩ := u
  obtain rfl : exited = false := hrunning
  obtain ⟨rfl, rfl⟩ : input = k.input ∧ buf = k.buf := h.same rfl
  obtain rfl : lines = k.lines := h.lines.trans (upToExit_of_not_mem hno)
  exact ⟨rfl, hno⟩

theorem of_running (hno : exitLine ∉ k.lines) (hedit : EditOk k)
    (hclean : ∀ b ∈ k.input.serial, b ≠ 0x7F) : ShellsAgree ⟨k, false⟩ k :=
  ⟨⟨nofun, fun hmem => absurd hmem hno⟩, (upToExit_of_not_mem hno).symm, fun _ => ⟨rfl, rfl⟩, hedit,
    hclean⟩

theorem key (h : ShellsAgree u k) (hrunning : u.exited = false) {c : UInt8} (hc : c ≠ 0) :
    ShellsAgree (userShellKey u c) (kernelShellKey k c) := by
  obtain ⟨rfl, hno⟩ := h.running hrunning
  have hedit := h.edit.key hc
  have hclean : ∀ b ∈ (kernelShellKey k c).input.serial, b ≠ 0x7F := by
    rw [kernelShellKey_input]
    exact h.clean
  rcases userShellKey_eq h.edit c with
    ⟨-, heq, hlines⟩ | ⟨-, hline, heq⟩ | ⟨-, -, hlines, huser, hexited⟩
  · rw [heq]
    exact of_running (hlines ▸ hno) hedit hclean
  · rw [heq]
    apply of_running _ hedit hclean
    rcases kernelShellKey_lines k c with hsame | hnew
    · rw [hsame]
      exact hno
    · rw [hnew, List.mem_append, List.mem_singleton, not_or]
      exact ⟨hno, Ne.symm hline⟩
  · refine ⟨⟨fun _ => ?_, fun _ => hexited⟩, ?_, ?_, hedit, hclean⟩
    · rw [hlines]
      exact List.mem_append_right _ (List.mem_singleton_self _)
    · rw [hlines, huser, upToExit_snoc_of_not_mem hno]
    · intro hstill
      rw [hexited] at hstill
      cases hstill

theorem poll (h : ShellsAgree u k) : ShellsAgree (userShellStep u .poll) (kernelShellStep k .poll) := by
  have hserial : ∀ b ∈ (kernelGetchar k.input).2.serial, b ≠ 0x7F := fun b hb =>
    h.clean b (kernelGetchar_serial k.input hb)
  rw [userShellStep, kernelShellStep, kernelShellPoll]
  dsimp only
  by_cases hexited : u.exited = true
  · rw [if_pos hexited]
    have hread : ShellsAgree u { k with input := (kernelGetchar k.input).2 } := by
      refine ⟨h.exited, h.lines, ?_, ⟨h.edit.chars, h.edit.short⟩, hserial⟩
      intro hrunning
      rw [hexited] at hrunning
      cases hrunning
    split
    · exact hread
    · next hc => exact hread.key_exited hexited hc
  · rw [if_neg hexited]
    obtain ⟨rfl, hno⟩ := h.running (Bool.eq_false_of_not_eq_true hexited)
    have hread : ShellsAgree ⟨{ k with input := (kernelGetchar k.input).2 }, false⟩
        { k with input := (kernelGetchar k.input).2 } :=
      of_running hno ⟨h.edit.chars, h.edit.short⟩ hserial
    rw [userShellPoll, syscallGetchar_eq h.clean]
    dsimp only
    by_cases hc : (kernelGetchar k.input).1 = 0
    · rw [if_pos hc, if_pos hc]
      exact hread
    · rw [if_neg hc, if_neg hc]
      exact hread.key rfl hc

theorem arrive (h : ShellsAgree u k) {event : ConsoleEvent} (hpoll : event ≠ .poll)
    (hclean : ∀ b, event = .serial b → b ≠ 0x7F) :
    ShellsAgree (userShellStep u event) (kernelShellStep k event) := by
  have huser : userShellStep u event = { u with input := u.input.arrive event } := by
    cases event with
    | poll => exact absurd rfl hpoll
    | irq scancode => rfl
    | serial b => rfl
  have hkernel : kernelShellStep k event = { k with input := k.input.arrive event } := by
    cases event with
    | poll => exact absurd rfl hpoll
    | irq scancode => rfl
    | serial b => rfl
  rw [huser, hkernel]
  refine ⟨h.exited, h.lines, ?_, ⟨h.edit.chars, h.edit.short⟩, ?_⟩
  · intro hrunning
    obtain ⟨hinput, hbuf⟩ := h.same hrunning
    exact ⟨congrArg (fun i => i.arrive event) hinput, hbuf⟩
  · intro b hb
    cases event with
    | poll => exact h.clean b hb
    | irq scancode => exact h.clean b hb
    | serial b' =>
        rcases List.mem_append.mp hb with hold | hnew
        · exact h.clean b hold
        · rw [List.mem_singleton.mp hnew]
          exact hclean b' rfl

theorem run (h : ShellsAgree u k) (events : List ConsoleEvent)
    (hclean : ∀ b, .serial b ∈ events → b ≠ 0x7F) :
    ShellsAgree (events.foldl userShellStep u) (events.foldl kernelShellStep k) := by
  induction events generalizing u k with
  | nil => exact h
  | cons event events ih =>
      rw [List.foldl_cons, List.foldl_cons]
      apply ih _ fun b hb => hclean b (List.mem_cons_of_mem event hb)
      by_cases hpoll : event = .poll
      · rw [hpoll]
        exact h.poll
      · apply h.arrive hpoll
        rintro b rfl
        exact hclean b List.mem_cons_self

end ShellsAgree

theorem shellLines_erase :
    kernelShellLines ⟨idleKeyboard, []⟩ [.irq 0x1E, .poll, .serial 0x7F, .poll, .irq 0x1C, .poll] =
        [] ∧
      userShellLines ⟨idleKeyboard, []⟩ [.irq 0x1E, .poll, .serial 0x7F, .poll, .irq 0x1C, .poll] =
        [[0x61, 0x7F]] := by
  decide +kernel

/-- The two shells submit the same lines, those of the reference, for all input whose serial
bytes are taken from a set, exactly if `0x7F` is not in the set. -/
theorem shells_agree_iff (alphabet : Set UInt8) :
    (∀ (start : Console) (events : List ConsoleEvent), (∀ b ∈ start.serial, b ∈ alphabet) →
        (∀ b, .serial b ∈ events → b ∈ alphabet) →
        kernelShellLines start events = referenceLines start events ∧
        userShellLines start events = upToExit (kernelShellLines start events)) ↔
      0x7F ∉ alphabet := by
  constructor
  · intro hall hmem
    have hevents : ∀ b, ConsoleEvent.serial b ∈
        [.irq 0x1E, .poll, .serial 0x7F, .poll, .irq 0x1C, .poll] → b ∈ alphabet := by
      intro b hb
      obtain rfl : b = 0x7F := by simpa using hb
      exact hmem
    obtain ⟨hkernel, huser⟩ := shellLines_erase
    have hagree := (hall ⟨idleKeyboard, []⟩ _ (by simp) hevents).2
    rw [hkernel, huser] at hagree
    cases hagree
  · intro hno start events hstart hevents
    refine ⟨kernelShellLines_eq start events, ?_⟩
    have hedit : EditOk ⟨start, [], []⟩ := ⟨nofun, Nat.zero_le 63⟩
    have hboot : ShellsAgree ⟨⟨start, [], []⟩, false⟩ ⟨start, [], []⟩ := by
      apply ShellsAgree.of_running List.not_mem_nil hedit
      rintro b hb rfl
      exact hno (hstart _ hb)
    apply (hboot.run events _).lines
    rintro b hb rfl
    exact hno (hevents _ hb)

/-- The shells differ on `a`, the terminal's erase key and Enter. -/
theorem shells_disagree : ¬ ∀ (start : Console) (events : List ConsoleEvent),
    userShellLines start events = upToExit (kernelShellLines start events) := by
  intro hall
  obtain ⟨hkernel, huser⟩ := shellLines_erase
  have hagree := hall ⟨idleKeyboard, []⟩
    [.irq 0x1E, .poll, .serial 0x7F, .poll, .irq 0x1C, .poll]
  rw [hkernel, huser] at hagree
  cases hagree

end Magnos
