import Magnos.Framework.ByteMemory

/-!
# What programs pass to the kernel

The memory that programs own, C strings in memory, the letter case of file names, and
`parse_command_line`, which splits a command line into a program name and the arguments that
`SYSCALL_GET_ARGS` hands out.
-/

namespace Magnos

open Framework

/-- The region that programs are loaded to and their stack above it. -/
def userBase : Nat := 0x200000

def userEnd : Nat := 0x301000

/-- An address that ring 3 may use. -/
abbrev UserAddr (a : UInt32) : Prop := Window userBase userEnd a

/-- A run of user addresses. -/
abbrev UserRun (addr : UInt32) (n : Nat) : Prop := RunFits userBase userEnd addr n

theorem userRun_iff (addr : UInt32) (n : Nat) :
    UserRun addr n ↔ ∀ a ∈ addressRun addr n, UserAddr a :=
  runFits_iff_addressRun (by decide)

theorem userRun_add (addr : UInt32) (n k : Nat) :
    UserRun addr (n + k) ↔ UserRun addr n ∧ UserRun (addr + .ofNat n) k :=
  runFits_add (by decide) k

/-- The C string at an address, without its terminator and cut after `limit` characters. -/
def cString (mem : Memory) (ptr : UInt32) : (limit : Nat) → List UInt8
  | 0 => []
  | limit + 1 => if mem ptr = 0 then [] else mem ptr :: cString mem (ptr + 1) limit

/-- The conversion to upper case that the handlers make, character by character. -/
def toUpper (ch : UInt8) : UInt8 := if 0x61 ≤ ch ∧ ch ≤ 0x7A then ch - 32 else ch

def maxArgs : Nat := 16

def maxArgLen : Nat := 64

/-- `program_args_t`: the strings below `count`; those above it are empty. -/
structure ProgramArgs where
  words : List (List UInt8)
  count_le : words.length ≤ maxArgs
  short : ∀ w ∈ words, w.length < maxArgLen
  noNul : ∀ w ∈ words, (0 : UInt8) ∉ w

def noArgs : ProgramArgs where
  words := []
  count_le := by decide
  short := by simp
  noNul := by simp

/-- The word at the start of a string, as much of it as fits. -/
def takeWord (line : List UInt8) : List UInt8 := (line.takeWhile (· ≠ 0x20)).take (maxArgLen - 1)

/-- The argument loop of `parse_command_line`, with room for `room` more arguments. -/
def parseWords : (room : Nat) → List UInt8 → List (List UInt8)
  | 0, _ => []
  | room + 1, line =>
      let line := line.dropWhile (· = 0x20)
      if line = [] then []
      else takeWord line :: parseWords room (line.drop (takeWord line).length)

theorem takeWord_length (line : List UInt8) : (takeWord line).length < maxArgLen :=
  Nat.lt_of_le_of_lt (List.length_take_le _ _) (by decide)

theorem takeWord_subset (line : List UInt8) : takeWord line ⊆ line := fun _ hc =>
  (List.takeWhile_sublist _).subset ((List.take_sublist _ _).subset hc)

theorem parseWords_length (room : Nat) (line : List UInt8) :
    (parseWords room line).length ≤ room := by
  induction room generalizing line with
  | zero => simp [parseWords]
  | succ room ih =>
      rw [parseWords]
      split
      · simp
      · exact Nat.succ_le_succ (ih _)

theorem parseWords_mem (room : Nat) (line : List UInt8) (w : List UInt8)
    (hw : w ∈ parseWords room line) : w.length < maxArgLen ∧ w ⊆ line := by
  induction room generalizing line with
  | zero => simp [parseWords] at hw
  | succ room ih =>
      rw [parseWords] at hw
      have hdrop : line.dropWhile (· = 0x20) ⊆ line := (List.dropWhile_sublist _).subset
      split at hw
      · simp at hw
      · rcases List.mem_cons.mp hw with rfl | hw
        · exact ⟨takeWord_length _, List.Subset.trans (takeWord_subset _) hdrop⟩
        · obtain ⟨hshort, hsub⟩ := ih _ hw
          exact ⟨hshort, List.Subset.trans (List.Subset.trans hsub (List.drop_sublist _ _).subset) hdrop⟩

/-- A C string of any length. -/
structure CString where
  chars : List UInt8
  noNul : (0 : UInt8) ∉ chars
deriving DecidableEq

theorem cString_noNul (mem : Memory) (ptr : UInt32) (limit : Nat) :
    (0 : UInt8) ∉ cString mem ptr limit := by
  induction limit generalizing ptr with
  | zero => simp [cString]
  | succ limit ih =>
      rw [cString]
      split
      · simp
      · next hchar => simpa [Ne.symm hchar] using ih (ptr + 1)

/-- The command line at an address; a string longer than the address space has no end. -/
def commandLine (mem : Memory) (ptr : UInt32) : CString :=
  ⟨cString mem ptr (2 ^ 32), cString_noNul mem ptr (2 ^ 32)⟩

/-- The first word of a command line. -/
def CString.program (cmdline : CString) : List UInt8 :=
  takeWord (cmdline.chars.dropWhile (· = 0x20))

def CString.afterProgram (cmdline : CString) : List UInt8 :=
  (cmdline.chars.dropWhile (· = 0x20)).drop cmdline.program.length

theorem CString.afterProgram_subset (cmdline : CString) : cmdline.afterProgram ⊆ cmdline.chars :=
  List.Subset.trans (List.drop_sublist _ _).subset (List.dropWhile_sublist _).subset

/-- `parse_command_line`: the program name and the arguments. -/
def parseCommandLine (cmdline : CString) : List UInt8 × ProgramArgs :=
  (cmdline.program,
    { words := parseWords maxArgs cmdline.afterProgram
      count_le := parseWords_length maxArgs _
      short := fun w hw => (parseWords_mem maxArgs _ w hw).1
      noNul := fun w hw hnul =>
        cmdline.noNul (cmdline.afterProgram_subset ((parseWords_mem maxArgs _ w hw).2 hnul)) })

/-- The file name that a program name stands for: its first eleven characters in upper case. -/
def programFile (program : List UInt8) : List UInt8 := (program.take 11).map toUpper

theorem toUpper_eq_zero {ch : UInt8} (hch : toUpper ch = 0) : ch = 0 := by
  unfold toUpper at hch
  grind

theorem CString.programFile_noNul (cmdline : CString) :
    (0 : UInt8) ∉ programFile cmdline.program := by
  intro hnul
  obtain ⟨c, hc, hzero⟩ := List.mem_map.mp hnul
  rw [toUpper_eq_zero hzero] at hc
  have hword := takeWord_subset _ ((List.take_sublist _ _).subset hc)
  exact cmdline.noNul ((List.dropWhile_sublist _).subset hword)

end Magnos
