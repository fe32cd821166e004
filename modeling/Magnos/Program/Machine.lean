import Magnos.Framework.Transition
import Magnos.Loader.Elf
import Magnos.Syscall.Files

/-!
# Running programs

`SYSCALL_EXEC`, `SYSCALL_EXIT` and the kernel's own `execute_command` on the state they share:
the memory that programs are loaded to, the one image of it that `SYSCALL_EXEC` saves, the
stack of contexts that an exit jumps back to, and the kernel stack that traps start on.

Every call of `elf_load_and_exec` that has started a program has a frame on the kernel stack
until that program exits.  A frame records, besides its own locals, what the caller's memory
and `tss.esp0` were when the call was made; the kernel does not know these records.
-/

namespace Magnos

open Framework

/-- How far below the data of its frame the stack pointer is where the compiled code of
`elf_load_and_exec` takes it: for `saved_esp0`, in `exec_setjmp`, which records the position of
its argument, and for `tss.esp0`. -/
structure LoaderStack where
  saved : Nat
  argument : Nat
  current : Nat

/-- The drive, a bound for walks through the root directory, the loader's use of the stack, and
where the linker puts the two buffers that programs are read to. -/
structure Platform where
  dev : Device
  clusters : Nat
  stack : LoaderStack
  execBuffer : UInt32
  binaryBuffer : UInt32
  execBuffer_le : execBuffer.toNat + 65536 ≤ userBase
  binaryBuffer_le : binaryBuffer.toNat + 65536 ≤ userBase

/-- How the search for a program ends: it does not, with an error, or with an ELF file in the
buffer. -/
inductive Fetched where
  | hangs
  | failed (code : UInt32)
  | image
deriving DecidableEq

/-- The test for the ELF magic that both callers of `elf_load_and_exec` make. -/
def ElfMagic (mem : Memory) (buffer : UInt32) : Prop :=
  mem buffer = 0x7F ∧ mem (buffer + 1) = 0x45 ∧ mem (buffer + 2) = 0x4C ∧ mem (buffer + 3) = 0x46

instance (mem : Memory) (buffer : UInt32) : Decidable (ElfMagic mem buffer) :=
  inferInstanceAs (Decidable (_ ∧ _))

/-- The open file is read to the buffer whole and closed. -/
def readProgram (dev : Device) (buffer : UInt32) (k : Kernel) : Fetched × Kernel :=
  let (result, fat) := fat32Read dev k.fat k.fat.file.size.toNat
  let k := { k with fat := fat32Close fat, mem := k.mem.storeAll (storesAt buffer result.bytes) }
  match result.ret with
  | none => (.hangs, k)
  | some n =>
      if n ≤ 0 then (.failed (-3), k)
      else if ElfMagic k.mem buffer then (.image, k)
      else (.failed (-4), k)

/-- The way from a command line to a program in a buffer of 64 KB.  `execute_command` refuses
an empty file before it reads it. -/
def fetchProgram (dev : Device) (clusters : Nat) (buffer : UInt32) (refuseEmpty : Bool)
    (k : Kernel) (cmdline : CString) : Fetched × Kernel :=
  let k := { k with args := (parseCommandLine cmdline).2 }
  match fat32Open dev clusters k.fat (programFile (parseCommandLine cmdline).1) with
  | (none, fat) => (.hangs, { k with fat := fat })
  | (some false, fat) => (.failed (-1), { k with fat := fat })
  | (some true, fat) =>
      if fat.file.size.toNat > 65536 ∨ refuseEmpty ∧ fat.file.size = 0 then
        (.failed (-2), { k with fat := fat32Close fat })
      else readProgram dev buffer { k with fat := fat }

/-- What a program had when it called `SYSCALL_EXEC`. -/
structure ExecCall where
  mem : Memory
  esp0 : Int

inductive Caller where
  | command
  | syscall (call : ExecCall)

/-- A live frame of `elf_load_and_exec`: the bottom of its data, the position that `exec_setjmp`
has recorded for it, its local `saved_esp0`, and who called it. -/
structure LoaderFrame where
  esp : Int
  recorded : Int
  savedEsp0 : Int
  caller : Caller

/-- The frames of the live calls stand on the kernel stack, the innermost first. -/
structure Machine where
  kernel : Kernel
  savedProgram : Nat → UInt8
  execStack : Nat → Int
  execDepth : Nat
  esp0 : Int
  frames : List LoaderFrame

def maxExecDepth : Nat := 8

/-- Where the boot stack starts and `gdt_init` lets traps start. -/
def bootStack : Int := 0x1F0000

/-- The machine after boot, before the first command. -/
def Machine.boot (k : Kernel) (savedProgram : Nat → UInt8) : Machine :=
  ⟨k, savedProgram, fun _ => 0, 0, bootStack, []⟩

/-- The bytes of the user region. -/
def userImage (mem : Memory) : Nat → UInt8 := fun j => mem (.ofNat (userBase + j))

/-- The copy of a saved image back to the user region. -/
def restoreImage (saved : Nat → UInt8) (mem : Memory) : Memory :=
  fun a => if UserAddr a then saved (a.toNat - userBase) else mem a

/-- The segments of a program are placed. -/
def Machine.load (m : Machine) (elf : UInt32) : Machine :=
  { m with kernel := { m.kernel with
      mem := m.kernel.mem.storeAll (elfStores m.kernel.mem elf) } }

/-- `exec_setjmp` records where its argument is, below the frame, and traps start at the stack
pointer of the frame. -/
def Machine.enter (m : Machine) (stack : LoaderStack) (esp : Int) (caller : Caller) : Machine :=
  { m with
    execStack := fun i => if i = m.execDepth then esp - stack.argument else m.execStack i
    execDepth := m.execDepth + 1
    esp0 := esp - stack.current
    frames := ⟨esp, esp - stack.argument, esp - stack.saved, caller⟩ :: m.frames }

/-- The return of `exec_setjmp` to a frame after an exit. -/
def Machine.leave (m : Machine) (frame : LoaderFrame) (outer : List LoaderFrame) : Machine :=
  { m with execDepth := m.execDepth - 1, esp0 := frame.savedEsp0, frames := outer }

/-- The saved image is copied back. -/
def Machine.restore (m : Machine) : Machine :=
  { m with kernel := { m.kernel with mem := restoreImage m.savedProgram m.kernel.mem } }

/-- `elf_load_and_exec` with its frame at `esp`; `false` for the result -1. -/
def elfLoadAndExec (m : Machine) (stack : LoaderStack) (elf : UInt32) (esp : Int)
    (caller : Caller) : Bool × Machine :=
  if ElfHeaderValid m.kernel.mem elf then
    if m.execDepth ≥ maxExecDepth then (false, m.load elf)
    else (true, (m.load elf).enter stack esp caller)
  else (false, m)

/-- The stack that a trap, `syscall_handler` and `elf_load_and_exec` take. -/
structure FrameSizes where
  entry : Nat
  handler : Nat
  loader : Nat
  entry_pos : 0 < entry
  handler_pos : 0 < handler
  loader_pos : 0 < loader
deriving DecidableEq

def FrameSizes.total (sizes : FrameSizes) : Nat := sizes.entry + sizes.handler + sizes.loader

theorem FrameSizes.total_pos (sizes : FrameSizes) : 0 < sizes.total := by
  have h := sizes.entry_pos
  unfold FrameSizes.total
  omega

/-- What the running program does next, or the command typed when none is running. -/
inductive ProgramOp where
  | store (addr : UInt32) (byte : UInt8)
  | file (call : FileSyscall)
  | exec (cmd : UInt32) (sizes : FrameSizes)
  | exit
  | command (line : CString) (used : Nat)
deriving DecidableEq

/-- What comes of it. -/
inductive Event where
  | stored
  | served (ret : UInt32) (stores : List (UInt32 × UInt8))
  | execFailed (code : UInt32)
  | launched
  | returned (call : ExecCall)
  | finished
  | notRun

/-- The `SYSCALL_EXEC` call that returns to its program in a step from `m`. -/
def Event.execReturn (m : Machine) : Event → Option ExecCall
  | .execFailed _ => some ⟨m.kernel.mem, m.esp0⟩
  | .returned call => some call
  | _ => none

/-- The search of `SYSCALL_EXEC` for the program that a command names. -/
def Machine.fetch (p : Platform) (m : Machine) (cmd : UInt32) : Fetched × Kernel :=
  fetchProgram p.dev p.clusters p.execBuffer false m.kernel (commandLine m.kernel.mem cmd)

/-- The machine when `SYSCALL_EXEC` has saved the caller's image. -/
def Machine.saved (m : Machine) (k : Kernel) : Machine :=
  { m with kernel := k, savedProgram := userImage k.mem }

/-- `SYSCALL_EXEC` of the running program. -/
def Machine.exec (p : Platform) (m : Machine) (cmd : UInt32) (sizes : FrameSizes) :
    Option (Event × Machine) :=
  if cmd = 0 then some (.execFailed (-1), m)
  else
    match m.fetch p cmd with
    | (.hangs, _) => none
    | (.failed code, k) => some (.execFailed code, { m with kernel := k })
    | (.image, k) =>
        match elfLoadAndExec (m.saved k) p.stack p.execBuffer (m.esp0 - sizes.total)
          (.syscall ⟨m.kernel.mem, m.esp0⟩) with
        | (true, m) => some (.launched, m)
        | (false, m) => some (.execFailed (-5), m.restore)

/-- `SYSCALL_EXIT`: `exec_longjmp` continues the frame whose position the top context holds. -/
def Machine.exit (m : Machine) : Option (Event × Machine) :=
  if m.execDepth = 0 then some (.served 0 [], m)
  else
    match m.frames.dropWhile fun f => f.recorded ≠ m.execStack (m.execDepth - 1) with
    | [] => none
    | frame :: outer =>
        match frame.caller with
        | .command => some (.finished, m.leave frame outer)
        | .syscall call => some (.returned call, (m.leave frame outer).restore)

/-- `execute_command` of the kernel's shell, with `used` bytes of the boot stack in use. -/
def Machine.command (p : Platform) (m : Machine) (line : CString) (used : Nat) :
    Option (Event × Machine) :=
  match fetchProgram p.dev p.clusters p.binaryBuffer true m.kernel line with
  | (.hangs, _) => none
  | (.failed _, k) => some (.notRun, { m with kernel := k })
  | (.image, k) =>
      match elfLoadAndExec { m with kernel := k } p.stack p.binaryBuffer (bootStack - used)
        .command with
      | (true, m) => some (.launched, m)
      | (false, m) => some (.notRun, m)

/-- One step; none where the kernel does not come back or the program is stopped by a page
fault. -/
def Machine.step (p : Platform) (m : Machine) : ProgramOp → Option (Event × Machine)
  | .store addr byte =>
      if m.frames ≠ [] ∧ UserAddr addr then
        some (.stored, { m with kernel := { m.kernel with mem := m.kernel.mem.set addr byte } })
      else none
  | .file call =>
      if m.frames ≠ [] then
        let served := m.kernel.serve p.dev p.clusters call
        served.ret.map fun ret => (.served ret served.stores, { m with kernel := served.kernel })
      else none
  | .exec cmd sizes => if m.frames ≠ [] then m.exec p cmd sizes else none
  | .exit => if m.frames ≠ [] then m.exit else none
  | .command line used => if m.frames = [] then m.command p line used else none

/-- The step relation of runs, labelled with what is done and what comes of it. -/
def machineStep (p : Platform) (m : Machine) (label : ProgramOp × Event) (m' : Machine) : Prop :=
  m.step p label.1 = some (label.2, m')

end Magnos
