import Magnos.Fat32.Directory
import Magnos.Fat32.Read
import Magnos.Syscall.UserSpace

/-!
# File system calls

The cases of `syscall_handler` that work on files and on the program's arguments, with every
byte they store through a pointer that the program passed in.
-/

namespace Magnos

open Framework

/-- The state the file calls work on.  `current_file` is null or points to the one `file` of
`fat32_open`. -/
structure Kernel where
  mem : Memory
  fat : Fat32
  currentFile : Bool
  args : ProgramArgs

/-- The calls about files and arguments. -/
inductive FileSyscall where
  | fileOpen (filename : UInt32)
  | fileRead (buffer size : UInt32)
  | fileClose
  | listDir (buffer maxEntries : UInt32)
  | getArgs (index buffer size : UInt32)
deriving DecidableEq

inductive Syscall where
  | file (call : FileSyscall)
  | exit (code : UInt32)
  | exec (cmd : UInt32)
  | other (number : UInt32)
deriving DecidableEq

/-- The switch of `syscall_handler` on the number in `eax` and the arguments in `ebx`, `ecx`
and `edx`.  The calls under `other` print, wait, or return a number: they store nothing
through a pointer of the program and leave files and programs alone. -/
def Syscall.decode (number arg1 arg2 arg3 : UInt32) : Syscall :=
  match number with
  | 2 => .exit arg1
  | 3 => .file (.fileOpen arg1)
  | 4 => .file (.fileRead arg1 arg2)
  | 5 => .file .fileClose
  | 6 => .file (.listDir arg1 arg2)
  | 7 => .file (.getArgs arg1 arg2 arg3)
  | 9 => .exec arg1
  | number => .other number

/-- How a call was served: its result, none if it does not return, the bytes stored through
its pointers, and the state it leaves. -/
structure Served where
  ret : Option UInt32
  stores : List (UInt32 × UInt8)
  kernel : Kernel

/-- A call that returns at once and changes nothing. -/
def Kernel.refuse (k : Kernel) (ret : UInt32) : Served := ⟨some ret, [], k⟩

/-- `fat32_close(current_file)` and `current_file = NULL`, where it is not null already. -/
def Kernel.closeCurrent (k : Kernel) : Kernel :=
  if k.currentFile then { k with fat := fat32Close k.fat, currentFile := false } else k

theorem Kernel.closeCurrent_mem (k : Kernel) : k.closeCurrent.mem = k.mem := by
  unfold Kernel.closeCurrent
  split <;> rfl

theorem Kernel.closeCurrent_fs (k : Kernel) : k.closeCurrent.fat.fs = k.fat.fs := by
  unfold Kernel.closeCurrent
  split <;> rfl

/-- The name that `SYSCALL_FILE_OPEN` looks up. -/
def openName (mem : Memory) (filename : UInt32) : List UInt8 :=
  (cString mem filename 255).map toUpper

/-- The result of a driver call as the program sees it. -/
def fileResult (ret : Int) : UInt32 := if ret < 0 then -1 else .ofNat ret.toNat

def sysFileOpen (dev : Device) (clusters : Nat) (k : Kernel) (filename : UInt32) : Served :=
  if filename = 0 then k.refuse (-1)
  else
    let k := k.closeCurrent
    match fat32Open dev clusters k.fat (openName k.mem filename) with
    | (none, fat) => ⟨none, [], { k with fat := fat }⟩
    | (some false, fat) => ⟨some (-1), [], { k with fat := fat, currentFile := false }⟩
    | (some true, fat) => ⟨some 0, [], { k with fat := fat, currentFile := true }⟩

def sysFileRead (dev : Device) (k : Kernel) (buffer size : UInt32) : Served :=
  if buffer = 0 ∨ k.currentFile = false then k.refuse (-1)
  else
    let (result, fat) := fat32Read dev k.fat size.toNat
    let stores := storesAt buffer result.bytes
    ⟨result.ret.map fileResult, stores, { k with fat := fat, mem := k.mem.storeAll stores }⟩

def sysFileClose (k : Kernel) : Served :=
  if k.currentFile = false then k.refuse (-1) else ⟨some 0, [], k.closeCurrent⟩

/-- The stores that fill in entry `k` of an array of `fat32_dirinfo_t`. -/
def dirInfoStores (entries : UInt32) (k : Nat) (info : DirInfo) : List (UInt32 × UInt8) :=
  let entry := entries + .ofNat (24 * k)
  storesAt entry (info.name ++ [0]) ++ storesAt (entry + 16) (leBytes info.size) ++
    storesAt (entry + 20) [if info.isDirectory then 1 else 0]

def listingStores (entries : UInt32) (filled : List DirInfo) : List (UInt32 × UInt8) :=
  (filled.mapIdx (dirInfoStores entries)).flatten

def sysListDir (dev : Device) (clusters : Nat) (k : Kernel) (buffer maxEntries : UInt32) : Served :=
  if buffer = 0 ∨ maxEntries = 0 then k.refuse (-1)
  else
    let (listing, fat) := fat32ListDir dev clusters k.fat true (toInt32 maxEntries.toNat)
    let stores := listingStores buffer listing.filled
    ⟨listing.ret.map fileResult, stores, { k with fat := fat, mem := k.mem.storeAll stores }⟩

/-- The string that the copy loop of `SYSCALL_GET_ARGS` leaves, with its terminator. -/
def argBytes (word : List UInt8) (size : Nat) : List UInt8 := word.take (size - 1) ++ [0]

def sysGetArgs (k : Kernel) (index buffer size : UInt32) : Served :=
  let argIdx := toInt32 index.toNat
  if argIdx = -1 then k.refuse (.ofNat k.args.words.length)
  else if buffer = 0 ∨ size = 0 then k.refuse (-1)
  else if argIdx < 0 ∨ argIdx ≥ k.args.words.length then k.refuse (-1)
  else
    let stores := storesAt buffer (argBytes (k.args.words.getD argIdx.toNat []) size.toNat)
    ⟨some 0, stores, { k with mem := k.mem.storeAll stores }⟩

def Kernel.serve (dev : Device) (clusters : Nat) (k : Kernel) : FileSyscall → Served
  | .fileOpen filename => sysFileOpen dev clusters k filename
  | .fileRead buffer size => sysFileRead dev k buffer size
  | .fileClose => sysFileClose k
  | .listDir buffer maxEntries => sysListDir dev clusters k buffer maxEntries
  | .getArgs index buffer size => sysGetArgs k index buffer size

end Magnos
