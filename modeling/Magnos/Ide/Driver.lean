import Magnos.Fat32.Drive
import Magnos.Fat32.DriveReady
import Magnos.Framework.Ports

/-!
# The drive at its ports

The functions of `ide.c` as the accesses to ports that they make, on an arbitrary device.  The calls
of a run are requests, served one after the other.
-/

namespace Magnos.Ports

open Framework

def ideData : UInt16 := 0x1F0

def ideSectorCnt : UInt16 := 0x1F2

def ideLbaLow : UInt16 := 0x1F3

def ideLbaMid : UInt16 := 0x1F4

def ideLbaHigh : UInt16 := 0x1F5

def ideDrive : UInt16 := 0x1F6

/-- The status register, and the command register when it is written. -/
def ideStatus : UInt16 := 0x1F7

/-- The alternate status register. -/
def ideCtrl : UInt16 := 0x3F6

def ideCmdReadSectors : UInt8 := 0x20

def ideCmdWriteSectors : UInt8 := 0x30

def ideCmdIdentify : UInt8 := 0xEC

def ideStatusErr : UInt8 := 0x01

def ideStatusDrq : UInt8 := 0x08

/-- The words of a buffer, by index. -/
abbrev WordBuffer := Nat → UInt16

def WordBuffer.store (buf : WordBuffer) (off : Nat) (words : List UInt16) : WordBuffer := fun i =>
  if off ≤ i then words.getD (i - off) (buf i) else buf i

def WordBuffer.block (buf : WordBuffer) (off : Nat) : List UInt16 :=
  (List.range 256).map fun i => buf (off + i)

/-- The test of `ide_wait_ready`. -/
def readyTest (status : UInt8) : Option Int :=
  if status &&& ideStatusBsy = 0 ∧ status &&& ideStatusRdy ≠ 0 then some 0 else none

/-- The tests of `ide_wait_drq`. -/
def drqTest (status : UInt8) : Option Int :=
  if status &&& ideStatusDrq ≠ 0 then some 0
  else if status &&& ideStatusErr ≠ 0 then some (-1)
  else none

section Functions

variable {Device : Type} (bus : PortDevice Device)

def ideWaitReady (d : Device) : Int × Device := bus.poll ideStatus readyTest idePolls d

def ideWaitDrq (d : Device) : Int × Device := bus.poll ideStatus drqTest idePolls d

def ide400nsDelay (d : Device) : Device := bus.skip ideCtrl 4 d

/-- What `ide_read_sectors` and `ide_write_sectors` write to the registers, the command last. -/
def ideCommand (r : IdeRegisters) (command : UInt8) (d : Device) : Device :=
  let d := bus.outb ideDrive r.drive d
  let d := ide400nsDelay bus d
  let d := bus.outb ideSectorCnt r.sectorCnt d
  let d := bus.outb ideLbaLow r.lbaLow d
  let d := bus.outb ideLbaMid r.lbaMid d
  let d := bus.outb ideLbaHigh r.lbaHigh d
  bus.outb ideStatus command d

/-- The loop of `ide_read_sectors`, with the sectors that are left and the place in the buffer. -/
def ideReadLoop : Nat → Nat → WordBuffer → Device → Int × WordBuffer × Device
  | 0, _, buf, d => (0, buf, d)
  | n + 1, off, buf, d =>
      let (r, d) := ideWaitDrq bus d
      if r ≠ 0 then (-1, buf, d)
      else
        let (words, d) := bus.insw ideData 256 d
        ideReadLoop n (off + 256) (buf.store off words) d

def ideReadSectors (drive : UInt8) (lba : UInt32) (sectorCount : UInt8) (buf : WordBuffer)
    (d : Device) : Int × WordBuffer × Device :=
  if sectorCount = 0 then (-1, buf, d)
  else
    let (r, d) := ideWaitReady bus d
    if r ≠ 0 then (-1, buf, d)
    else
      let d := ideCommand bus (ideProgram drive lba sectorCount) ideCmdReadSectors d
      ideReadLoop bus sectorCount.toNat 0 buf d

/-- The loop of `ide_write_sectors`. -/
def ideWriteLoop (buf : WordBuffer) : Nat → Nat → Device → Int × Device
  | 0, _, d => (0, d)
  | n + 1, off, d =>
      let (r, d) := ideWaitDrq bus d
      if r ≠ 0 then (-1, d)
      else
        let d := bus.outsw ideData (buf.block off) d
        ideWriteLoop buf n (off + 256) (ide400nsDelay bus d)

/-- A step that fails makes the function return. -/
def orFail {Result : Type} (p : Int × Device) (failed next : Device → Result) : Result :=
  if p.1 ≠ 0 then failed p.2 else next p.2

def ideWriteSectors (drive : UInt8) (lba : UInt32) (sectorCount : UInt8) (buf : WordBuffer)
    (d : Device) : Int × Device :=
  if sectorCount = 0 then (-1, d)
  else
    orFail (ideWaitReady bus d) (fun d => (-1, d)) fun d =>
      orFail (ideWriteLoop bus buf sectorCount.toNat 0
          (ideCommand bus (ideProgram drive lba sectorCount) ideCmdWriteSectors d))
        (fun d => (-1, d)) fun d =>
        orFail (ideWaitReady bus d) (fun d => (-1, d)) fun d => (0, d)

/-- `ide_identify` behind the status that follows its command. -/
def ideIdentifyData (buf : WordBuffer) (status : UInt8) (d : Device) : Int × WordBuffer × Device :=
  if status = 0 then (-1, buf, d)
  else
    orFail (ideWaitDrq bus d) (fun d => (-1, buf, d)) fun d =>
      (0, buf.store 0 (bus.insw ideData 256 d).1, (bus.insw ideData 256 d).2)

/-- `ide_identify` up to its command. -/
def ideIdentifyCommand (drive : UInt8) (d : Device) : Device :=
  bus.outb ideStatus ideCmdIdentify (ide400nsDelay bus (bus.outb ideDrive (drive &&& 0x10) d))

def ideIdentify (drive : UInt8) (buf : WordBuffer) (d : Device) : Int × WordBuffer × Device :=
  orFail (ideWaitReady bus d) (fun d => (-1, buf, d)) fun d =>
    ideIdentifyData bus buf (bus.inb ideStatus (ideIdentifyCommand bus drive d)).1
      (bus.inb ideStatus (ideIdentifyCommand bus drive d)).2

theorem orFail_ok {Result : Type} {p : Int × Device} {d : Device} (hp : p = (0, d))
    (failed next : Device → Result) : orFail p failed next = next d := by
  rw [hp]
  rfl

theorem orFail_failed {Result : Type} {p : Int × Device} {d : Device} (hp : p = (-1, d))
    (failed next : Device → Result) : orFail p failed next = failed d := by
  rw [hp]
  rfl

end Functions

/-- A call of one of the functions. -/
inductive IdeRequest where
  | read (drive : UInt8) (lba : UInt32) (sectorCount : UInt8) (buf : WordBuffer)
  | write (drive : UInt8) (lba : UInt32) (sectorCount : UInt8) (buf : WordBuffer)
  | identify (drive : UInt8) (buf : WordBuffer)

/-- What the function returns and what it leaves in the buffer. -/
def IdeRequest.serve {Device : Type} (bus : PortDevice Device) (d : Device) :
    IdeRequest → (Int × WordBuffer) × Device
  | .read drive lba count buf =>
      (((ideReadSectors bus drive lba count buf d).1, (ideReadSectors bus drive lba count buf d).2.1),
        (ideReadSectors bus drive lba count buf d).2.2)
  | .write drive lba count buf =>
      (((ideWriteSectors bus drive lba count buf d).1, buf),
        (ideWriteSectors bus drive lba count buf d).2)
  | .identify drive buf =>
      (((ideIdentify bus drive buf d).1, (ideIdentify bus drive buf d).2.1),
        (ideIdentify bus drive buf d).2.2)

/-- Requests one after the other. -/
def serveAll {Device : Type} (bus : PortDevice Device) :
    List IdeRequest → Device → List (Int × WordBuffer) × Device
  | [], d => ([], d)
  | q :: qs, d =>
      ((q.serve bus d).1 :: (serveAll bus qs (q.serve bus d).2).1, (serveAll bus qs (q.serve bus d).2).2)

end Magnos.Ports
