import Magnos.Framework.BlockStore
import Magnos.Ide.Driver

/-!
# A drive that is driven through its ports

The master drive of a bus without a slave, as the accesses of the host see it: it is busy for a
while, which the host measures in reads of the status, asks for a block of words or has one for the
host, and ends a command early at a sector that it cannot access.
-/

namespace Magnos.Ports

open Framework

/-- The words of a sector. -/
abbrev SectorData := { words : List UInt16 // words.length = 256 }

/-- What the drive does while it is busy: load the first of `count` sectors, get ready to take it,
write it, or collect its identity. -/
inductive AtaJob where
  | load (lba count : Nat)
  | accept (lba count : Nat)
  | commit (lba count : Nat) (data : SectorData)
  | identify

/-- `dataIn` has words for the host and `dataOut` takes words from it, each for the first of
`count` sectors. -/
inductive AtaPhase where
  | idle
  | busy (left : Nat) (job : AtaJob)
  | dataIn (lba count : Nat) (rest : List UInt16)
  | dataOut (lba count : Nat) (held : List UInt16)

/-- `error` is the error bit, `periods` counts the times that the drive was busy. -/
structure AtaDrive where
  disk : Nat → SectorData
  regs : IdeRegisters
  phase : AtaPhase
  error : Bool
  periods : Nat

/-- What makes one drive differ from another: its bad sectors, among them those behind its end, its
identity, and how it is busy.  It is done while the driver waits for it, and keeps the bits that the
driver tests apart from `BSY` clear until then. -/
structure AtaUnit where
  bad : Nat → Bool
  identity : SectorData
  latency : Nat → Nat
  busyStatus : Nat → Nat → UInt8
  prompt : ∀ k, latency k < idePolls
  busy : ∀ k n, busyStatus k n &&& ideStatusBsy ≠ 0
  noDrq : ∀ k n, busyStatus k n &&& ideStatusDrq = 0
  noErr : ∀ k n, busyStatus k n &&& ideStatusErr = 0

/-- Whether the drive register selects the slave. -/
def AtaDrive.slave (d : AtaDrive) : Bool := d.regs.drive &&& 0x10 ≠ 0

def AtaDrive.isBusy (d : AtaDrive) : Bool :=
  match d.phase with
  | .busy .. => true
  | _ => false

namespace AtaUnit

variable (unit : AtaUnit)

def start (d : AtaDrive) (job : AtaJob) : AtaDrive :=
  { d with phase := .busy (unit.latency d.periods) job, periods := d.periods + 1 }

def finish (d : AtaDrive) : AtaJob → AtaDrive
  | .load lba count =>
      if unit.bad lba then { d with phase := .idle, error := true }
      else { d with phase := .dataIn lba count (d.disk lba).val }
  | .accept lba count => { d with phase := .dataOut lba count [] }
  | .commit lba count data =>
      if unit.bad lba then { d with phase := .idle, error := true }
      else
        { d with
          disk := Function.update d.disk lba data
          phase := if count ≤ 1 then .idle else .dataOut (lba + 1) (count - 1) [] }
  | .identify => { d with phase := .dataIn 0 1 unit.identity.val }

/-- What passes between two reads of the status. -/
def tick (d : AtaDrive) : AtaDrive :=
  match d.phase with
  | .busy 0 job => unit.finish d job
  | .busy (left + 1) job => { d with phase := .busy left job }
  | _ => d

def status (d : AtaDrive) : UInt8 :=
  match d.phase with
  | .idle => if d.error then ideStatusRdy ||| ideStatusErr else ideStatusRdy
  | .busy left _ => unit.busyStatus d.periods left
  | _ => ideStatusRdy ||| ideStatusDrq

/-- The driver reads the two status registers only.  The slave that is not there reads as zero. -/
def inb (port : UInt16) (d : AtaDrive) : UInt8 × AtaDrive :=
  if (port = ideStatus ∨ port = ideCtrl) ∧ d.slave = false then (unit.status (unit.tick d), unit.tick d)
  else (0, d)

/-- A sector count of zero stands for 256. -/
def command (d : AtaDrive) (value : UInt8) : AtaDrive :=
  let count := if d.regs.sectorCnt = 0 then 256 else d.regs.sectorCnt.toNat
  let d := { d with error := false }
  if value = ideCmdReadSectors then unit.start d (.load d.regs.lba count)
  else if value = ideCmdWriteSectors then unit.start d (.accept d.regs.lba count)
  else if value = ideCmdIdentify then unit.start d .identify
  else { d with phase := .idle, error := true }

/-- A busy drive takes nothing. -/
def outb (port : UInt16) (value : UInt8) (d : AtaDrive) : AtaDrive :=
  if d.isBusy then d
  else if port = ideDrive then { d with regs := { d.regs with drive := value } }
  else if port = ideSectorCnt then { d with regs := { d.regs with sectorCnt := value } }
  else if port = ideLbaLow then { d with regs := { d.regs with lbaLow := value } }
  else if port = ideLbaMid then { d with regs := { d.regs with lbaMid := value } }
  else if port = ideLbaHigh then { d with regs := { d.regs with lbaHigh := value } }
  else if port = ideStatus ∧ d.slave = false then unit.command d value
  else d

def inw (port : UInt16) (d : AtaDrive) : UInt16 × AtaDrive :=
  match d.phase with
  | .dataIn lba count (w :: rest) =>
      if port ≠ ideData then (0, d)
      else if rest ≠ [] then (w, { d with phase := .dataIn lba count rest })
      else if count ≤ 1 then (w, { d with phase := .idle })
      else (w, unit.start d (.load (lba + 1) (count - 1)))
  | _ => (0, d)

def outw (port : UInt16) (value : UInt16) (d : AtaDrive) : AtaDrive :=
  match d.phase with
  | .dataOut lba count held =>
      if port ≠ ideData then d
      else if h : (held ++ [value]).length = 256 then
        unit.start d (.commit lba count ⟨held ++ [value], h⟩)
      else { d with phase := .dataOut lba count (held ++ [value]) }
  | _ => d

def bus : PortDevice AtaDrive := ⟨unit.inb, unit.outb, unit.inw, unit.outw⟩

end AtaUnit

/-- The drive waits for a command. -/
structure AtaDrive.Idle (d : AtaDrive) : Prop where
  phase : d.phase = .idle
  master : d.slave = false

/-- The drive is in a state that lasts, or is busy and becomes so in time. -/
inductive AtaUnit.Settles (unit : AtaUnit) : AtaDrive → AtaDrive → Prop
  | rest {d : AtaDrive} : d.isBusy = false → d.slave = false → unit.Settles d d
  | wait {d e : AtaDrive} {left : Nat} {job : AtaJob} : d.phase = .busy left job → d.slave = false →
      left < idePolls → e = unit.finish d job → unit.Settles d e

section Settling

variable {unit : AtaUnit} {d e : AtaDrive}

theorem AtaUnit.finish_isBusy (unit : AtaUnit) (d : AtaDrive) (job : AtaJob) :
    (unit.finish d job).isBusy = false := by
  cases job with
  | load lba count =>
      rw [AtaUnit.finish]
      split <;> rfl
  | accept lba count => rfl
  | commit lba count data =>
      rw [AtaUnit.finish]
      split
      · rfl
      · simp only [AtaDrive.isBusy]
        split <;> simp_all
        split at * <;> simp_all
  | identify => rfl

theorem AtaUnit.finish_regs (unit : AtaUnit) (d : AtaDrive) (job : AtaJob) :
    (unit.finish d job).regs = d.regs := by
  cases job <;> simp only [AtaUnit.finish] <;> split <;> rfl

theorem AtaUnit.finish_phase (unit : AtaUnit) (d : AtaDrive) (phase : AtaPhase) (job : AtaJob) :
    unit.finish { d with phase := phase } job = unit.finish d job := by
  cases job <;> rfl

end Settling

end Magnos.Ports
