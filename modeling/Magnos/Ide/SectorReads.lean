import Magnos.Ide.Transfers

/-!
# The sector reads of the file system at the ports

`fat32.c` reads one sector at a time into its buffer.  Its model takes the drive as a function that
answers with a sector or a failure; on a drive that is driven through its ports the answers are
those of its sectors.
-/

namespace Magnos.Ports

open Framework

/-- The bytes of a buffer of words. -/
def WordBuffer.bytes (buf : WordBuffer) : Sector := fun i =>
  if i % 2 = 0 then (buf (i / 2)).toUInt8 else (buf (i / 2) >>> 8).toUInt8

/-- The drive as the file system sees it. -/
def AtaUnit.device (unit : AtaUnit) (disk : Nat → SectorData) : Magnos.Device := fun _ lba =>
  if unit.bad (lba % 2 ^ 28) then none
  else some (WordBuffer.bytes fun i => (disk (lba % 2 ^ 28)).val.getD i 0)

/-- Reads of the model, one after the other. -/
def fatReads (dev : Magnos.Device) : List Nat → Fat32 → List Bool × Fat32
  | [], s => ([], s)
  | lba :: lbas, s =>
      ((ideRead dev s lba).1 :: (fatReads dev lbas (ideRead dev s lba).2).1,
        (fatReads dev lbas (ideRead dev s lba).2).2)

/-- The same reads as calls of `ide_read_sectors`. -/
def portRequest (drive : UInt8) (lba : Nat) (buf : WordBuffer) : IdeRequest :=
  .read drive (.ofNat lba) 1 buf

def portReads {Device : Type} (bus : PortDevice Device) (drive : UInt8) :
    List Nat → WordBuffer → Device → List Int × WordBuffer × Device
  | [], buf, d => ([], buf, d)
  | lba :: lbas, buf, d =>
      let answer := (portRequest drive lba buf).serve bus d
      (answer.1.1 :: (portReads bus drive lbas answer.1.2 answer.2).1,
        (portReads bus drive lbas answer.1.2 answer.2).2)

/-- The file system's buffer and the words behind it. -/
def Buffered (s : Fat32) (buf : WordBuffer) : Prop :=
  ∀ i < sectorSize, s.sectorBuffer i = buf.bytes i

variable {unit : AtaUnit} {d : AtaDrive} {drive : UInt8} {buf : WordBuffer}
  {disk : Nat → SectorData} {s : Fat32}

theorem store_sector_bytes (data : SectorData) (buf : WordBuffer) {i : Nat} (hi : i < sectorSize) :
    (buf.store 0 data.val).bytes i = WordBuffer.bytes (fun i => data.val.getD i 0) i := by
  have hlength := data.property
  have hword : i / 2 < data.val.length := by
    rw [sectorSize] at hi
    omega
  simp [WordBuffer.bytes, WordBuffer.store, hword]

theorem onDisk_portRequest (unit : AtaUnit) (disk : Nat → SectorData) (drive : UInt8) {lba : Nat}
    (hlba : lba < 2 ^ 32) (buf : WordBuffer) :
    (portRequest drive lba buf).onDisk unit disk =
      if unit.bad (lba % 2 ^ 28) then ((-1, buf), disk)
      else ((0, buf.store 0 (disk (lba % 2 ^ 28)).val), disk) := by
  rw [portRequest, IdeRequest.onDisk, UInt32.toNat_ofNat_of_lt' hlba]
  generalize lba % 2 ^ 28 = l
  cases hbad : unit.bad l with
  | true =>
      have hnone : readBlocks disk unit.bad l 1 = [] := by rw [readBlocks, sound_bad hbad, List.map_nil]
      simp [hnone]
  | false =>
      have hsector : readBlocks disk unit.bad l 1 = [disk l] := by
        rw [readBlocks, sound_good hbad, sound_zero, List.map_singleton]
      simp [hsector]

theorem ideRead_device (unit : AtaUnit) (disk : Nat → SectorData) (s : Fat32) (lba : Nat) :
    ideRead (unit.device disk) s lba =
      if unit.bad (lba % 2 ^ 28) then (false, { s with time := s.time + 1 })
      else (true, { s with
        sectorBuffer := WordBuffer.bytes fun i => (disk (lba % 2 ^ 28)).val.getD i 0
        time := s.time + 1 }) := by
  rw [ideRead, AtaUnit.device]
  cases unit.bad (lba % 2 ^ 28) <;> rfl

/-- One read, at the ports and in the model. -/
theorem portRequest_ideRead (unit : AtaUnit) (hd : d.Holds disk) (hdrive : drive &&& 0x10 = 0)
    {lba : Nat} (hlba : lba < 2 ^ 32) (hbuf : Buffered s buf) :
    ((portRequest drive lba buf).serve unit.bus d).1.1 =
        (if (ideRead (unit.device disk) s lba).1 then 0 else -1) ∧
      Buffered (ideRead (unit.device disk) s lba).2 ((portRequest drive lba buf).serve unit.bus d).1.2 ∧
      ((portRequest drive lba buf).serve unit.bus d).2.Holds disk := by
  obtain ⟨e, hidle, hedisk, hserve⟩ := (portRequest drive lba buf).serve_onDisk unit hd.idle hdrive
  rw [hd.disk, onDisk_portRequest unit disk drive hlba] at hedisk hserve
  rw [hserve, ideRead_device]
  cases hbad : unit.bad (lba % 2 ^ 28) with
  | true =>
      rw [hbad] at hedisk
      exact ⟨rfl, hbuf, hidle, hedisk⟩
  | false =>
      rw [hbad] at hedisk
      refine ⟨rfl, ?_, hidle, hedisk⟩
      intro i hi
      exact (store_sector_bytes _ buf hi).symm

theorem portReads_holds (unit : AtaUnit) (hd : d.Holds disk) (hdrive : drive &&& 0x10 = 0)
    (hbuf : Buffered s buf) {lbas : List Nat} (hlbas : ∀ lba ∈ lbas, lba < 2 ^ 32) :
    (portReads unit.bus drive lbas buf d).1 =
        (fatReads (unit.device disk) lbas s).1.map (fun ok => if ok then 0 else -1) ∧
      Buffered (fatReads (unit.device disk) lbas s).2 (portReads unit.bus drive lbas buf d).2.1 ∧
      (portReads unit.bus drive lbas buf d).2.2.Holds disk := by
  induction lbas generalizing s buf d with
  | nil => exact ⟨rfl, hbuf, hd⟩
  | cons lba lbas ih =>
      rw [List.forall_mem_cons] at hlbas
      obtain ⟨hresult, hbuffered, hholds⟩ := portRequest_ideRead unit hd hdrive hlbas.1 hbuf
      obtain ⟨hresults, hlast⟩ := ih hholds hbuffered hlbas.2
      rw [portReads, fatReads, List.map_cons, ← hresult, ← hresults]
      exact ⟨rfl, hlast⟩

/-- Any sequence of sector reads of the file system gives the same results, sectors and failures at
the ports as in the model, where a read that fails leaves the buffer alone. -/
theorem portReads_fatReads (unit : AtaUnit) (d : AtaDrive) (hidle : d.Idle) (drive : UInt8)
    (hdrive : drive &&& 0x10 = 0) (s : Fat32) (buf : WordBuffer) (hbuf : Buffered s buf)
    (lbas : List Nat) (hlbas : ∀ lba ∈ lbas, lba < 2 ^ 32) :
    (portReads unit.bus drive lbas buf d).1 =
        (fatReads (unit.device d.disk) lbas s).1.map (fun ok => if ok then 0 else -1) ∧
      Buffered (fatReads (unit.device d.disk) lbas s).2 (portReads unit.bus drive lbas buf d).2.1 ∧
      (portReads unit.bus drive lbas buf d).2.2.Holds d.disk :=
  portReads_holds unit ⟨hidle, rfl⟩ hdrive hbuf hlbas

/-- A good sector, the bad one and the good one again, into a buffer of zeros. -/
theorem portReads_fatReads_sample :
    (portReads sampleUnit.bus 0 [6, 7, 6] (fun _ => 0) sampleDrive).1 = [0, -1, 0] := by
  have hbuf : Buffered blankFat32 fun _ => 0 := by
    intro i hi
    simp [blankFat32, WordBuffer.bytes]
  have hlbas : ∀ lba ∈ [6, 7, 6], lba < 2 ^ 32 := by decide
  rw [(portReads_fatReads sampleUnit sampleDrive sampleDrive_idle 0 (by decide) blankFat32 (fun _ => 0)
    hbuf [6, 7, 6] hlbas).1]
  rfl

end Magnos.Ports
