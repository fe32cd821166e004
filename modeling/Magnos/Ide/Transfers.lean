import Magnos.Ide.AtaDrive

/-!
# Transfers refine a block store

On a drive that is ready in time the functions of `ide.c` amount to transfers of whole sectors, in
any sequence.  A sector that cannot be read ends `ide_read_sectors` with an error.  A sector that
cannot be written is noticed when the next one is due, so that for the last one it is not.
-/

namespace Magnos.Ports

open Framework

variable {unit : AtaUnit} {d e : AtaDrive}

theorem AtaDrive.slave_congr {d e : AtaDrive} (hregs : e.regs = d.regs) : e.slave = d.slave := by
  rw [AtaDrive.slave, AtaDrive.slave, hregs]

theorem AtaDrive.Idle.isBusy (hidle : d.Idle) : d.isBusy = false := by
  rw [AtaDrive.isBusy, hidle.phase]

theorem AtaUnit.tick_rest (unit : AtaUnit) (hrest : d.isBusy = false) : unit.tick d = d := by
  unfold AtaUnit.tick
  unfold AtaDrive.isBusy at hrest
  split <;> simp_all

theorem AtaUnit.inb_status (unit : AtaUnit) {port : UInt16} (hport : port = ideStatus ∨ port = ideCtrl)
    (hmaster : d.slave = false) :
    unit.bus.inb port d = (unit.status (unit.tick d), unit.tick d) :=
  if_pos ⟨hport, hmaster⟩

namespace AtaUnit.Settles

theorem settled (hsettles : unit.Settles d e) : e.isBusy = false ∧ e.slave = false := by
  cases hsettles with
  | rest hrest hmaster => exact ⟨hrest, hmaster⟩
  | wait hphase hmaster hleft he =>
      rw [he]
      exact ⟨unit.finish_isBusy .., (AtaDrive.slave_congr (unit.finish_regs ..)).trans hmaster⟩

theorem master (hsettles : unit.Settles d e) : d.slave = false := by
  cases hsettles with
  | rest hrest hmaster => exact hmaster
  | wait hphase hmaster hleft he => exact hmaster

theorem start (unit : AtaUnit) (hmaster : d.slave = false) (job : AtaJob) :
    unit.Settles (unit.start d job) (unit.finish (unit.start d job) job) :=
  .wait rfl hmaster (unit.prompt _) rfl

theorem tick (hsettles : unit.Settles d e) : unit.Settles (unit.tick d) e := by
  cases hsettles with
  | rest hrest hmaster =>
      rw [unit.tick_rest hrest]
      exact .rest hrest hmaster
  | @wait _ left job hphase hmaster hleft he =>
      have hdone : (unit.finish d job).slave = false :=
        (AtaDrive.slave_congr (unit.finish_regs ..)).trans hmaster
      cases left with
      | zero =>
          rw [AtaUnit.tick, hphase, he]
          exact .rest (unit.finish_isBusy ..) hdone
      | succ left =>
          rw [AtaUnit.tick, hphase, he]
          exact .wait rfl hmaster (Nat.lt_of_succ_lt hleft) (unit.finish_phase ..).symm

theorem skip (hsettles : unit.Settles d e) : unit.Settles (ide400nsDelay unit.bus d) e := by
  apply PortDevice.skip_rule (fun d => unit.Settles d e) _ 4 hsettles
  intro d hd
  rw [unit.inb_status (.inr rfl) hd.master]
  exact hd.tick

theorem poll_wait {test : UInt8 → Option Int} {r : Int} {left n : Nat} {job : AtaJob}
    (hphase : d.phase = .busy left job) (hmaster : d.slave = false) (hleft : left < n)
    (hbusy : ∀ k n, test (unit.busyStatus k n) = none)
    (htest : test (unit.status (unit.finish d job)) = some r) :
    unit.bus.poll ideStatus test n d = (r, unit.finish d job) := by
  obtain ⟨n, rfl⟩ : ∃ m, n = m + 1 := ⟨n - 1, by omega⟩
  induction left generalizing d n with
  | zero =>
      have htick : unit.tick d = unit.finish d job := by rw [AtaUnit.tick, hphase]
      have hinb := unit.inb_status (.inl rfl) hmaster
      rw [htick] at hinb
      rw [PortDevice.poll_some (r := r) (by rw [hinb]; exact htest), hinb]
  | succ left ih =>
      have htick : unit.tick d = { d with phase := .busy left job } := by rw [AtaUnit.tick, hphase]
      have hinb := unit.inb_status (.inl rfl) hmaster
      rw [htick] at hinb
      rw [PortDevice.poll_none (by rw [hinb]; exact hbusy ..), hinb]
      obtain ⟨n, rfl⟩ : ∃ m, n = m + 1 := ⟨n - 1, by omega⟩
      rw [← unit.finish_phase d (.busy left job)] at htest ⊢
      exact ih (d := { d with phase := .busy left job }) rfl hmaster htest n (by omega)

theorem poll (hsettles : unit.Settles d e) {test : UInt8 → Option Int} {r : Int}
    (hbusy : ∀ k n, test (unit.busyStatus k n) = none) (htest : test (unit.status e) = some r) :
    unit.bus.poll ideStatus test idePolls d = (r, e) := by
  cases hsettles with
  | rest hrest hmaster =>
      have hpolls : idePolls = 99999 + 1 := rfl
      have hinb := unit.inb_status (.inl rfl) hmaster
      rw [unit.tick_rest hrest] at hinb
      rw [hpolls, PortDevice.poll_some (r := r) (by rw [hinb]; exact htest), hinb]
  | wait hphase hmaster hleft he =>
      rw [he] at htest ⊢
      exact poll_wait hphase hmaster hleft hbusy htest

end AtaUnit.Settles

theorem readyTest_busy (unit : AtaUnit) (k n : Nat) : readyTest (unit.busyStatus k n) = none :=
  if_neg fun h => unit.busy k n h.1

theorem drqTest_busy (unit : AtaUnit) (k n : Nat) : drqTest (unit.busyStatus k n) = none := by
  rw [drqTest, if_neg (not_not_intro (unit.noDrq k n)), if_neg (not_not_intro (unit.noErr k n))]

theorem drqTest_data : drqTest (ideStatusRdy ||| ideStatusDrq) = some 0 := by decide

theorem drqTest_error : drqTest (ideStatusRdy ||| ideStatusErr) = some (-1) := by decide

theorem readyTest_idle (unit : AtaUnit) (hphase : e.phase = .idle) :
    readyTest (unit.status e) = some 0 := by
  rw [AtaUnit.status, hphase]
  dsimp only
  split <;> decide

theorem waitReady_idle (hsettles : unit.Settles d e) (hphase : e.phase = .idle) :
    ideWaitReady unit.bus d = (0, e) :=
  hsettles.poll (readyTest_busy unit) (readyTest_idle unit hphase)

theorem waitDrq_in (hsettles : unit.Settles d e) {lba count : Nat} {rest : List UInt16}
    (hphase : e.phase = .dataIn lba count rest) : ideWaitDrq unit.bus d = (0, e) := by
  apply hsettles.poll (drqTest_busy unit)
  rw [AtaUnit.status, hphase]
  exact drqTest_data

theorem waitDrq_out (hsettles : unit.Settles d e) {lba count : Nat} {held : List UInt16}
    (hphase : e.phase = .dataOut lba count held) : ideWaitDrq unit.bus d = (0, e) := by
  apply hsettles.poll (drqTest_busy unit)
  rw [AtaUnit.status, hphase]
  exact drqTest_data

theorem waitDrq_error (hsettles : unit.Settles d e) (hphase : e.phase = .idle)
    (herror : e.error = true) : ideWaitDrq unit.bus d = (-1, e) := by
  apply hsettles.poll (drqTest_busy unit)
  rw [AtaUnit.status, hphase, herror]
  exact drqTest_error

theorem AtaUnit.delay_rest (unit : AtaUnit) (hrest : d.isBusy = false) (hmaster : d.slave = false) :
    ide400nsDelay unit.bus d = d := by
  apply PortDevice.skip_rule (fun e => e = d) _ 4 rfl
  rintro e rfl
  rw [unit.inb_status (.inr rfl) hmaster, unit.tick_rest hrest]

@[simp] theorem AtaDrive.isBusy_regs (d : AtaDrive) (r : IdeRegisters) :
    AtaDrive.isBusy { d with regs := r } = d.isBusy := rfl

theorem AtaUnit.outb_drive (unit : AtaUnit) (hrest : d.isBusy = false) (value : UInt8) :
    unit.bus.outb ideDrive value d = { d with regs := { d.regs with drive := value } } := by
  simp [AtaUnit.bus, AtaUnit.outb, hrest]

theorem ideCommand_idle (hidle : d.Idle) {r : IdeRegisters} (hdrive : r.drive &&& 0x10 = 0)
    (value : UInt8) :
    ideCommand unit.bus r value d = unit.command { d with regs := r } value := by
  have hrest := hidle.isBusy
  have hmaster : AtaDrive.slave { d with regs := { d.regs with drive := r.drive } } = false := by
    simp [AtaDrive.slave, hdrive]
  have hdelay := unit.delay_rest
    (d := { d with regs := { d.regs with drive := r.drive } }) hrest hmaster
  rw [ideCommand, unit.outb_drive hrest, hdelay]
  have hselect : ∀ regs : IdeRegisters, regs.drive = r.drive →
      AtaDrive.slave { d with regs := regs } = false := by
    intro regs hregs
    simp [AtaDrive.slave, hregs, hdrive]
  simp +decide [AtaUnit.bus, AtaUnit.outb, hrest, hselect]

@[simp] theorem WordBuffer.store_nil (buf : WordBuffer) (off : Nat) : buf.store off [] = buf := by
  funext i
  simp [WordBuffer.store]

theorem WordBuffer.store_append (buf : WordBuffer) (off : Nat) (ws ws' : List UInt16) :
    buf.store off (ws ++ ws') = (buf.store off ws).store (off + ws.length) ws' := by
  funext i
  simp only [WordBuffer.store, List.getD_eq_getElem?_getD, List.getElem?_append]
  by_cases hoff : off ≤ i
  · by_cases hlast : off + ws.length ≤ i
    · simp [hoff, hlast, show ¬ i - off < ws.length by omega,
        show i - off - ws.length = i - (off + ws.length) by omega]
    · simp [hoff, hlast, show i - off < ws.length by omega]
  · simp [hoff, show ¬ off + ws.length ≤ i by omega]

@[simp] theorem AtaUnit.start_phase (unit : AtaUnit) (d : AtaDrive) (phase : AtaPhase) (job : AtaJob) :
    unit.start { d with phase := phase } job = unit.start d job := rfl

theorem AtaUnit.insw_dataIn (unit : AtaUnit) {lba count : Nat} (ws : List UInt16) (hne : ws ≠ [])
    (hphase : d.phase = .dataIn lba count ws) :
    unit.bus.insw ideData ws.length d =
      (ws, if count ≤ 1 then { d with phase := .idle }
        else unit.start d (.load (lba + 1) (count - 1))) := by
  induction ws generalizing d with
  | nil => exact absurd rfl hne
  | cons w ws ih =>
      cases ws with
      | nil =>
          by_cases hlast : count ≤ 1 <;>
            simp [PortDevice.insw, AtaUnit.bus, AtaUnit.inw, hphase, hlast]
      | cons w' ws =>
          have hinw : unit.bus.inw ideData d =
              (w, { d with phase := .dataIn lba count (w' :: ws) }) := by
            simp [AtaUnit.bus, AtaUnit.inw, hphase]
          have hrest := ih (d := { d with phase := .dataIn lba count (w' :: ws) }) (by simp) rfl
          rw [List.length_cons, PortDevice.insw, hinw, hrest]
          rfl

/-- The drive is about to have the first of `n` sectors for the host, or done. -/
def AtaUnit.Loading (unit : AtaUnit) (disk : Nat → SectorData) (lba : Nat) (d : AtaDrive) :
    Nat → Prop
  | 0 => d.Idle ∧ d.disk = disk
  | n + 1 => ∃ d₀, d₀.disk = disk ∧ unit.Settles d (unit.finish d₀ (.load lba (n + 1)))

theorem AtaUnit.loading_start (unit : AtaUnit) (hmaster : d.slave = false) (lba : Nat) {n : Nat}
    (hn : n ≠ 0) : unit.Loading d.disk lba (unit.start d (.load lba n)) n := by
  cases n with
  | zero => exact absurd rfl hn
  | succ n => exact ⟨unit.start d (.load lba (n + 1)), rfl, .start unit hmaster _⟩

theorem ideReadLoop_loading {disk : Nat → SectorData} {n lba : Nat} (off : Nat) (buf : WordBuffer)
    (hload : unit.Loading disk lba d n) :
    ∃ e, e.Idle ∧ e.disk = disk ∧
      ideReadLoop unit.bus n off buf d =
        (if (readBlocks disk unit.bad lba n).length = n then 0 else -1,
          buf.store off ((readBlocks disk unit.bad lba n).flatMap Subtype.val), e) := by
  induction n generalizing d lba off buf with
  | zero => exact ⟨d, hload.1, hload.2, by simp [ideReadLoop, readBlocks]⟩
  | succ n ih =>
      obtain ⟨d₀, hdisk, hsettles⟩ := hload
      have hmaster := hsettles.settled.2
      cases hbad : unit.bad lba with
      | true =>
          have hfinish : unit.finish d₀ (.load lba (n + 1)) =
              { d₀ with phase := .idle, error := true } := by
            rw [AtaUnit.finish, if_pos hbad]
          rw [hfinish] at hsettles hmaster
          refine ⟨{ d₀ with phase := .idle, error := true }, ⟨rfl, hmaster⟩, hdisk, ?_⟩
          rw [ideReadLoop, waitDrq_error hsettles rfl rfl, readBlocks, sound_bad hbad]
          simp
      | false =>
          have hfinish : unit.finish d₀ (.load lba (n + 1)) =
              { d₀ with phase := .dataIn lba (n + 1) (disk lba).val } := by
            rw [AtaUnit.finish, if_neg (by simp [hbad]), hdisk]
          rw [hfinish] at hsettles hmaster
          have hlength := (disk lba).property
          have hinsw := unit.insw_dataIn (d := { d₀ with phase := .dataIn lba (n + 1) (disk lba).val })
            (disk lba).val (fun h => by simp [h] at hlength) rfl
          rw [hlength] at hinsw
          have hnext : unit.Loading disk (lba + 1) (if n + 1 ≤ 1 then
              { d₀ with phase := .idle } else unit.start d₀ (.load (lba + 1) (n + 1 - 1))) n := by
            cases n with
            | zero => exact ⟨⟨rfl, hmaster⟩, hdisk⟩
            | succ n =>
                rw [← hdisk]
                exact unit.loading_start hmaster _ n.succ_ne_zero
          obtain ⟨e, hidle, hedisk, hloop⟩ := ih (off + 256)
            (buf.store off (disk lba).val) hnext
          refine ⟨e, hidle, hedisk, ?_⟩
          rw [ideReadLoop, waitDrq_in hsettles rfl]
          simp only [ne_eq, not_true_eq_false, if_false, hinsw]
          rw [readBlocks, sound_good hbad, List.map_cons, List.flatMap_cons, WordBuffer.store_append,
            hlength]
          simpa [readBlocks] using hloop

theorem AtaUnit.outsw_dataOut (unit : AtaUnit) {lba count : Nat} (held ws : List UInt16) (hne : ws ≠ [])
    (hphase : d.phase = .dataOut lba count held) (hlength : (held ++ ws).length = 256) :
    unit.bus.outsw ideData ws d = unit.start d (.commit lba count ⟨held ++ ws, hlength⟩) := by
  induction ws generalizing d held with
  | nil => exact absurd rfl hne
  | cons w ws ih =>
      have happend : held ++ w :: ws = held ++ [w] ++ ws := by simp
      rw [PortDevice.outsw, List.foldl_cons]
      cases ws with
      | nil =>
          have hfull : (held ++ [w]).length = 256 := hlength
          simp only [List.foldl_nil, AtaUnit.bus, AtaUnit.outw, hphase]
          rw [if_neg (by decide), dif_pos hfull]
      | cons w' ws =>
          have hpart : ¬ (held ++ [w]).length = 256 := by
            simp at hlength ⊢
            omega
          have houtw : unit.bus.outw ideData w d =
              { d with phase := .dataOut lba count (held ++ [w]) } := by
            simp only [AtaUnit.bus, AtaUnit.outw, hphase]
            rw [if_neg (by decide), dif_neg hpart]
          rw [houtw]
          have hrest := ih (d := { d with phase := .dataOut lba count (held ++ [w]) }) (held ++ [w])
            (by simp) rfl
            (by rw [← happend]; exact hlength)
          rw [PortDevice.outsw] at hrest
          simp only [hrest, happend, AtaUnit.start_phase]

theorem WordBuffer.block_length (buf : WordBuffer) (off : Nat) : (buf.block off).length = 256 := by
  simp [WordBuffer.block]

/-- The sectors that a write takes from the buffer. -/
def WordBuffer.sectors (buf : WordBuffer) : Nat → Nat → List SectorData
  | _, 0 => []
  | off, n + 1 => ⟨buf.block off, buf.block_length off⟩ :: buf.sectors (off + 256) n

theorem WordBuffer.sectors_length (buf : WordBuffer) (off n : Nat) : (buf.sectors off n).length = n := by
  induction n generalizing off with
  | zero => rfl
  | succ n ih => simp [WordBuffer.sectors, ih]

/-- The drive is about to ask for the first of `n` sectors, or done. -/
def AtaUnit.Accepting (unit : AtaUnit) (disk : Nat → SectorData) (lba n : Nat) (d : AtaDrive) : Prop :=
  ∃ e, unit.Settles d e ∧ e.disk = disk ∧ e.phase = if n = 0 then .idle else .dataOut lba n []

theorem AtaUnit.accepting_start (unit : AtaUnit) (hmaster : d.slave = false) (lba : Nat) {n : Nat}
    (hn : n ≠ 0) : unit.Accepting d.disk lba n (unit.start d (.accept lba n)) := by
  refine ⟨_, .start unit hmaster _, rfl, ?_⟩
  rw [if_neg hn]
  rfl

theorem ideWriteLoop_accepting {disk : Nat → SectorData} {n lba : Nat} (off : Nat) (buf : WordBuffer)
    (haccept : unit.Accepting disk lba n d) :
    ∃ e, e.phase = .idle ∧ e.disk = writeBlocks unit.bad disk lba (buf.sectors off n) ∧
      ∃ d', unit.Settles d' e ∧
        ((n ≤ (sound unit.bad lba n).length + 1 ∧ ideWriteLoop unit.bus buf n off d = (0, d')) ∨
          ((sound unit.bad lba n).length + 1 < n ∧ d' = e ∧
            ideWriteLoop unit.bus buf n off d = (-1, d'))) := by
  induction n generalizing d disk lba off with
  | zero =>
      obtain ⟨e, hsettles, hdisk, hphase⟩ := haccept
      exact ⟨e, hphase, hdisk, d, hsettles, .inl ⟨by omega, rfl⟩⟩
  | succ n ih =>
      obtain ⟨e, hsettles, hdisk, hphase⟩ := haccept
      rw [if_neg n.succ_ne_zero] at hphase
      have hmaster := hsettles.settled.2
      have houtsw := unit.outsw_dataOut [] (buf.block off)
        (fun h => by simpa [h] using buf.block_length off) hphase (buf.block_length off)
      have hnext := (AtaUnit.Settles.start unit hmaster
        (.commit lba (n + 1) ⟨buf.block off, buf.block_length off⟩)).skip
      have hloop : ideWriteLoop unit.bus buf (n + 1) off d = ideWriteLoop unit.bus buf n (off + 256)
          (ide400nsDelay unit.bus (unit.start e
            (.commit lba (n + 1) ⟨buf.block off, buf.block_length off⟩))) := by
        rw [ideWriteLoop, waitDrq_out hsettles hphase]
        simp only [ne_eq, not_true_eq_false, if_false, houtsw, List.nil_append]
      rw [hloop]
      generalize ide400nsDelay unit.bus (unit.start e
        (.commit lba (n + 1) ⟨buf.block off, buf.block_length off⟩)) = d₁ at hnext
      generalize hstart : unit.start e (.commit lba (n + 1) ⟨buf.block off, buf.block_length off⟩) = e₁
        at hnext
      replace hdisk : e₁.disk = disk := by
        rw [← hstart]
        exact hdisk
      cases hbad : unit.bad lba with
      | true =>
          rw [AtaUnit.finish, if_pos hbad] at hnext
          rw [WordBuffer.sectors, writeBlocks, if_pos hbad, sound_bad hbad]
          refine ⟨{ e₁ with phase := .idle, error := true }, rfl, hdisk, ?_⟩
          cases n with
          | zero => exact ⟨d₁, hnext, .inl ⟨by simp, rfl⟩⟩
          | succ n =>
              refine ⟨_, .rest rfl hnext.settled.2, .inr ⟨by simp, rfl, ?_⟩⟩
              rw [ideWriteLoop, waitDrq_error hnext rfl rfl]
              rfl
      | false =>
          rw [AtaUnit.finish, if_neg (by simp [hbad]), hdisk] at hnext
          have haccept : unit.Accepting (Function.update disk lba ⟨buf.block off, buf.block_length off⟩)
              (lba + 1) n d₁ := by
            refine ⟨_, hnext, rfl, ?_⟩
            simp
          obtain ⟨e', hidle, hwritten, d', hsettled, hresult⟩ := ih (off + 256) haccept
          rw [WordBuffer.sectors, writeBlocks, if_neg (by simp [hbad]), sound_good hbad,
            List.length_cons, Nat.add_le_add_iff_right, Nat.add_lt_add_iff_right]
          exact ⟨e', hidle, hwritten, d', hsettled, hresult⟩

/-- What a request amounts to on the disk. -/
def IdeRequest.onDisk (unit : AtaUnit) (disk : Nat → SectorData) :
    IdeRequest → (Int × WordBuffer) × (Nat → SectorData)
  | .read _ lba count buf =>
      let blocks := readBlocks disk unit.bad (lba.toNat % 2 ^ 28) count.toNat
      ((if count ≠ 0 ∧ blocks.length = count.toNat then 0 else -1,
        buf.store 0 (blocks.flatMap Subtype.val)), disk)
  | .write _ lba count buf =>
      let good := (sound unit.bad (lba.toNat % 2 ^ 28) count.toNat).length
      ((if count ≠ 0 ∧ count.toNat ≤ good + 1 then 0 else -1, buf),
        writeBlocks unit.bad disk (lba.toNat % 2 ^ 28) (buf.sectors 0 count.toNat))
  | .identify _ buf => ((0, buf.store 0 unit.identity.val), disk)

/-- Requests on the disk, one after the other. -/
def allOnDisk (unit : AtaUnit) :
    List IdeRequest → (Nat → SectorData) → List (Int × WordBuffer) × (Nat → SectorData)
  | [], disk => ([], disk)
  | q :: qs, disk =>
      ((q.onDisk unit disk).1 :: (allOnDisk unit qs (q.onDisk unit disk).2).1,
        (allOnDisk unit qs (q.onDisk unit disk).2).2)

/-- The `drive` argument of a request. -/
def IdeRequest.drive : IdeRequest → UInt8
  | .read drive .. => drive
  | .write drive .. => drive
  | .identify drive _ => drive

theorem ideProgram_master {drive : UInt8} (hdrive : drive &&& 0x10 = 0) (lba : UInt32) (count : UInt8) :
    (ideProgram drive lba count).drive &&& 0x10 = 0 := by
  have hall : ∀ n < 16, ((0 : UInt8) ||| (0xE0 : UInt8) ||| .ofNat n) &&& 0x10 = 0 := by decide
  have hlow : ((lba >>> 24) &&& 0x0F).toUInt8 = .ofNat ((lba >>> 24) &&& 0x0F).toNat := by
    simp [UInt32.toUInt8]
  have hlt : ((lba >>> 24) &&& 0x0F).toNat < 16 := by
    rw [UInt32.toNat_and]
    exact lt_of_le_of_lt Nat.and_le_right (by decide)
  simp only [ideProgram]
  rw [hdrive, hlow]
  exact hall _ hlt

variable {drive count : UInt8} {lba : UInt32} {buf : WordBuffer}

theorem ideCommand_program (unit : AtaUnit) (lba : UInt32) (hidle : d.Idle)
    (hdrive : drive &&& 0x10 = 0) (hcount : count ≠ 0) (job : Nat → Nat → AtaJob) (value : UInt8)
    (hvalue : ∀ d : AtaDrive, d.regs.sectorCnt ≠ 0 → unit.command d value =
      unit.start { d with error := false } (job d.regs.lba d.regs.sectorCnt.toNat)) :
    ∃ e, e.disk = d.disk ∧ e.slave = false ∧
      ideCommand unit.bus (ideProgram drive lba count) value d =
        unit.start e (job (lba.toNat % 2 ^ 28) count.toNat) := by
  refine ⟨{ d with regs := ideProgram drive lba count, error := false }, rfl, ?_, ?_⟩
  · simp [AtaDrive.slave, ideProgram_master hdrive]
  · rw [ideCommand_idle hidle (ideProgram_master hdrive lba count), hvalue _ hcount, ideProgram_lba]
    rfl

theorem count_pos (hcount : count ≠ 0) : count.toNat ≠ 0 :=
  fun h => hcount (UInt8.toNat_inj.mp h)

theorem ideWaitReady_idle (unit : AtaUnit) (hidle : d.Idle) : ideWaitReady unit.bus d = (0, d) :=
  waitReady_idle (.rest hidle.isBusy hidle.master) hidle.phase

theorem serve_read (hidle : d.Idle) (hdrive : drive &&& 0x10 = 0) :
    ∃ e, e.Idle ∧ e.disk = d.disk ∧ (IdeRequest.read drive lba count buf).serve unit.bus d =
      (((IdeRequest.read drive lba count buf).onDisk unit d.disk).1, e) := by
  by_cases hcount : count = 0
  · refine ⟨d, hidle, rfl, ?_⟩
    simp [IdeRequest.serve, IdeRequest.onDisk, ideReadSectors, hcount, readBlocks]
  · obtain ⟨s, hdisk, hmaster, hcommand⟩ := ideCommand_program unit lba hidle hdrive
      hcount .load ideCmdReadSectors (by simp +contextual [AtaUnit.command])
    have hload := unit.loading_start hmaster (lba.toNat % 2 ^ 28) (count_pos hcount)
    obtain ⟨e, he, hedisk, hloop⟩ := ideReadLoop_loading 0 buf hload
    refine ⟨e, he, hedisk.trans hdisk, ?_⟩
    rw [hdisk] at hloop
    simp only [IdeRequest.serve, ideReadSectors, hcount, if_false, ideWaitReady_idle unit hidle, ne_eq,
      not_true_eq_false, hcommand, hloop, IdeRequest.onDisk, not_false_eq_true, true_and]

theorem ideWriteSectors_of_ready (drive : UInt8) (lba : UInt32) (buf : WordBuffer) {Device : Type}
    {bus : PortDevice Device} {d d₁ : Device} (hcount : count ≠ 0)
    (hready : ideWaitReady bus d = (0, d₁)) :
    ideWriteSectors bus drive lba count buf d =
      orFail (ideWriteLoop bus buf count.toNat 0
        (ideCommand bus (ideProgram drive lba count) ideCmdWriteSectors d₁)) (fun d => (-1, d)) fun d =>
        orFail (ideWaitReady bus d) (fun d => (-1, d)) fun d => (0, d) := by
  rw [ideWriteSectors, if_neg hcount, orFail_ok hready]

theorem serve_write (hidle : d.Idle) (hdrive : drive &&& 0x10 = 0) :
    ∃ e, e.Idle ∧ e.disk = ((IdeRequest.write drive lba count buf).onDisk unit d.disk).2 ∧
      (IdeRequest.write drive lba count buf).serve unit.bus d =
        (((IdeRequest.write drive lba count buf).onDisk unit d.disk).1, e) := by
  by_cases hcount : count = 0
  · refine ⟨d, hidle, ?_, ?_⟩ <;>
      simp [IdeRequest.serve, IdeRequest.onDisk, ideWriteSectors, hcount, WordBuffer.sectors,
        writeBlocks]
  · obtain ⟨s, hdisk, hmaster, hcommand⟩ := ideCommand_program unit lba hidle hdrive
      hcount .accept ideCmdWriteSectors (by simp +contextual +decide [AtaUnit.command])
    have haccept := unit.accepting_start hmaster (lba.toNat % 2 ^ 28) (count_pos hcount)
    rw [← hcommand] at haccept
    obtain ⟨e, hphase, hedisk, d', hsettles, hloop⟩ :=
      ideWriteLoop_accepting 0 buf haccept
    rw [hdisk] at hedisk
    refine ⟨e, ⟨hphase, hsettles.settled.2⟩, hedisk, ?_⟩
    have hwrite := ideWriteSectors_of_ready drive lba buf hcount
      (ideWaitReady_idle unit hidle)
    rcases hloop with ⟨hgood, hloop⟩ | ⟨hfew, rfl, hloop⟩
    · rw [orFail_ok hloop, orFail_ok (waitReady_idle hsettles hphase)] at hwrite
      rw [IdeRequest.serve, hwrite, IdeRequest.onDisk, if_pos ⟨hcount, hgood⟩]
    · rw [orFail_failed hloop] at hwrite
      rw [IdeRequest.serve, hwrite, IdeRequest.onDisk, if_neg fun h => Nat.not_le.mpr hfew h.2]

theorem AtaUnit.status_ne_zero (unit : AtaUnit) (d : AtaDrive) : unit.status d ≠ 0 := by
  unfold AtaUnit.status
  split
  · split <;> decide
  · intro hzero
    apply unit.busy d.periods
    rw [hzero]
    rfl
  · decide

theorem AtaUnit.outb_identify (unit : AtaUnit) (hrest : d.isBusy = false) (hmaster : d.slave = false) :
    unit.bus.outb ideStatus ideCmdIdentify d = unit.start { d with error := false } .identify := by
  simp +decide [AtaUnit.bus, AtaUnit.outb, AtaUnit.command, hrest, hmaster]

theorem identifyCommand_settles (unit : AtaUnit) (hidle : d.Idle) (hdrive : drive &&& 0x10 = 0) :
    ∃ t, t.disk = d.disk ∧
      unit.Settles (ideIdentifyCommand unit.bus drive d) (unit.finish t .identify) := by
  have hrest : AtaDrive.isBusy { d with regs := { d.regs with drive := 0 } } = false := hidle.isBusy
  have hmaster : AtaDrive.slave { d with regs := { d.regs with drive := 0 } } = false := by
    simp [AtaDrive.slave]
  rw [ideIdentifyCommand, hdrive, unit.outb_drive hidle.isBusy, unit.delay_rest hrest hmaster,
    unit.outb_identify hrest hmaster]
  exact ⟨unit.start { d with regs := { d.regs with drive := 0 }, error := false } .identify, rfl,
    .start unit (d := { d with regs := { d.regs with drive := 0 }, error := false }) hmaster .identify⟩

theorem ideIdentifyData_settles {t : AtaDrive} {status : UInt8} (hstatus : status ≠ 0)
    (hsettles : unit.Settles d (unit.finish t .identify)) :
    ideIdentifyData unit.bus buf status d = (0, buf.store 0 unit.identity.val,
      { t with phase := .idle }) := by
  have hlength := unit.identity.property
  have hinsw := unit.insw_dataIn (d := unit.finish t .identify) unit.identity.val
    (fun h => by simp [h] at hlength) rfl
  rw [hlength, if_pos le_rfl] at hinsw
  rw [ideIdentifyData, if_neg hstatus, orFail_ok (waitDrq_in hsettles rfl), hinsw]
  rfl

theorem serve_identify (hidle : d.Idle) (hdrive : drive &&& 0x10 = 0) :
    ∃ e, e.Idle ∧ e.disk = d.disk ∧ (IdeRequest.identify drive buf).serve unit.bus d =
      (((IdeRequest.identify drive buf).onDisk unit d.disk).1, e) := by
  obtain ⟨t, hdisk, hsettles⟩ := identifyCommand_settles unit hidle hdrive
  refine ⟨{ t with phase := .idle }, ⟨rfl, hsettles.settled.2⟩, hdisk, ?_⟩
  have hidentify : ideIdentify unit.bus drive buf d =
      (0, buf.store 0 unit.identity.val, { t with phase := .idle }) := by
    rw [ideIdentify, orFail_ok (ideWaitReady_idle unit hidle),
      unit.inb_status (.inl rfl) hsettles.master,
      ideIdentifyData_settles (unit.status_ne_zero _) hsettles.tick]
  rw [IdeRequest.serve, hidentify, IdeRequest.onDisk]

theorem IdeRequest.serve_onDisk (unit : AtaUnit) (hidle : d.Idle) (q : IdeRequest)
    (hdrive : q.drive &&& 0x10 = 0) :
    ∃ e, e.Idle ∧ e.disk = (q.onDisk unit d.disk).2 ∧
      q.serve unit.bus d = ((q.onDisk unit d.disk).1, e) := by
  cases q with
  | read drive lba count buf => exact serve_read hidle hdrive
  | write drive lba count buf => exact serve_write hidle hdrive
  | identify drive buf => exact serve_identify hidle hdrive

/-- The drive waits for a command and has these sectors. -/
structure AtaDrive.Holds (d : AtaDrive) (disk : Nat → SectorData) : Prop where
  idle : d.Idle
  disk : d.disk = disk

theorem serveAll_holds (unit : AtaUnit) {disk : Nat → SectorData} (hd : d.Holds disk)
    (qs : List IdeRequest) (hdrive : ∀ q ∈ qs, q.drive &&& 0x10 = 0) :
    (serveAll unit.bus qs d).1 = (allOnDisk unit qs disk).1 ∧
      (serveAll unit.bus qs d).2.Holds (allOnDisk unit qs disk).2 := by
  induction qs generalizing d disk with
  | nil => exact ⟨rfl, hd⟩
  | cons q qs ih =>
      rw [List.forall_mem_cons] at hdrive
      obtain ⟨e, hidle, hedisk, hserve⟩ := q.serve_onDisk unit hd.idle hdrive.1
      rw [hd.disk] at hedisk hserve
      obtain ⟨hanswers, hholds⟩ := ih ⟨hidle, hedisk⟩ hdrive.2
      rw [serveAll, hserve, allOnDisk]
      exact ⟨congrArg _ hanswers, hholds⟩

/-- The sectors that a request may change. -/
def IdeRequest.Writes (l : Nat) : IdeRequest → Prop
  | .write _ lba count _ => lba.toNat % 2 ^ 28 ≤ l ∧ l < lba.toNat % 2 ^ 28 + count.toNat
  | _ => False

theorem IdeRequest.onDisk_frame (unit : AtaUnit) (disk : Nat → SectorData) {q : IdeRequest} {l : Nat}
    (hq : ¬ q.Writes l) : (q.onDisk unit disk).2 l = disk l := by
  cases q with
  | read drive lba count buf => rfl
  | identify drive buf => rfl
  | write drive lba count buf =>
      have hout : l ∉ sound unit.bad (lba.toNat % 2 ^ 28) count.toNat := by
        intro hmem
        have hrange := List.takeWhile_subset _ hmem
        exact hq (List.mem_range'_1.mp hrange)
      rw [IdeRequest.onDisk]
      dsimp only
      rw [writeBlocks_apply, WordBuffer.sectors_length, if_neg hout]

theorem allOnDisk_frame (unit : AtaUnit) (disk : Nat → SectorData) {qs : List IdeRequest} {l : Nat}
    (hqs : ∀ q ∈ qs, ¬ q.Writes l) : (allOnDisk unit qs disk).2 l = disk l := by
  induction qs generalizing disk with
  | nil => rfl
  | cons q qs ih =>
      rw [List.forall_mem_cons] at hqs
      rw [allOnDisk]
      exact (ih _ hqs.2).trans (q.onDisk_frame unit disk hqs.1)

/-- Any sequence of requests for the master, failing ones included, gives the answers and leaves
the sectors of the block store, and no sector changes that is not among those written. -/
theorem serveAll_onDisk (unit : AtaUnit) (d : AtaDrive) (hidle : d.Idle) (qs : List IdeRequest)
    (hdrive : ∀ q ∈ qs, q.drive &&& 0x10 = 0) :
    ∃ e, e.Idle ∧ serveAll unit.bus qs d = ((allOnDisk unit qs d.disk).1, e) ∧
      e.disk = (allOnDisk unit qs d.disk).2 ∧
      ∀ l, (∀ q ∈ qs, ¬ q.Writes l) → e.disk l = d.disk l := by
  obtain ⟨hanswers, hholds⟩ := serveAll_holds unit ⟨hidle, rfl⟩ qs hdrive
  refine ⟨(serveAll unit.bus qs d).2, hholds.idle, by rw [← hanswers], hholds.disk, ?_⟩
  intro l hl
  rw [hholds.disk]
  exact allOnDisk_frame unit d.disk hl

/-- A drive that cannot access sector 7 and is busy for up to two reads of the status. -/
def sampleUnit : AtaUnit where
  bad l := l = 7
  identity := ⟨List.replicate 256 0, List.length_replicate⟩
  latency k := k % 3
  busyStatus _ _ := ideStatusBsy
  prompt k := lt_trans (Nat.mod_lt k (by decide)) (by decide)
  busy _ _ := by decide
  noDrq _ _ := by decide
  noErr _ _ := by decide

def sampleDrive : AtaDrive where
  disk _ := ⟨List.replicate 256 0, List.length_replicate⟩
  regs := ⟨0, 0, 0, 0, 0⟩
  phase := .idle
  error := false
  periods := 0

theorem sampleDrive_idle : sampleDrive.Idle := ⟨rfl, rfl⟩

/-- Two sectors of which the second is bad, and the first read again. -/
theorem serveAll_onDisk_sample : ∃ e, e.Idle ∧
    serveAll sampleUnit.bus [.write 0 6 2 fun _ => 1, .read 0 6 1 fun _ => 2] sampleDrive =
      ((allOnDisk sampleUnit [.write 0 6 2 fun _ => 1, .read 0 6 1 fun _ => 2] sampleDrive.disk).1, e) :=
  have hdrive : ∀ q ∈ [IdeRequest.write 0 6 2 fun _ => 1, .read 0 6 1 fun _ => 2],
      q.drive &&& 0x10 = 0 := by simp [IdeRequest.drive]
  have ⟨e, hidle, hserve, _⟩ := serveAll_onDisk sampleUnit sampleDrive sampleDrive_idle _ hdrive
  ⟨e, hidle, hserve⟩

theorem WordBuffer.store_sectors (buf buf' : WordBuffer) (off n i : Nat) :
    buf'.store off ((buf.sectors off n).flatMap Subtype.val) i =
      if off ≤ i ∧ i < off + 256 * n then buf i else buf' i := by
  induction n generalizing off buf' with
  | zero =>
      have hnone : ¬ (off ≤ i ∧ i < off + 256 * 0) := by omega
      rw [if_neg hnone, WordBuffer.sectors, List.flatMap_nil, WordBuffer.store_nil]
  | succ n ih =>
      rw [WordBuffer.sectors, List.flatMap_cons, WordBuffer.store_append, buf.block_length, ih]
      by_cases hlater : off + 256 ≤ i
      · have hoff : off ≤ i := by omega
        have hbeyond : ¬ i - off < 256 := by omega
        have hblock : buf'.store off (buf.block off) i = buf' i := by
          simp [WordBuffer.store, WordBuffer.block, hbeyond]
        rw [hblock]
        congr 1
        apply propext
        omega
      · by_cases hoff : off ≤ i
        · have hfirst : i - off < 256 := by omega
          have hindex : off + (i - off) = i := by omega
          rw [if_neg (by omega), if_pos (by omega)]
          simp [WordBuffer.store, WordBuffer.block, hoff, hfirst, hindex]
        · rw [if_neg (by omega), if_neg (by omega)]
          simp [WordBuffer.store, hoff]

theorem readBlocks_congr {disk disk' : Nat → SectorData} {bad : Nat → Bool} {lba n : Nat}
    (hsame : ∀ l, lba ≤ l → l < lba + n → disk' l = disk l) :
    readBlocks disk' bad lba n = readBlocks disk bad lba n := by
  apply List.map_congr_left
  intro l hl
  have hrange := List.mem_range'_1.mp (List.takeWhile_subset _ hl)
  exact hsame l hrange.1 hrange.2

theorem allOnDisk_append (unit : AtaUnit) (qs qs' : List IdeRequest) (disk : Nat → SectorData) :
    allOnDisk unit (qs ++ qs') disk =
      ((allOnDisk unit qs disk).1 ++ (allOnDisk unit qs' (allOnDisk unit qs disk).2).1,
        (allOnDisk unit qs' (allOnDisk unit qs disk).2).2) := by
  induction qs generalizing disk with
  | nil => rfl
  | cons q qs ih => rw [List.cons_append, allOnDisk, ih, allOnDisk, List.cons_append]

section ReadBack

variable (disk : Nat → SectorData) {disk' : Nat → SectorData} (buf buf' : WordBuffer)

theorem onDisk_write_good (drive : UInt8) (hcount : count ≠ 0)
    (hgood : ∀ l, lba.toNat % 2 ^ 28 ≤ l → l < lba.toNat % 2 ^ 28 + count.toNat → unit.bad l = false) :
    (IdeRequest.write drive lba count buf).onDisk unit disk =
      ((0, buf), writeBlocks unit.bad disk (lba.toNat % 2 ^ 28) (buf.sectors 0 count.toNat)) := by
  have hlength : (sound unit.bad (lba.toNat % 2 ^ 28) count.toNat).length = count.toNat := by
    rw [sound_of_good hgood, List.length_range']
  rw [IdeRequest.onDisk, if_pos ⟨hcount, by omega⟩]

theorem onDisk_read_good (drive : UInt8) (hcount : count ≠ 0)
    (hgood : ∀ l, lba.toNat % 2 ^ 28 ≤ l → l < lba.toNat % 2 ^ 28 + count.toNat → unit.bad l = false)
    (hsame : ∀ l, lba.toNat % 2 ^ 28 ≤ l → l < lba.toNat % 2 ^ 28 + count.toNat →
      disk' l = writeBlocks unit.bad disk (lba.toNat % 2 ^ 28) (buf.sectors 0 count.toNat) l) :
    ((IdeRequest.read drive lba count buf').onDisk unit disk').1 =
      (0, fun i => if i < 256 * count.toNat then buf i else buf' i) := by
  have hblocks : readBlocks disk' unit.bad (lba.toNat % 2 ^ 28) count.toNat =
      buf.sectors 0 count.toNat := by
    rw [readBlocks_congr hsame]
    have hback := readBlocks_writeBlocks unit.bad disk (lba.toNat % 2 ^ 28)
      (buf.sectors 0 count.toNat) (by rw [buf.sectors_length]; exact hgood)
    rwa [buf.sectors_length] at hback
  have hstore : buf'.store 0 ((buf.sectors 0 count.toNat).flatMap Subtype.val) =
      fun i => if i < 256 * count.toNat then buf i else buf' i := by
    funext i
    rw [WordBuffer.store_sectors]
    simp
  rw [IdeRequest.onDisk]
  dsimp only
  rw [hblocks, hstore, if_pos ⟨hcount, buf.sectors_length ..⟩]

end ReadBack

/-- Sectors that were written read back as they were written, whatever else is requested of the
master in between and however it ends. -/
theorem ideRead_ideWrite (unit : AtaUnit) (d : AtaDrive) (hidle : d.Idle) (drive : UInt8)
    (hdrive : drive &&& 0x10 = 0) (lba : UInt32) (count : UInt8) (hcount : count ≠ 0)
    (hgood : ∀ l, lba.toNat % 2 ^ 28 ≤ l → l < lba.toNat % 2 ^ 28 + count.toNat → unit.bad l = false)
    (buf buf' : WordBuffer) (qs : List IdeRequest) (hqs : ∀ q ∈ qs, q.drive &&& 0x10 = 0)
    (hapart : ∀ l, lba.toNat % 2 ^ 28 ≤ l → l < lba.toNat % 2 ^ 28 + count.toNat →
      ∀ q ∈ qs, ¬ q.Writes l) :
    ∃ answers e, serveAll unit.bus
        (.write drive lba count buf :: (qs ++ [.read drive lba count buf'])) d =
      ((0, buf) :: (answers ++ [(0, fun i => if i < 256 * count.toNat then buf i else buf' i)]), e) := by
  have hall : ∀ q ∈ IdeRequest.write drive lba count buf :: (qs ++ [.read drive lba count buf']),
      q.drive &&& 0x10 = 0 := by
    intro q hq
    rw [List.mem_cons, List.mem_append, List.mem_singleton] at hq
    rcases hq with rfl | hq | rfl
    · exact hdrive
    · exact hqs q hq
    · exact hdrive
  obtain ⟨hanswers, -⟩ := serveAll_holds unit ⟨hidle, rfl⟩ _ hall
  generalize serveAll unit.bus _ d = served at hanswers ⊢
  refine ⟨(allOnDisk unit qs (writeBlocks unit.bad d.disk (lba.toNat % 2 ^ 28)
    (buf.sectors 0 count.toNat))).1, served.2, Prod.ext (hanswers.trans ?_) rfl⟩
  rw [allOnDisk, onDisk_write_good d.disk buf drive hcount hgood, allOnDisk_append]
  have hread := onDisk_read_good d.disk buf buf' drive hcount hgood
    fun l hle hlt => allOnDisk_frame unit _ (hapart l hle hlt)
  simp only [allOnDisk, hread]

/-- Sector 6 is written and read again after a write to the bad sector behind it. -/
theorem ideRead_ideWrite_sample :
    ∃ (answers : List (Int × WordBuffer)) (e : AtaDrive),
      serveAll sampleUnit.bus
          [.write 0 6 1 fun _ => 1, .write 0 7 1 fun _ => 3, .read 0 6 1 fun _ => 2] sampleDrive =
        ((0, fun _ => 1) ::
          (answers ++ [(0, fun i => if i < 256 * (1 : UInt8).toNat then 1 else 2)]), e) := by
  have hsector : ∀ l, (6 : UInt32).toNat % 2 ^ 28 ≤ l →
      l < (6 : UInt32).toNat % 2 ^ 28 + (1 : UInt8).toNat → l = 6 := by
    intro l hle hlt
    have hle' : 6 ≤ l := hle
    have hlt' : l < 7 := hlt
    omega
  refine ideRead_ideWrite sampleUnit sampleDrive sampleDrive_idle 0 (by decide) 6 1 (by decide) ?_
    (fun _ => 1) (fun _ => 2) [.write 0 7 1 fun _ => 3] ?_ ?_
  · intro l hle hlt
    rw [hsector l hle hlt]
    rfl
  · simp [IdeRequest.drive]
  · intro l hle hlt q hq
    rw [List.mem_singleton.mp hq, hsector l hle hlt]
    exact fun h => absurd h.1 (by decide)

end Magnos.Ports
