import Magnos.Loader.Segments
import Magnos.Program.Frames
import Magnos.Syscall.OpenListed

/-!
# Where traps start after an exec

When a program exits, `elf_load_and_exec` sets `tss.esp0` to the stack pointer inside its own
frame, not to the value that its caller's traps started from.  A call of `SYSCALL_EXEC` that
starts a program therefore leaves `tss.esp0` lower than it found it, and one that starts none
leaves it as it was.
-/

namespace Magnos

open Framework

variable {p : Platform} {m m' : Machine} {event : Event}

/-- The call finds a program and starts it. -/
def StartsProgram (p : Platform) (m : Machine) (cmd : UInt32) : Prop :=
  cmd ≠ 0 ∧ ∃ k, m.fetch p cmd = (.image, k) ∧ Launchable p m k

theorem Machine.exec_launched_iff {cmd : UInt32} {sizes : FrameSizes}
    (hexec : m.exec p cmd sizes = some (event, m')) :
    event = .launched ↔ StartsProgram p m cmd := by
  unfold StartsProgram
  rcases Machine.exec_cases hexec with ⟨code, k, rfl, -, hwhy⟩ | ⟨k, hcmd, hfetch, hcase⟩
  · refine ⟨fun h => by simp at h, ?_⟩
    rintro ⟨hcmd, k', himage, -⟩
    rcases hwhy with ⟨hzero, -⟩ | ⟨-, hfailed⟩
    · exact (hcmd hzero).elim
    · simp [hfailed] at himage
  · rcases hcase with ⟨hrefused, rfl, -⟩ | ⟨hlaunch, rfl, -⟩
    · refine ⟨fun h => by simp at h, ?_⟩
      rintro ⟨-, k', himage, hlaunch⟩
      obtain rfl : k = k' := by simpa [hfetch] using himage
      exact (hrefused hlaunch).elim
    · exact ⟨fun _ => ⟨hcmd, k, hfetch, hlaunch⟩, fun _ => rfl⟩

theorem Machine.exec_failed_esp0 {cmd code : UInt32} {sizes : FrameSizes}
    (hexec : m.exec p cmd sizes = some (.execFailed code, m')) : m'.esp0 = m.esp0 := by
  rcases Machine.exec_cases hexec with ⟨_, k, -, rfl, -⟩ | ⟨k, -, -, hcase⟩
  · rfl
  · rcases hcase with ⟨-, -, rfl⟩ | ⟨-, hevent, -⟩
    · rfl
    · simp at hevent

/-- In every run, `SYSCALL_EXEC` returns with the `tss.esp0` it was called with exactly if it
has started no program; otherwise `tss.esp0` is lower than before. -/
theorem execReturn_esp0_iff (p : Platform) (k : Kernel) (savedProgram : Nat → UInt8)
    (labels : List (ProgramOp × Event)) (m m' : Machine) (op : ProgramOp) (event : Event)
    (hrun : Run (intactStep p) (Machine.boot k savedProgram) labels m)
    (hstep : intactStep p m (op, event) m') :
    (∀ cmd sizes, op = .exec cmd sizes → (event = .launched ↔ StartsProgram p m cmd)) ∧
      ∀ call, event.execReturn m = some call →
        (m'.esp0 = call.esp0 ↔ ¬ ∃ started, event = .returned started) ∧ m'.esp0 ≤ call.esp0 := by
  have hinv := FramesInv.run hrun
  refine ⟨?_, ?_⟩
  · rintro cmd sizes rfl
    exact Machine.exec_launched_iff (Machine.step_cases hstep.2).2
  · intro call hcall
    rcases hinv.execReturn_cases hstep.2 hcall with
      ⟨cmd, sizes, code, rfl, rfl, hexec⟩ | ⟨frame, outer, hframes, hcaller, rfl, rfl⟩
    · have hesp := Machine.exec_failed_esp0 hexec
      exact ⟨⟨fun _ => by simp, fun _ => hesp⟩, hesp.le⟩
    · have hok := hinv.ok
      rw [hframes] at hok
      obtain ⟨-, hsaved, -, hbelow, -, -⟩ := hok
      have hlt : ((m.leave frame outer).restore).esp0 < call.esp0 := by
        show frame.savedEsp0 < call.esp0
        exact Int.lt_of_le_of_lt hsaved.2 (hbelow call hcaller)
      exact ⟨⟨fun h => by omega, fun h => (h ⟨call, rfl⟩).elim⟩, hlt.le⟩

/-- A run, step by step. -/
def Machine.runOps (p : Platform) (m : Machine) :
    List ProgramOp → Option (List (ProgramOp × Event) × Machine)
  | [] => some ([], m)
  | op :: ops =>
      (m.step p op).bind fun (event, m') =>
        (m'.runOps p ops).map fun (labels, last) => ((op, event) :: labels, last)

theorem Machine.runOps_run {ops : List ProgramOp} {labels : List (ProgramOp × Event)}
    (hops : m.runOps p ops = some (labels, m')) : Run (machineStep p) m labels m' := by
  induction ops generalizing m labels with
  | nil =>
      rw [Machine.runOps, Option.some.injEq, Prod.mk.injEq] at hops
      obtain ⟨rfl, rfl⟩ := hops
      exact .nil _
  | cons op ops ih =>
      obtain ⟨⟨event, next⟩, hstep, hrest⟩ := Option.bind_eq_some_iff.mp hops
      obtain ⟨⟨labels', last⟩, hlater, heq⟩ := Option.map_eq_some_iff.mp hrest
      rw [Prod.mk.injEq] at heq
      obtain ⟨rfl, rfl⟩ := heq
      exact .cons hstep (ih hlater)

/-- A run that was computed up to an exit, and what is seen of the call it returns from. -/
theorem Machine.exit_of_runOps {ops : List ProgramOp} {View : Type} (view : ExecCall → Machine → View)
    {seen : View} (hpath : (m.runOps p ops).bind (fun r => (r.2.step p .exit).bind fun e =>
      (e.1.execReturn r.2).map fun call => view call e.2) = some seen) :
    ∃ labels last event after call, Run (machineStep p) m labels last ∧
      machineStep p last (.exit, event) after ∧ event.execReturn last = some call ∧
      view call after = seen := by
  obtain ⟨⟨labels, last⟩, hops, hpath⟩ := Option.bind_eq_some_iff.mp hpath
  obtain ⟨⟨event, after⟩, hstep, hpath⟩ := Option.bind_eq_some_iff.mp hpath
  obtain ⟨call, hcall, heq⟩ := Option.map_eq_some_iff.mp hpath
  exact ⟨labels, last, event, after, call, Machine.runOps_run hops, hstep, hcall, heq⟩

theorem Machine.runOps_append (ops ops' : List ProgramOp) :
    m.runOps p (ops ++ ops') = (m.runOps p ops).bind fun r =>
      (r.2.runOps p ops').map fun r' => (r.1 ++ r'.1, r'.2) := by
  induction ops generalizing m with
  | nil => simp [Machine.runOps]
  | cons op ops ih =>
      rw [List.cons_append, Machine.runOps, Machine.runOps]
      cases m.step p op with
      | none => rfl
      | some r =>
          simp only [Option.bind_some, ih]
          cases r.2.runOps p ops with
          | none => rfl
          | some q => simp [Function.comp_def]

theorem Machine.runOps_of_run {m₁ : Machine} {labels : List (ProgramOp × Event)}
    (hrun : Run (machineStep p) m₁ labels m) :
    m₁.runOps p (labels.map Prod.fst) = some (labels, m) := by
  induction hrun with
  | nil => rfl
  | snoc _ hlast ih =>
      rename_i t u _ l _
      have hstep : t.step p l.1 = some (l.2, u) := hlast
      rw [List.map_append, Machine.runOps_append, ih]
      simp [Machine.runOps, hstep]

/-- A disk whose file `A` is a program that occupies one byte of memory. -/
def programDisk (lba : Nat) : Sector := fun i =>
  match lba with
  | 2 => if i = 28 then 84 else sampleDisk 2 i
  | 3 => (sampleElf 0x200000).getD i 0
  | _ => sampleDisk lba i

def samplePlatform : Platform where
  dev _ lba := some (programDisk lba)
  clusters := 1
  stack := ⟨0, 16, 0⟩
  execBuffer := 0x10000
  binaryBuffer := 0x30000
  execBuffer_le := by decide
  binaryBuffer_le := by decide

/-- The machine after boot, with the command `A` in the user region. -/
def sampleBoot : Machine :=
  .boot ⟨Memory.ofBytes 0x200100 [0x41], sampleFat32, false, noArgs⟩ fun _ => 0

def sampleCommand : ProgramOp := .command ⟨[0x41], by decide⟩ 16

def sampleExec : ProgramOp := .exec 0x200100 ⟨1, 1, 1, Nat.one_pos, Nat.one_pos, Nat.one_pos⟩

theorem sampleCommand_intact : KernelIntact samplePlatform sampleBoot sampleCommand := by
  intro k hfetch
  have hstores : (elfStores (fetchProgram samplePlatform.dev samplePlatform.clusters
      samplePlatform.binaryBuffer true sampleBoot.kernel ⟨[0x41], by decide⟩).2.mem
      samplePlatform.binaryBuffer).all (fun store => UserAddr store.1) = true := by decide +kernel
  rw [hfetch] at hstores
  exact loadConfined_of_all hstores

theorem sampleCommand_launches : ∃ m, sampleBoot.step samplePlatform sampleCommand =
    some (.launched, m) ∧ m.frames.length = 1 := by
  have hstep : (sampleBoot.step samplePlatform sampleCommand).map (fun r =>
      (match r.1 with | .launched => true | _ => false, r.2.frames.length)) = some (true, 1) := by
    decide +kernel
  obtain ⟨⟨event, m⟩, hstep, heq⟩ := Option.map_eq_some_iff.mp hstep
  rw [Prod.mk.injEq] at heq
  cases event with
  | launched => exact ⟨m, hstep, heq.2⟩
  | _ => simp at heq

theorem execReturn_esp0_sample :
    ∃ labels m m', Run (intactStep samplePlatform) sampleBoot labels m ∧
      intactStep samplePlatform m (.exec 0 ⟨1, 1, 1, by decide, by decide, by decide⟩,
        .execFailed (-1)) m' ∧ m'.esp0 = m.esp0 := by
  obtain ⟨m, hlaunch, hframes⟩ := sampleCommand_launches
  have hrun : Run (intactStep samplePlatform) sampleBoot [(sampleCommand, .launched)] m :=
    .snoc (.nil _) ⟨sampleCommand_intact, hlaunch⟩
  have hstep : intactStep samplePlatform m (.exec 0 ⟨1, 1, 1, by decide, by decide, by decide⟩,
      .execFailed (-1)) m :=
    intactStep_execNull samplePlatform (fun h => by simp [h] at hframes) _
  have hesp := (execReturn_esp0_iff samplePlatform sampleBoot.kernel (fun _ => 0) _ m m _ _ hrun
    hstep).2 _ rfl
  exact ⟨_, m, m, hrun, hstep, hesp.1.mpr (by simp)⟩

/-- The first program runs the second, which exits at once: `tss.esp0` is lower than before. -/
theorem execReturn_lowers_esp0 :
    ¬ ∀ (p : Platform) (k : Kernel) (savedProgram : Nat → UInt8)
      (labels : List (ProgramOp × Event)) (m m' : Machine) (op : ProgramOp) (event : Event)
      (call : ExecCall), Run (machineStep p) (Machine.boot k savedProgram) labels m →
        machineStep p m (op, event) m' → event.execReturn m = some call →
        m'.esp0 = call.esp0 := by
  intro hclaim
  have hpath : (sampleBoot.runOps samplePlatform [sampleCommand, sampleExec]).bind (fun r =>
      (r.2.step samplePlatform .exit).bind fun e =>
        (e.1.execReturn r.2).map fun call => (call.esp0, e.2.esp0)) =
      some (bootStack - 16, bootStack - 19) := by decide +kernel
  obtain ⟨labels, m, event, m', call, hrun, hstep, hcall, heq⟩ := Machine.exit_of_runOps
    (fun call m' => (call.esp0, m'.esp0)) hpath
  rw [Prod.mk.injEq] at heq
  have hesp := hclaim samplePlatform _ _ labels m m' .exit event call hrun hstep hcall
  rw [heq.1, heq.2] at hesp
  exact absurd hesp (by decide)

end Magnos
