import Magnos.Program.Machine
import Magnos.Syscall.Pointers

/-!
# The stack of running programs

What a step can do to the machine, and the invariant of the frames on the kernel stack: every
running program has one, `exec_stack` holds their positions, each stands below the one of the
program that started it, and traps start below all of them.

The machine keeps the kernel's own variables apart from memory.  That is what they are as long
as the kernel is not made to write over itself, which `KernelIntact` says of a step.
-/

namespace Magnos

open Framework

variable {p : Platform} {m m' : Machine} {event : Event}

theorem elfLoadAndExec_cases (m : Machine) (stack : LoaderStack) (elf : UInt32) (esp : Int)
    (caller : Caller) :
    (ElfHeaderValid m.kernel.mem elf ∧ m.execDepth < maxExecDepth ∧
        elfLoadAndExec m stack elf esp caller = (true, (m.load elf).enter stack esp caller)) ∨
      ¬ (ElfHeaderValid m.kernel.mem elf ∧ m.execDepth < maxExecDepth) ∧
        elfLoadAndExec m stack elf esp caller = (false, m.load elf) := by
  unfold elfLoadAndExec
  by_cases hvalid : ElfHeaderValid m.kernel.mem elf
  · rw [if_pos hvalid]
    by_cases hdepth : m.execDepth ≥ maxExecDepth
    · exact .inr ⟨fun h => by omega, by rw [if_pos hdepth]⟩
    · exact .inl ⟨hvalid, by omega, by rw [if_neg hdepth]⟩
  · refine .inr ⟨fun h => hvalid h.1, ?_⟩
    have hload : m.load elf = m := by
      simp [Machine.load, elfStores, hvalid, Memory.storeAll]
    rw [if_neg hvalid, hload]

/-- A call that gets as far as saving the caller's image starts its program under these
conditions. -/
def Launchable (p : Platform) (m : Machine) (k : Kernel) : Prop :=
  ElfHeaderValid k.mem p.execBuffer ∧ m.execDepth < maxExecDepth

theorem Machine.exec_cases {cmd : UInt32} {sizes : FrameSizes}
    (hexec : m.exec p cmd sizes = some (event, m')) :
    (∃ code k, event = .execFailed code ∧ m' = { m with kernel := k } ∧
        (cmd = 0 ∧ k = m.kernel ∨ cmd ≠ 0 ∧ m.fetch p cmd = (.failed code, k))) ∨
      ∃ k, cmd ≠ 0 ∧ m.fetch p cmd = (.image, k) ∧
        (¬ Launchable p m k ∧ event = .execFailed (-5) ∧
            m' = ((m.saved k).load p.execBuffer).restore ∨
          Launchable p m k ∧ event = .launched ∧
            m' = ((m.saved k).load p.execBuffer).enter p.stack (m.esp0 - sizes.total)
              (.syscall ⟨m.kernel.mem, m.esp0⟩)) := by
  unfold Machine.exec at hexec
  by_cases hcmd : cmd = 0
  · rw [if_pos hcmd, Option.some.injEq, Prod.mk.injEq] at hexec
    exact .inl ⟨-1, m.kernel, hexec.1.symm, hexec.2.symm, .inl ⟨hcmd, rfl⟩⟩
  · rw [if_neg hcmd] at hexec
    split at hexec
    · simp at hexec
    · next code k hfetch =>
        rw [Option.some.injEq, Prod.mk.injEq] at hexec
        exact .inl ⟨code, k, hexec.1.symm, hexec.2.symm, .inr ⟨hcmd, hfetch⟩⟩
    · next k hfetch =>
        refine .inr ⟨k, hcmd, hfetch, ?_⟩
        rcases elfLoadAndExec_cases (m.saved k) p.stack p.execBuffer (m.esp0 - sizes.total)
          (.syscall ⟨m.kernel.mem, m.esp0⟩) with ⟨hvalid, hdepth, heq⟩ | ⟨hrefused, heq⟩
        · rw [heq, Option.some.injEq, Prod.mk.injEq] at hexec
          exact .inr ⟨⟨hvalid, hdepth⟩, hexec.1.symm, hexec.2.symm⟩
        · rw [heq, Option.some.injEq, Prod.mk.injEq] at hexec
          exact .inl ⟨hrefused, hexec.1.symm, hexec.2.symm⟩

theorem Machine.command_cases {line : CString} {used : Nat}
    (hcommand : m.command p line used = some (event, m')) :
    (∃ k, event = .notRun ∧ m' = { m with kernel := k }) ∨
      ∃ k : Kernel, m.execDepth < maxExecDepth ∧ event = .launched ∧
        m' = (Machine.load { m with kernel := k } p.binaryBuffer).enter p.stack
          (bootStack - used) .command := by
  unfold Machine.command at hcommand
  split at hcommand
  · simp at hcommand
  · next k _ =>
      rw [Option.some.injEq, Prod.mk.injEq] at hcommand
      exact .inl ⟨k, hcommand.1.symm, hcommand.2.symm⟩
  · next k _ =>
      rcases elfLoadAndExec_cases { m with kernel := k } p.stack p.binaryBuffer
        (bootStack - used) .command with ⟨-, hdepth, heq⟩ | ⟨-, heq⟩
      · rw [heq, Option.some.injEq, Prod.mk.injEq] at hcommand
        exact .inr ⟨k, hdepth, hcommand.1.symm, hcommand.2.symm⟩
      · rw [heq, Option.some.injEq, Prod.mk.injEq] at hcommand
        exact .inl ⟨_, hcommand.1.symm, hcommand.2.symm⟩

theorem Machine.step_cases {op : ProgramOp} (hstep : m.step p op = some (event, m')) :
    match op with
    | .store addr byte => m.frames ≠ [] ∧ UserAddr addr ∧ event = .stored ∧
        m' = { m with kernel := { m.kernel with mem := m.kernel.mem.set addr byte } }
    | .file call => m.frames ≠ [] ∧ ∃ ret, (m.kernel.serve p.dev p.clusters call).ret = some ret ∧
        event = .served ret (m.kernel.serve p.dev p.clusters call).stores ∧
        m' = { m with kernel := (m.kernel.serve p.dev p.clusters call).kernel }
    | .exec cmd sizes => m.frames ≠ [] ∧ m.exec p cmd sizes = some (event, m')
    | .exit => m.frames ≠ [] ∧ m.exit = some (event, m')
    | .command line used => m.frames = [] ∧ m.command p line used = some (event, m') := by
  cases op with
  | store addr byte =>
      by_cases hok : m.frames ≠ [] ∧ UserAddr addr
      · rw [Machine.step, if_pos hok, Option.some.injEq, Prod.mk.injEq] at hstep
        exact ⟨hok.1, hok.2, hstep.1.symm, hstep.2.symm⟩
      · rw [Machine.step, if_neg hok] at hstep
        cases hstep
  | file call =>
      by_cases hrunning : m.frames ≠ []
      · rw [Machine.step, if_pos hrunning] at hstep
        obtain ⟨ret, hret, heq⟩ := Option.map_eq_some_iff.mp hstep
        rw [Prod.mk.injEq] at heq
        exact ⟨hrunning, ret, hret, heq.1.symm, heq.2.symm⟩
      · rw [Machine.step, if_neg hrunning] at hstep
        cases hstep
  | exec cmd sizes => simpa [Machine.step] using hstep
  | exit => simpa [Machine.step] using hstep
  | command line used => simpa [Machine.step] using hstep

theorem Machine.step_exec_image {cmd : UInt32} {k : Kernel} (sizes : FrameSizes)
    (hrunning : m.frames ≠ []) (hcmd : cmd ≠ 0) (hfetch : m.fetch p cmd = (.image, k)) :
    m.step p (.exec cmd sizes) = some (.launched,
        ((m.saved k).load p.execBuffer).enter p.stack (m.esp0 - sizes.total)
          (.syscall ⟨m.kernel.mem, m.esp0⟩)) ∨
      m.step p (.exec cmd sizes) =
        some (.execFailed (-5), ((m.saved k).load p.execBuffer).restore) := by
  rw [Machine.step, if_pos hrunning, Machine.exec, if_neg hcmd]
  rcases elfLoadAndExec_cases (m.saved k) p.stack p.execBuffer (m.esp0 - sizes.total)
    (.syscall ⟨m.kernel.mem, m.esp0⟩) with ⟨-, -, heq⟩ | ⟨-, heq⟩
  · left
    simp only [hfetch, heq]
  · right
    simp only [hfetch, heq]

theorem Machine.step_file {call : FileSyscall} {ret : UInt32} (hrunning : m.frames ≠ [])
    (hret : (m.kernel.serve p.dev p.clusters call).ret = some ret) :
    m.step p (.file call) = some (.served ret (m.kernel.serve p.dev p.clusters call).stores,
      { m with kernel := (m.kernel.serve p.dev p.clusters call).kernel }) := by
  rw [Machine.step, if_pos hrunning]
  exact Option.map_eq_some_iff.mpr ⟨ret, hret, rfl⟩

/-- The loader stays inside the user region. -/
def LoadConfined (mem : Memory) (elf : UInt32) : Prop :=
  ¬ ElfHeaderValid mem elf ∨ SegmentsFit elf (phTable mem elf) (2 ^ 16) 0 mem

theorem loadConfined_of_all {mem : Memory} {elf : UInt32}
    (hall : (elfStores mem elf).all (fun store => UserAddr store.1) = true) :
    LoadConfined mem elf := by
  apply (elfStores_user_iff mem elf).mp
  intro store hs
  exact of_decide_eq_true (List.all_eq_true.mp hall store hs)

/-- The kernel stores nothing outside the user region on behalf of a program. -/
def KernelIntact (p : Platform) (m : Machine) : ProgramOp → Prop
  | .file call => call.Confined ∧ m.kernel.HandleInFile
  | .exec cmd _ => ∀ k, cmd ≠ 0 → m.fetch p cmd = (.image, k) → LoadConfined k.mem p.execBuffer
  | .command line _ => ∀ k,
      fetchProgram p.dev p.clusters p.binaryBuffer true m.kernel line = (.image, k) →
        LoadConfined k.mem p.binaryBuffer
  | .store _ _ | .exit => True

/-- The steps of runs in which the kernel is not made to write over itself. -/
def intactStep (p : Platform) : Machine → ProgramOp × Event → Machine → Prop :=
  guarded (fun m label => KernelIntact p m label.1) (machineStep p)

theorem intactStep_execNull (p : Platform) {m : Machine} (hrunning : m.frames ≠ [])
    (sizes : FrameSizes) : intactStep p m (.exec 0 sizes, .execFailed (-1)) m := by
  refine ⟨fun k h => (h rfl).elim, ?_⟩
  rw [machineStep, Machine.step, if_pos hrunning]
  rfl

/-- The frames, innermost first, with their positions in `exec_stack`. -/
def FramesOk (stack : LoaderStack) (execStack : Nat → Int) : List LoaderFrame → Prop
  | [] => True
  | f :: outer =>
      execStack outer.length = f.esp - stack.argument ∧
        (f.recorded = f.esp - stack.argument ∧ f.savedEsp0 ≤ f.esp) ∧
        (f.caller = .command ↔ outer = []) ∧
        (∀ call, f.caller = .syscall call → f.esp < call.esp0) ∧
        (∀ g ∈ outer.head?, f.esp < g.esp) ∧ FramesOk stack execStack outer

structure FramesInv (p : Platform) (m : Machine) : Prop where
  depth : m.execDepth = m.frames.length
  depth_le : m.execDepth ≤ maxExecDepth
  ok : FramesOk p.stack m.execStack m.frames
  top : ∀ f ∈ m.frames.head?, m.esp0 ≤ f.esp

theorem FramesOk.congr {stack : LoaderStack} {execStack execStack' : Nat → Int}
    {frames : List LoaderFrame} (hok : FramesOk stack execStack frames)
    (heq : ∀ i < frames.length, execStack' i = execStack i) :
    FramesOk stack execStack' frames := by
  induction frames with
  | nil => trivial
  | cons f outer ih =>
      obtain ⟨hpos, hsaved, hcaller, hcall, hbelow, hrest⟩ := hok
      have hlt : outer.length < (f :: outer).length := by simp
      refine ⟨(heq _ hlt).trans hpos, hsaved, hcaller, hcall, hbelow, ?_⟩
      exact ih hrest fun i hi => heq i (Nat.lt_trans hi hlt)

namespace FramesInv

theorem boot (k : Kernel) (savedProgram : Nat → UInt8) :
    FramesInv p (Machine.boot k savedProgram) :=
  ⟨rfl, Nat.zero_le _, trivial, fun f hf => by simp [Machine.boot] at hf⟩

theorem of_same (hinv : FramesInv p m) (hdepth : m'.execDepth = m.execDepth)
    (hstack : m'.execStack = m.execStack) (hesp : m'.esp0 = m.esp0)
    (hframes : m'.frames = m.frames) : FramesInv p m' := by
  refine ⟨?_, ?_, ?_, ?_⟩
  · rw [hdepth, hframes, hinv.depth]
  · rw [hdepth]
    exact hinv.depth_le
  · rw [hstack, hframes]
    exact hinv.ok
  · rw [hframes, hesp]
    exact hinv.top

theorem enter (hinv : FramesInv p m) (esp : Int) (caller : Caller)
    (hdepth : m.execDepth < maxExecDepth) (hcaller : caller = .command ↔ m.frames = [])
    (hcall : ∀ call, caller = .syscall call → esp < call.esp0)
    (hbelow : ∀ f ∈ m.frames.head?, esp < f.esp) : FramesInv p (m.enter p.stack esp caller) := by
  refine ⟨by rw [Machine.enter, List.length_cons, hinv.depth], hdepth, ?_, ?_⟩
  · refine ⟨?_, ⟨rfl, ?_⟩, hcaller, hcall, hbelow, ?_⟩
    · show (if m.frames.length = m.execDepth then esp - p.stack.argument else _) = _
      rw [if_pos hinv.depth.symm]
    · show esp - p.stack.saved ≤ esp
      omega
    · apply hinv.ok.congr
      intro i hi
      show (if i = m.execDepth then _ else m.execStack i) = m.execStack i
      rw [if_neg (by rw [hinv.depth]; omega)]
  · intro f hf
    simp only [Machine.enter, List.head?_cons, Option.mem_some_iff] at hf
    rw [← hf]
    show esp - p.stack.current ≤ esp
    omega

theorem exit_eq (hinv : FramesInv p m) {frame : LoaderFrame} {outer : List LoaderFrame}
    (hframes : m.frames = frame :: outer) :
    m.exit = match frame.caller with
      | .command => some (.finished, m.leave frame outer)
      | .syscall call => some (.returned call, (m.leave frame outer).restore) := by
  have hdepth := hinv.depth
  have hok := hinv.ok
  rw [hframes] at hdepth hok
  have htop : frame.recorded = m.execStack (m.execDepth - 1) := by
    rw [hdepth, List.length_cons, Nat.add_sub_cancel]
    exact hok.2.1.1.trans hok.1.symm
  have hpos : m.execDepth ≠ 0 := by
    rw [hdepth]
    simp
  have hdrop : (m.frames.dropWhile fun f => f.recorded ≠ m.execStack (m.execDepth - 1)) =
      frame :: outer := by
    rw [hframes, List.dropWhile_cons_of_neg (by simp [htop])]
  cases hcaller : frame.caller <;> simp only [Machine.exit, if_neg hpos, hdrop, hcaller]

theorem leave (hinv : FramesInv p m) {frame : LoaderFrame} {outer : List LoaderFrame}
    (hframes : m.frames = frame :: outer) : FramesInv p (m.leave frame outer) := by
  have hdepth := hinv.depth
  have hok := hinv.ok
  have hle := hinv.depth_le
  rw [hframes, List.length_cons] at hdepth
  rw [hframes] at hok
  obtain ⟨-, hsaved, -, -, hbelow, hrest⟩ := hok
  refine ⟨?_, ?_, hrest, ?_⟩
  · show m.execDepth - 1 = outer.length
    omega
  · show m.execDepth - 1 ≤ maxExecDepth
    omega
  · intro g hg
    show frame.savedEsp0 ≤ g.esp
    exact hsaved.2.trans (hbelow g hg).le

/-- Every step keeps the invariant. -/
theorem step (hinv : FramesInv p m) {op : ProgramOp} (hstep : m.step p op = some (event, m')) :
    FramesInv p m' := by
  have hcases := Machine.step_cases hstep
  cases op with
  | store addr byte =>
      obtain ⟨-, -, -, rfl⟩ := hcases
      exact hinv.of_same rfl rfl rfl rfl
  | file call =>
      obtain ⟨-, ret, -, -, rfl⟩ := hcases
      exact hinv.of_same rfl rfl rfl rfl
  | exec cmd sizes =>
      obtain ⟨hrunning, hexec⟩ := hcases
      rcases Machine.exec_cases hexec with ⟨code, k, -, rfl, -⟩ | ⟨k, -, -, hcase⟩
      · exact hinv.of_same rfl rfl rfl rfl
      · rcases hcase with ⟨-, -, rfl⟩ | ⟨hlaunch, -, rfl⟩
        · exact hinv.of_same rfl rfl rfl rfl
        · have hsaved : FramesInv p ((m.saved k).load p.execBuffer) :=
            hinv.of_same rfl rfl rfl rfl
          have hpos := sizes.total_pos
          apply hsaved.enter _ _ hlaunch.2
          · exact ⟨fun h => by simp at h, fun h => (hrunning h).elim⟩
          · intro call hcall
            simp only [Caller.syscall.injEq] at hcall
            rw [← hcall]
            show m.esp0 - sizes.total < m.esp0
            omega
          · intro f hf
            have htop := hinv.top f hf
            omega
  | exit =>
      obtain ⟨hrunning, hexit⟩ := hcases
      obtain ⟨frame, outer, hframes⟩ := List.exists_cons_of_ne_nil hrunning
      have hleave := hinv.leave hframes
      rw [hinv.exit_eq hframes] at hexit
      split at hexit <;> rw [Option.some.injEq, Prod.mk.injEq] at hexit <;> rw [← hexit.2]
      · exact hleave
      · exact hleave.of_same rfl rfl rfl rfl
  | command line used =>
      obtain ⟨hidle, hcommand⟩ := hcases
      rcases Machine.command_cases hcommand with ⟨k, -, rfl⟩ | ⟨k, hdepth, -, rfl⟩
      · exact hinv.of_same rfl rfl rfl rfl
      · have hloaded : FramesInv p (Machine.load { m with kernel := k } p.binaryBuffer) :=
          hinv.of_same rfl rfl rfl rfl
        apply hloaded.enter _ _ hdepth
        · exact ⟨fun _ => hidle, fun _ => rfl⟩
        · intro call hcall
          simp at hcall
        · intro f hf
          simp [Machine.load, hidle] at hf

/-- The invariant holds in every run from boot. -/
theorem run {k : Kernel} {savedProgram : Nat → UInt8} {labels : List (ProgramOp × Event)}
    (hrun : Run (intactStep p) (Machine.boot k savedProgram) labels m) : FramesInv p m :=
  hrun.invariant (fun _ _ _ hinv hstep => hinv.step hstep.2) (boot k savedProgram)

theorem execReturn_cases (hinv : FramesInv p m) {op : ProgramOp} {call : ExecCall}
    (hstep : m.step p op = some (event, m')) (hcall : event.execReturn m = some call) :
    (∃ cmd sizes code, event = .execFailed code ∧ call = ⟨m.kernel.mem, m.esp0⟩ ∧
        m.exec p cmd sizes = some (event, m')) ∨
      ∃ frame outer, m.frames = frame :: outer ∧ frame.caller = .syscall call ∧
        event = .returned call ∧ m' = (m.leave frame outer).restore := by
  have hcases := Machine.step_cases hstep
  cases op with
  | store addr byte =>
      obtain ⟨-, -, rfl, -⟩ := hcases
      simp [Event.execReturn] at hcall
  | file c =>
      obtain ⟨-, ret, -, rfl, -⟩ := hcases
      simp [Event.execReturn] at hcall
  | exec cmd sizes =>
      have hexec := hcases.2
      rcases Machine.exec_cases hexec with ⟨code, k, rfl, -, -⟩ | ⟨k, -, -, hcase⟩
      · exact .inl ⟨cmd, sizes, code, rfl, (Option.some.inj hcall).symm, hexec⟩
      · rcases hcase with ⟨-, rfl, -⟩ | ⟨-, rfl, -⟩
        · exact .inl ⟨cmd, sizes, -5, rfl, (Option.some.inj hcall).symm, hexec⟩
        · simp [Event.execReturn] at hcall
  | exit =>
      obtain ⟨hrunning, hexit⟩ := hcases
      obtain ⟨frame, outer, hframes⟩ := List.exists_cons_of_ne_nil hrunning
      rw [hinv.exit_eq hframes] at hexit
      split at hexit <;> rw [Option.some.injEq, Prod.mk.injEq] at hexit
      · rw [← hexit.1] at hcall
        simp [Event.execReturn] at hcall
      · next c hcaller =>
          obtain ⟨rfl, rfl⟩ := hexit
          obtain rfl : c = call := Option.some.inj hcall
          exact .inr ⟨frame, outer, hframes, hcaller, rfl, rfl⟩
  | command line used =>
      rcases Machine.command_cases hcases.2 with ⟨k, rfl, -⟩ | ⟨k, -, rfl, -⟩ <;>
        simp [Event.execReturn] at hcall

end FramesInv

end Magnos
