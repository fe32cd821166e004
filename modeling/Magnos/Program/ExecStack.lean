import Magnos.Framework.Stack
import Magnos.Program.KernelStack

/-!
# Calls of the loader and the programs they start

The machine continues whatever frame it finds at the position that the top context holds.
Here programs get numbers, in the order they start, and the machine is run together with a
record of the live calls of `elf_load_and_exec`: which program each has started, and which one
made it.  The record follows the machine's frames and does not decide where an exit leads.

`exec_depth` has an address here, and a program or an executable file that makes the kernel store
to it changes the depth.  Where the kernel is not made to write over itself, the depth counts the
running programs.
-/

namespace Magnos

open Framework

variable {p : Platform} {m m' : Machine} {event : Event}

/-- The event is the start of a program. -/
def Event.starts : Event → Bool
  | .launched => true
  | _ => false

/-- The event is the end of a program. -/
def Event.ends : Event → Bool
  | .returned _ => true
  | .finished => true
  | _ => false

/-- A live call of `elf_load_and_exec`; the caller is a program or the kernel's shell. -/
structure LoaderCall where
  program : Nat
  caller : Option Nat
deriving DecidableEq

/-- The calls stand in the order of the machine's frames. -/
structure Tracked where
  machine : Machine
  calls : List LoaderCall
  running : Option Nat
  started : Nat

def Tracked.boot (k : Kernel) (savedProgram : Nat → UInt8) : Tracked :=
  ⟨Machine.boot k savedProgram, [], none, 0⟩

/-- The calls from the one on whose frame the machine continues, when it is left with the
frames of `m'`. -/
def Tracked.resumed (t : Tracked) (m' : Machine) : List LoaderCall :=
  t.calls.drop (t.calls.length - (m'.frames.length + 1))

/-- What a step of the machine means for the record. -/
def Tracked.follow (t : Tracked) (event : Event) (m' : Machine) : Tracked :=
  if event.starts then ⟨m', ⟨t.started, t.running⟩ :: t.calls, some t.started, t.started + 1⟩
  else if event.ends then
    ⟨m', (t.resumed m').tail, (t.resumed m').head?.bind LoaderCall.caller, t.started⟩
  else { t with machine := m' }

/-- What a step makes the kernel store through pointers that it is given: to the buffers of file
calls, and to the addresses of the segments of an executable. -/
def kernelStores (p : Platform) (m : Machine) : ProgramOp → List (UInt32 × UInt8)
  | .file call => (m.kernel.serve p.dev p.clusters call).stores
  | .exec cmd _ =>
      if cmd = 0 then []
      else match m.fetch p cmd with
        | (.image, k) => elfStores k.mem p.execBuffer
        | _ => []
  | .command line _ =>
      match fetchProgram p.dev p.clusters p.binaryBuffer true m.kernel line with
      | (.image, k) => elfStores k.mem p.binaryBuffer
      | _ => []
  | .store _ _ | .exit => []

/-- `exec_depth` after these stores. -/
def Machine.depthAfter (p : Platform) (depthAddr : UInt32) (m : Machine) (op : ProgramOp) : UInt32 :=
  Memory.overwriteWord depthAddr (.ofNat m.execDepth) (kernelStores p m op)

/-- A step with `exec_depth` at an address.  The kernel reads the depth only after the stores of
the step; a step that makes it negative is left out. -/
def trackedStep (p : Platform) (depthAddr : UInt32) (t : Tracked) (label : ProgramOp × Event)
    (t' : Tracked) : Prop :=
  let depth := t.machine.depthAfter p depthAddr label.1
  depth.toNat < 2 ^ 31 ∧ machineStep p { t.machine with execDepth := depth.toNat } label t'.machine ∧
    t' = t.follow label.2 t'.machine

/-- The steps that do not make the kernel write over itself. -/
def trackedIntact (p : Platform) (depthAddr : UInt32) :
    Tracked → ProgramOp × Event → Tracked → Prop :=
  guarded (fun t label => KernelIntact p t.machine label.1) (trackedStep p depthAddr)

def launches (labels : List (ProgramOp × Event)) : Nat := labels.countP fun l => l.2.starts

def exits (labels : List (ProgramOp × Event)) : Nat := labels.countP fun l => l.2.ends

section Depth

variable {depthAddr : UInt32} {op : ProgramOp}

theorem KernelIntact.stores_user (hintact : KernelIntact p m op) :
    ∀ store ∈ kernelStores p m op, UserAddr store.1 := by
  intro store hstore
  cases op with
  | store addr byte => simp [kernelStores] at hstore
  | exit => simp [kernelStores] at hstore
  | file call =>
      exact hintact.1.stores p.dev p.clusters m.kernel (fun _ _ _ _ => hintact.2) store hstore
  | exec cmd sizes =>
      simp only [kernelStores] at hstore
      split at hstore
      · simp at hstore
      · next hcmd =>
          split at hstore
          · next k hfetch =>
              exact (elfStores_user_iff k.mem p.execBuffer).mpr (hintact k hcmd hfetch) store hstore
          · simp at hstore
  | command line used =>
      simp only [kernelStores] at hstore
      split at hstore
      · next k hfetch =>
          exact (elfStores_user_iff k.mem p.binaryBuffer).mpr (hintact k hfetch) store hstore
      · simp at hstore

theorem not_user_of_covers {addr a : UInt32} {n : Nat} (hout : addr.toNat + n ≤ userBase)
    (hcovers : Covers addr n a) : ¬ UserAddr a := by
  intro huser
  have hlow := huser.1
  have ha := a.toNat_lt
  unfold Covers at hcovers
  rw [UInt32.toNat_sub_of_le] at hcovers
  · omega
  · rw [UInt32.le_iff_toNat_le]
    omega

theorem KernelIntact.depthAfter_eq (hintact : KernelIntact p m op)
    (hout : depthAddr.toNat + 4 ≤ userBase) (hdepth : m.execDepth ≤ maxExecDepth) :
    (m.depthAfter p depthAddr op).toNat = m.execDepth := by
  have hsmall : m.execDepth < 2 ^ 32 := Nat.lt_of_le_of_lt hdepth (by decide)
  rw [Machine.depthAfter, Memory.overwriteWord_of_outside, UInt32.toNat_ofNat_of_lt' hsmall]
  intro store hstore hcovers
  exact not_user_of_covers hout hcovers (hintact.stores_user store hstore)

/-- Where the kernel is not made to write over itself, the machine makes the step. -/
theorem KernelIntact.trackedStep_iff {t t' : Tracked} (hintact : KernelIntact p t.machine op)
    (hout : depthAddr.toNat + 4 ≤ userBase) (hdepth : t.machine.execDepth ≤ maxExecDepth) :
    trackedStep p depthAddr t (op, event) t' ↔
      machineStep p t.machine (op, event) t'.machine ∧ t' = t.follow event t'.machine := by
  have heq := hintact.depthAfter_eq hout hdepth
  have hsmall : t.machine.execDepth < 2 ^ 31 := Nat.lt_of_le_of_lt hdepth (by decide)
  simp only [trackedStep, heq, hsmall, true_and]

end Depth

theorem FramesInv.step_frames (hinv : FramesInv p m) {op : ProgramOp}
    (hstep : m.step p op = some (event, m')) :
    (event.starts = true ∧ op ≠ .exit ∧ ∃ f, m'.frames = f :: m.frames) ∨
      (event.starts = false ∧ event.ends = true ∧ op = .exit ∧
        ∃ f, m.frames = f :: m'.frames ∧ (event = .finished ↔ m'.frames = [])) ∨
      (event.starts = false ∧ event.ends = false ∧ op ≠ .exit ∧ m'.frames = m.frames) := by
  have hcases := Machine.step_cases hstep
  cases op with
  | store addr byte =>
      obtain ⟨-, -, rfl, rfl⟩ := hcases
      exact .inr (.inr ⟨rfl, rfl, by simp, rfl⟩)
  | file call =>
      obtain ⟨-, ret, -, rfl, rfl⟩ := hcases
      exact .inr (.inr ⟨rfl, rfl, by simp, rfl⟩)
  | exec cmd sizes =>
      obtain ⟨-, hexec⟩ := hcases
      rcases Machine.exec_cases hexec with ⟨code, k, rfl, rfl, -⟩ | ⟨k, -, -, hcase⟩
      · exact .inr (.inr ⟨rfl, rfl, by simp, rfl⟩)
      · rcases hcase with ⟨-, rfl, rfl⟩ | ⟨-, rfl, rfl⟩
        · exact .inr (.inr ⟨rfl, rfl, by simp, rfl⟩)
        · exact .inl ⟨rfl, by simp, _, rfl⟩
  | exit =>
      obtain ⟨hrunning, hexit⟩ := hcases
      obtain ⟨frame, outer, hframes⟩ := List.exists_cons_of_ne_nil hrunning
      have hok := hinv.ok
      rw [hframes] at hok
      have hcaller := hok.2.2.1
      rw [hinv.exit_eq hframes] at hexit
      right
      left
      cases hwho : frame.caller with
      | command =>
          simp only [hwho, Option.some.injEq, Prod.mk.injEq] at hexit
          obtain ⟨rfl, rfl⟩ := hexit
          exact ⟨rfl, rfl, rfl, frame, hframes, by simpa [Machine.leave] using hcaller.mp hwho⟩
      | syscall call =>
          simp only [hwho, Option.some.injEq, Prod.mk.injEq] at hexit
          obtain ⟨rfl, rfl⟩ := hexit
          have hnested : outer ≠ [] := fun h => by simp [hwho, h] at hcaller
          exact ⟨rfl, rfl, rfl, frame, hframes, by simpa [Machine.leave, Machine.restore] using hnested⟩
  | command line used =>
      obtain ⟨-, hcommand⟩ := hcases
      rcases Machine.command_cases hcommand with ⟨k, rfl, rfl⟩ | ⟨k, -, rfl, rfl⟩
      · exact .inr (.inr ⟨rfl, rfl, by simp, rfl⟩)
      · exact .inl ⟨rfl, by simp, _, rfl⟩

/-- Every call was made by the program that the next outer call has started. -/
def CallsOk : List LoaderCall → Prop
  | [] => True
  | call :: outer => call.caller = outer.head?.map LoaderCall.program ∧ CallsOk outer

structure TrackedInv (p : Platform) (t : Tracked) : Prop where
  frames : FramesInv p t.machine
  calls : t.calls.length = t.machine.frames.length
  running : t.running = t.calls.head?.map LoaderCall.program
  nested : CallsOk t.calls

namespace TrackedInv

variable {t t' : Tracked} {op : ProgramOp} {depthAddr : UInt32}

theorem boot (k : Kernel) (savedProgram : Nat → UInt8) :
    TrackedInv p (Tracked.boot k savedProgram) :=
  ⟨FramesInv.boot k savedProgram, rfl, rfl, trivial⟩

theorem resumed_eq (hinv : TrackedInv p t) {f : LoaderFrame}
    (hframes : t.machine.frames = f :: m'.frames) :
    ∃ call outer, t.calls = call :: outer ∧ t.resumed m' = call :: outer := by
  have hlen := hinv.calls
  rw [hframes, List.length_cons] at hlen
  cases hcalls : t.calls with
  | nil =>
      rw [hcalls, List.length_nil] at hlen
      omega
  | cons call outer =>
      refine ⟨call, outer, rfl, ?_⟩
      rw [Tracked.resumed, hlen, Nat.sub_self, List.drop_zero, hcalls]

theorem machine_step (hinv : TrackedInv p t) (hout : depthAddr.toNat + 4 ≤ userBase)
    (hstep : trackedIntact p depthAddr t (op, event) t') :
    machineStep p t.machine (op, event) t'.machine ∧ t' = t.follow event t'.machine :=
  (hstep.1.trackedStep_iff hout hinv.frames.depth_le).mp hstep.2

theorem step (hinv : TrackedInv p t) (hout : depthAddr.toNat + 4 ≤ userBase)
    (hstep : trackedIntact p depthAddr t (op, event) t') : TrackedInv p t' := by
  obtain ⟨hmachine, hfollow⟩ := hinv.machine_step hout hstep
  have hframes' := hinv.frames.step hmachine
  rcases hinv.frames.step_frames hmachine with
    ⟨hstarts, -, f, hframes⟩ | ⟨hstarts, hends, -, f, hframes, -⟩ | ⟨hstarts, hends, -, hframes⟩
  · rw [Tracked.follow, if_pos hstarts] at hfollow
    refine ⟨hframes', ?_, ?_, ?_⟩
    · rw [hframes, hfollow, List.length_cons, List.length_cons, hinv.calls]
    · rw [hfollow]
      rfl
    · rw [hfollow]
      exact ⟨hinv.running, hinv.nested⟩
  · obtain ⟨call, outer, hcalls, hresumed⟩ := hinv.resumed_eq hframes
    have hlen := hinv.calls
    have hnested := hinv.nested
    rw [hframes, hcalls, List.length_cons, List.length_cons] at hlen
    rw [hcalls] at hnested
    rw [Tracked.follow, hstarts, if_neg Bool.false_ne_true, if_pos hends, hresumed] at hfollow
    refine ⟨hframes', ?_, ?_, ?_⟩
    · rw [hfollow]
      exact Nat.succ.inj hlen
    · rw [hfollow]
      exact hnested.1
    · rw [hfollow]
      exact hnested.2
  · rw [Tracked.follow, hstarts, if_neg Bool.false_ne_true, hends, if_neg Bool.false_ne_true] at hfollow
    refine ⟨hframes', ?_, ?_, ?_⟩
    · rw [hframes, hfollow]
      exact hinv.calls
    · rw [hfollow]
      exact hinv.running
    · rw [hfollow]
      exact hinv.nested

theorem run {k : Kernel} {savedProgram : Nat → UInt8} {labels : List (ProgramOp × Event)}
    (hout : depthAddr.toNat + 4 ≤ userBase)
    (hrun : Run (trackedIntact p depthAddr) (Tracked.boot k savedProgram) labels t) :
    TrackedInv p t :=
  hrun.invariant (fun _ _ _ hinv hstep => hinv.step hout hstep) (boot k savedProgram)

theorem exit_resumes (hinv : TrackedInv p t) (hout : depthAddr.toNat + 4 ≤ userBase)
    (hstep : trackedStep p depthAddr t (.exit, event) t') :
    ∃ call, (t.resumed t'.machine).head? = some call ∧ t.running = some call.program ∧
      t'.running = call.caller ∧ t.calls = call :: t'.calls ∧
      (event = .finished ↔ call.caller = none) := by
  have hintact : trackedIntact p depthAddr t (.exit, event) t' := ⟨trivial, hstep⟩
  have hinv' := hinv.step hout hintact
  obtain ⟨hmachine, hfollow⟩ := hinv.machine_step hout hintact
  rcases hinv.frames.step_frames hmachine with
    ⟨-, hop, -⟩ | ⟨hstarts, hends, -, f, hframes, hfinished⟩ | ⟨-, -, hop, -⟩
  · exact (hop rfl).elim
  · obtain ⟨call, outer, hcalls, hresumed⟩ := hinv.resumed_eq hframes
    rw [Tracked.follow, hstarts, if_neg Bool.false_ne_true, if_pos hends, hresumed] at hfollow
    have houter : t'.calls = outer := by rw [hfollow]; rfl
    have hnext : t'.running = call.caller := by rw [hfollow]; rfl
    refine ⟨call, ?_, ?_, hnext, ?_, ?_⟩
    · rw [hresumed, List.head?_cons]
    · rw [hinv.running, hcalls]
      rfl
    · rw [hcalls, houter]
    · have hlen := hinv'.calls
      rw [hfinished, ← hnext, hinv'.running, Option.map_eq_none_iff, List.head?_eq_none_iff,
        ← List.length_eq_zero_iff, ← List.length_eq_zero_iff, hlen]
  · exact (hop rfl).elim

end TrackedInv

theorem launches_eq {k : Kernel} {savedProgram : Nat → UInt8} {labels : List (ProgramOp × Event)}
    {t : Tracked} {depthAddr : UInt32} (hout : depthAddr.toNat + 4 ≤ userBase)
    (hrun : Run (trackedIntact p depthAddr) (Tracked.boot k savedProgram) labels t) :
    launches labels = exits labels + t.machine.execDepth := by
  induction hrun with
  | nil => rfl
  | snoc hbefore hlast ih =>
      rename_i t u labels label
      have hmachine := ((TrackedInv.run hout hbefore).machine_step hout hlast).1
      have hinv := (TrackedInv.run hout hbefore).frames
      have hinv' := (TrackedInv.run hout (hbefore.snoc hlast)).frames
      have hdepth := hinv.depth
      have hdepth' := hinv'.depth
      simp only [launches, exits, List.countP_append, List.countP_singleton] at ih ⊢
      rcases hinv.step_frames hmachine with
        ⟨hstarts, -, f, hframes⟩ | ⟨hstarts, hends, -, f, hframes, -⟩ |
          ⟨hstarts, hends, -, hframes⟩
      · have hends : label.2.ends = false := by
          cases hevent : label.2 <;> simp [hevent, Event.starts, Event.ends] at hstarts ⊢
        rw [hframes, List.length_cons] at hdepth'
        simp only [hstarts, hends, if_true, Bool.false_eq_true, if_false]
        omega
      · rw [hframes, List.length_cons] at hdepth
        simp only [hstarts, hends, if_true, Bool.false_eq_true, if_false]
        omega
      · rw [hframes] at hdepth'
        simp only [hstarts, hends, Bool.false_eq_true, if_false]
        omega

theorem FramesOk.position {stack : LoaderStack} {execStack : Nat → Int}
    {frames : List LoaderFrame} (hok : FramesOk stack execStack frames) {i : Nat}
    (hi : i < frames.length) : ∃ f ∈ frames, execStack i = f.esp - stack.argument := by
  induction frames with
  | nil => simp at hi
  | cons f outer ih =>
      obtain ⟨hpos, -, -, -, -, hrest⟩ := hok
      rw [List.length_cons] at hi
      by_cases hlast : i = outer.length
      · exact ⟨f, by simp, by rw [hlast, hpos]⟩
      · obtain ⟨g, hg, heq⟩ := ih hrest (by omega)
        exact ⟨g, by simp [hg], heq⟩

theorem FramesOk.below {stack : LoaderStack} {execStack : Nat → Int} {f : LoaderFrame}
    {outer : List LoaderFrame} (hok : FramesOk stack execStack (f :: outer)) :
    ∀ g ∈ outer, f.esp < g.esp := by
  induction outer generalizing f with
  | nil => simp
  | cons g outer ih =>
      obtain ⟨-, -, -, -, hbelow, hrest⟩ := hok
      have hfirst := hbelow g (by simp)
      intro h hh
      rcases List.mem_cons.mp hh with rfl | hh
      · exact hfirst
      · exact Int.lt_trans hfirst (ih hrest h hh)

theorem FramesOk.decreasing {stack : LoaderStack} {execStack : Nat → Int}
    {frames : List LoaderFrame} (hok : FramesOk stack execStack frames) {i j : Nat} (hij : i < j)
    (hj : j < frames.length) : execStack j < execStack i := by
  induction frames with
  | nil => simp at hj
  | cons f outer ih =>
      have hrest := hok.2.2.2.2.2
      rw [List.length_cons] at hj
      by_cases hlast : j = outer.length
      · obtain ⟨g, hg, heq⟩ := hrest.position (i := i) (by omega)
        have hbelow := hok.below g hg
        rw [hlast, hok.1, heq]
        omega
      · exact ih hrest (by omega)

theorem FramesInv.esp0_le (hinv : FramesInv p m) : ∀ f ∈ m.frames, m.esp0 ≤ f.esp := by
  intro f hf
  have hok := hinv.ok
  have htop := hinv.top
  cases hframes : m.frames with
  | nil => simp [hframes] at hf
  | cons g outer =>
      rw [hframes] at hok htop hf
      have hg := htop g (by simp)
      rcases List.mem_cons.mp hf with rfl | hf
      · exact hg
      · exact hg.trans (hok.below f hf).le

/-- In every run in which the kernel is not made to write over itself the depth is the number of
running programs and at most 8, the recorded positions decrease, an exit is never without a frame
to return to and resumes the call that has started the exiting program, and traps from ring 3
start below the data of every live frame. -/
theorem execStack_sound (p : Platform) (depthAddr : UInt32)
    (hout : depthAddr.toNat + 4 ≤ userBase) (k : Kernel) (savedProgram : Nat → UInt8)
    (labels : List (ProgramOp × Event)) (t : Tracked)
    (hrun : Run (trackedIntact p depthAddr) (Tracked.boot k savedProgram) labels t) :
    launches labels = exits labels + t.machine.execDepth ∧ t.machine.execDepth ≤ maxExecDepth ∧
      (∀ i j, i < j → j < t.machine.execDepth →
        t.machine.execStack j < t.machine.execStack i) ∧
      (t.running ≠ none → ∃ event t', trackedStep p depthAddr t (.exit, event) t') ∧
      (∀ event t', trackedStep p depthAddr t (.exit, event) t' →
        ∃ call, (t.resumed t'.machine).head? = some call ∧ t.running = some call.program ∧
          t'.running = call.caller ∧ t.calls = call :: t'.calls ∧
          (event = .finished ↔ call.caller = none)) ∧
      ∀ f ∈ t.machine.frames, t.machine.esp0 ≤ f.esp := by
  have hinv := TrackedInv.run hout hrun
  refine ⟨launches_eq hout hrun, hinv.frames.depth_le, ?_, ?_, ?_, hinv.frames.esp0_le⟩
  · intro i j hij hj
    rw [hinv.frames.depth] at hj
    exact hinv.frames.ok.decreasing hij hj
  · intro hrunning
    have hcalls : t.calls ≠ [] := by
      intro h
      rw [hinv.running, h] at hrunning
      exact hrunning rfl
    have hframes : t.machine.frames ≠ [] := by
      intro h
      have hlen := hinv.calls
      rw [h, List.length_nil, List.length_eq_zero_iff] at hlen
      exact hcalls hlen
    obtain ⟨frame, outer, houter⟩ := List.exists_cons_of_ne_nil hframes
    have hexit : ∃ event m', t.machine.exit = some (event, m') := by
      rw [hinv.frames.exit_eq houter]
      cases hwho : frame.caller with
      | command => exact ⟨_, _, rfl⟩
      | syscall call => exact ⟨_, _, rfl⟩
    obtain ⟨event, m', hexit⟩ := hexit
    have hstep : t.machine.step p .exit = some (event, m') := by
      rw [Machine.step, if_pos hframes, hexit]
    refine ⟨event, t.follow event m', ?_⟩
    have hmachine : (t.follow event m').machine = m' := by
      unfold Tracked.follow
      split
      · rfl
      · split <;> rfl
    have hintact : KernelIntact p t.machine .exit := trivial
    apply (hintact.trackedStep_iff hout hinv.frames.depth_le).mpr
    rw [machineStep, hmachine]
    exact ⟨hstep, rfl⟩
  · intro event t' hstep
    exact hinv.exit_resumes hout hstep

/-- A program started by the shell starts a second one: its exit leads back to the first. -/
theorem execStack_sound_nested : ∃ labels t event t',
    Run (trackedIntact samplePlatform 0x50000) (Tracked.boot sampleBoot.kernel fun _ => 0) labels t ∧
      launches labels = 2 ∧ launches labels = exits labels + t.machine.execDepth ∧
      trackedStep samplePlatform 0x50000 t (.exit, event) t' ∧ t.running = some 1 ∧
      t'.running = some 0 := by
  have hpath : (sampleBoot.step samplePlatform sampleCommand).bind (fun r =>
      (r.2.step samplePlatform sampleExec).map fun s =>
        (r.1.starts, s.1.starts, r.2.execDepth,
          (elfStores (r.2.fetch samplePlatform 0x200100).2.mem samplePlatform.execBuffer).all
            (fun store => UserAddr store.1))) = some (true, true, 1, true) := by decide +kernel
  obtain ⟨⟨e₁, m₁⟩, h₁, hpath⟩ := Option.bind_eq_some_iff.mp hpath
  obtain ⟨⟨e₂, m₂⟩, h₂, hpath⟩ := Option.map_eq_some_iff.mp hpath
  simp only [Prod.mk.injEq] at hpath
  obtain ⟨hfirst, hsecond, hdepth, hstores⟩ := hpath
  have hout : (0x50000 : UInt32).toNat + 4 ≤ userBase := by decide
  have hintact : KernelIntact samplePlatform m₁ sampleExec := by
    intro k _ hfetch
    rw [hfetch] at hstores
    exact loadConfined_of_all hstores
  have hstep₁ : trackedIntact samplePlatform 0x50000 (Tracked.boot sampleBoot.kernel fun _ => 0)
      (sampleCommand, e₁) ⟨m₁, [⟨0, none⟩], some 0, 1⟩ :=
    ⟨sampleCommand_intact, (sampleCommand_intact.trackedStep_iff
      (t := Tracked.boot sampleBoot.kernel fun _ => 0) hout (Nat.zero_le _)).mpr
        ⟨h₁, by simp [Tracked.follow, hfirst, Tracked.boot]⟩⟩
  have hstep₂ : trackedIntact samplePlatform 0x50000 ⟨m₁, [⟨0, none⟩], some 0, 1⟩
      (sampleExec, e₂) ⟨m₂, [⟨1, some 0⟩, ⟨0, none⟩], some 1, 2⟩ :=
    ⟨hintact, (KernelIntact.trackedStep_iff (t := ⟨m₁, [⟨0, none⟩], some 0, 1⟩) hintact hout
      (by rw [hdepth]; decide)).mpr ⟨h₂, by simp [Tracked.follow, hsecond]⟩⟩
  have hrun := Run.snoc (.snoc (.nil _) hstep₁) hstep₂
  obtain ⟨hcount, -, -, hexits, hresumes, -⟩ :=
    execStack_sound samplePlatform 0x50000 hout sampleBoot.kernel (fun _ => 0) _ _ hrun
  obtain ⟨event, t', hexit⟩ := hexits (by simp)
  obtain ⟨call, -, -, hnext, hcalls, -⟩ := hresumes event t' hexit
  rw [List.cons.injEq] at hcalls
  refine ⟨_, _, event, t', hrun, ?_, hcount, hexit, rfl, ?_⟩
  · simp [launches, hfirst, hsecond]
  · rw [hnext, ← hcalls.1]

/-- A disk whose file `A` has a segment of zeros at the address of `exec_depth`. -/
def overwritingDisk (lba : Nat) : Sector := fun i =>
  match lba with
  | 2 => if i = 28 then 116 else sampleDisk 2 i
  | 3 => (twoSegmentElf 0x200000 0x50000).getD i 0
  | _ => sampleDisk lba i

def overwritingPlatform : Platform :=
  { samplePlatform with dev := fun _ lba => some (overwritingDisk lba) }

/-- The program is started twice, and each time the loader clears `exec_depth`: two programs run
at depth 1. -/
theorem execStack_overwritten :
    ¬ ∀ (p : Platform) (depthAddr : UInt32), depthAddr.toNat + 4 ≤ userBase →
      ∀ (k : Kernel) (savedProgram : Nat → UInt8) (labels : List (ProgramOp × Event)) (t : Tracked),
        Run (trackedStep p depthAddr) (Tracked.boot k savedProgram) labels t →
          launches labels = exits labels + t.machine.execDepth := by
  intro hclaim
  have hpath : (Machine.step overwritingPlatform { sampleBoot with
      execDepth := (sampleBoot.depthAfter overwritingPlatform 0x50000 sampleCommand).toNat }
      sampleCommand).bind (fun r =>
        (Machine.step overwritingPlatform { r.2 with
          execDepth := (r.2.depthAfter overwritingPlatform 0x50000 sampleExec).toNat }
          sampleExec).map fun s =>
            (r.1.starts, s.1.starts,
              (sampleBoot.depthAfter overwritingPlatform 0x50000 sampleCommand).toNat,
              (r.2.depthAfter overwritingPlatform 0x50000 sampleExec).toNat, s.2.execDepth)) =
      some (true, true, 0, 0, 1) := by decide +kernel
  obtain ⟨⟨e₁, m₁⟩, h₁, hpath⟩ := Option.bind_eq_some_iff.mp hpath
  obtain ⟨⟨e₂, m₂⟩, h₂, hpath⟩ := Option.map_eq_some_iff.mp hpath
  simp only [Prod.mk.injEq] at hpath
  obtain ⟨hfirst, hsecond, hdepth₁, hdepth₂, hdepth⟩ := hpath
  have hstep₁ : trackedStep overwritingPlatform 0x50000 (Tracked.boot sampleBoot.kernel fun _ => 0)
      (sampleCommand, e₁) ⟨m₁, [⟨0, none⟩], some 0, 1⟩ :=
    ⟨Nat.lt_of_le_of_lt hdepth₁.le (by decide), h₁, by simp [Tracked.follow, hfirst, Tracked.boot]⟩
  have hstep₂ : trackedStep overwritingPlatform 0x50000 ⟨m₁, [⟨0, none⟩], some 0, 1⟩
      (sampleExec, e₂) ⟨m₂, [⟨1, some 0⟩, ⟨0, none⟩], some 1, 2⟩ :=
    ⟨Nat.lt_of_le_of_lt hdepth₂.le (by decide), h₂, by simp [Tracked.follow, hsecond]⟩
  have hcount := hclaim overwritingPlatform 0x50000 (by decide) sampleBoot.kernel (fun _ => 0) _ _
    (.snoc (.snoc (.nil _) hstep₁) hstep₂)
  cases e₁ <;> simp [Event.starts] at hfirst
  cases e₂ <;> simp [Event.starts] at hsecond
  simp [launches, exits, Event.starts, Event.ends, hdepth] at hcount

end Magnos
