import Magnos.Program.KernelStack

/-!
# The image that comes back after an exec

`SYSCALL_EXEC` keeps the caller's memory in one static buffer.  A second call from a program
that was itself started by `SYSCALL_EXEC` overwrites the image of the first caller, which gets
its own bytes back exactly as long as such nested calls save what is saved already.
-/

namespace Magnos

open Framework

variable {p : Platform} {m m' : Machine} {event : Event}

/-- Two memories that agree on the user region. -/
def SameUser (mem mem' : Memory) : Prop := ∀ a, UserAddr a → mem' a = mem a

/-- `saved_program` holds the user region of a memory. -/
def HoldsImage (saved : Nat → UInt8) (mem : Memory) : Prop :=
  ∀ a, UserAddr a → saved (a.toNat - userBase) = mem a

theorem SameUser.trans {mem mem' mem'' : Memory} (h : SameUser mem mem') (h' : SameUser mem' mem'') :
    SameUser mem mem'' := fun a ha => (h' a ha).trans (h a ha)

theorem userImage_holds (mem : Memory) : HoldsImage (userImage mem) mem := by
  intro a ha
  have haddr : userBase + (a.toNat - userBase) = a.toNat := Nat.add_sub_cancel' ha.1
  rw [userImage, haddr, UInt32.ofNat_toNat]

theorem HoldsImage.restore {saved : Nat → UInt8} {mem : Memory} (hsaved : HoldsImage saved mem)
    (mem' : Memory) : SameUser mem (restoreImage saved mem') := by
  intro a ha
  rw [restoreImage, if_pos ha]
  exact hsaved a ha

theorem storesAt_below_user {buffer : UInt32} (hbuffer : buffer.toNat + 65536 ≤ userBase)
    {bytes : List UInt8} (hlen : bytes.length ≤ 65536) (mem : Memory) :
    SameUser mem (mem.storeAll (storesAt buffer bytes)) := by
  intro a ha
  apply Memory.storeAll_of_not_mem
  intro store hs heq
  obtain ⟨i, hi, rfl⟩ := mem_storesAt.mp hs
  have hlow := ha.1
  rw [← heq] at hlow
  unfold userBase at *
  rw [toNat_add_ofNat (by omega)] at hlow
  omega

theorem fetchProgram_user {buffer : UInt32} (hbuffer : buffer.toNat + 65536 ≤ userBase)
    (dev : Device) (clusters : Nat) (refuseEmpty : Bool) (k : Kernel) (cmdline : CString) :
    SameUser k.mem (fetchProgram dev clusters buffer refuseEmpty k cmdline).2.mem := by
  unfold fetchProgram
  dsimp only
  split
  · exact fun _ _ => rfl
  · exact fun _ _ => rfl
  · next fat hopen =>
      obtain ⟨-, -, e, hfile⟩ := fat32Open_opened hopen
      split
      · exact fun _ _ => rfl
      · next hsize =>
          have hin : fat.file.position.toNat ≤ fat.file.size.toNat := by
            rw [hfile]
            exact Nat.zero_le _
          have hlen : (fat32Read dev fat fat.file.size.toNat).1.bytes.length ≤ 65536 := by
            have h := (fat32Read_bytes_length dev fat fat.file.size.toNat).trans
              (bytesToRead_le hin fat.file.size.toNat_lt)
            omega
          have hstored := storesAt_below_user hbuffer hlen k.mem
          unfold readProgram
          dsimp only
          split
          · exact hstored
          · split
            · exact hstored
            · split <;> exact hstored

theorem Machine.fetch_user (m : Machine) (cmd : UInt32) :
    SameUser m.kernel.mem (m.fetch p cmd).2.mem :=
  fetchProgram_user p.execBuffer_le _ _ _ _ _

/-- A call that gets as far as saving its caller's image is made by a program that the shell
has started, or it saves the image that is saved already. -/
def ImageSafe (p : Platform) (m : Machine) : ProgramOp → Prop
  | .exec cmd _ => ∀ k, cmd ≠ 0 → m.fetch p cmd = (.image, k) →
      m.execDepth ≤ 1 ∨ HoldsImage m.savedProgram m.kernel.mem
  | _ => True

/-- The steps of runs in which no caller's image is overwritten. -/
def imageStep (p : Platform) : Machine → ProgramOp × Event → Machine → Prop :=
  guarded (fun m label => ImageSafe p m label.1) (intactStep p)

/-- `saved_program` holds the image of every program that waits in `SYSCALL_EXEC`. -/
structure ImageInv (p : Platform) (m : Machine) : Prop where
  frames : FramesInv p m
  holds : ∀ f ∈ m.frames, ∀ call, f.caller = .syscall call → HoldsImage m.savedProgram call.mem

namespace ImageInv

theorem saved (hinv : ImageInv p m) {cmd : UInt32} {k : Kernel} (hfetch : m.fetch p cmd = (.image, k))
    (hsafe : m.execDepth ≤ 1 ∨ HoldsImage m.savedProgram m.kernel.mem) :
    HoldsImage (m.saved k).savedProgram m.kernel.mem ∧
      ∀ f ∈ m.frames, ∀ call, f.caller = .syscall call →
        HoldsImage (m.saved k).savedProgram call.mem := by
  have huser : SameUser m.kernel.mem k.mem := by
    have h := m.fetch_user (p := p) cmd
    rwa [hfetch] at h
  have hnew : HoldsImage (m.saved k).savedProgram m.kernel.mem :=
    fun a ha => (userImage_holds k.mem a ha).trans (huser a ha)
  refine ⟨hnew, ?_⟩
  intro f hf call hcaller
  rcases hsafe with hshell | hheld
  · have hok := hinv.frames.ok
    have hdepth := hinv.frames.depth
    cases hframes : m.frames with
    | nil => simp [hframes] at hf
    | cons g outer =>
        rw [hframes, List.length_cons] at hdepth
        obtain rfl : outer = [] := List.length_eq_zero_iff.mp (by omega)
        rw [hframes] at hok hf
        obtain rfl := List.mem_singleton.mp hf
        rw [hok.2.2.1.mpr rfl] at hcaller
        simp at hcaller
  · have hold := hinv.holds f hf call hcaller
    exact fun a ha => (hnew a ha).trans ((hheld a ha).symm.trans (hold a ha))

theorem step (hinv : ImageInv p m) {op : ProgramOp} (hsafe : ImageSafe p m op)
    (hstep : m.step p op = some (event, m')) : ImageInv p m' := by
  refine ⟨hinv.frames.step hstep, ?_⟩
  have hcases := Machine.step_cases hstep
  cases op with
  | store addr byte =>
      obtain ⟨-, -, -, rfl⟩ := hcases
      exact hinv.holds
  | file c =>
      obtain ⟨-, ret, -, -, rfl⟩ := hcases
      exact hinv.holds
  | exec cmd sizes =>
      rcases Machine.exec_cases hcases.2 with ⟨code, k, -, rfl, -⟩ | ⟨k, hcmd, hfetch, hcase⟩
      · exact hinv.holds
      · obtain ⟨hnew, hold⟩ := hinv.saved hfetch (hsafe k hcmd hfetch)
        rcases hcase with ⟨-, -, rfl⟩ | ⟨-, -, rfl⟩
        · exact hold
        · intro f hf call hcaller
          rcases List.mem_cons.mp hf with rfl | hf
          · obtain rfl := Caller.syscall.inj hcaller
            exact hnew
          · exact hold f hf call hcaller
  | exit =>
      obtain ⟨hrunning, hexit⟩ := hcases
      obtain ⟨frame, outer, hframes⟩ := List.exists_cons_of_ne_nil hrunning
      have houter : ∀ f ∈ outer, ∀ call, f.caller = .syscall call →
          HoldsImage m.savedProgram call.mem := fun f hf =>
        hinv.holds f (hframes ▸ List.mem_cons_of_mem _ hf)
      rw [hinv.frames.exit_eq hframes] at hexit
      split at hexit <;> rw [Option.some.injEq, Prod.mk.injEq] at hexit <;> rw [← hexit.2] <;>
        exact houter
  | command line used =>
      obtain ⟨hidle, hcommand⟩ := hcases
      rcases Machine.command_cases hcommand with ⟨k, -, rfl⟩ | ⟨k, -, -, rfl⟩
      · exact hinv.holds
      · intro f hf call hcaller
        have hframes : (Machine.load { m with kernel := k } p.binaryBuffer).frames = [] := hidle
        rw [Machine.enter, hframes] at hf
        obtain rfl := List.mem_singleton.mp hf
        simp at hcaller

theorem run {k : Kernel} {savedProgram : Nat → UInt8} {labels : List (ProgramOp × Event)}
    (hrun : Run (imageStep p) (Machine.boot k savedProgram) labels m) : ImageInv p m :=
  hrun.invariant (fun _ _ _ hinv hstep => hinv.step hstep.1 hstep.2.2)
    ⟨FramesInv.boot k savedProgram, fun f hf => by simp [Machine.boot] at hf⟩

theorem execReturn (hinv : ImageInv p m) {op : ProgramOp} {call : ExecCall}
    (hstep : m.step p op = some (event, m')) (hcall : event.execReturn m = some call) :
    SameUser call.mem m'.kernel.mem := by
  rcases hinv.frames.execReturn_cases hstep hcall with
    ⟨cmd, sizes, code, hevent, rfl, hexec⟩ | ⟨frame, outer, hframes, hcaller, -, rfl⟩
  · have huser := m.fetch_user (p := p) cmd
    rcases Machine.exec_cases hexec with ⟨_, k, -, rfl, hwhy⟩ | ⟨k, -, hfetch, hcase⟩
    · rcases hwhy with ⟨-, rfl⟩ | ⟨-, hfetch⟩
      · exact fun _ _ => rfl
      · rwa [hfetch] at huser
    · rw [hfetch] at huser
      rcases hcase with ⟨-, -, rfl⟩ | ⟨-, hlaunched, -⟩
      · exact huser.trans ((userImage_holds k.mem).restore _)
      · simp [hevent] at hlaunched
  · have hframe : frame ∈ m.frames := by
      rw [hframes]
      exact List.mem_cons_self
    exact (hinv.holds frame hframe call hcaller).restore _

end ImageInv

theorem FramesInv.exit_restores (hinv : FramesInv p m) {frame : LoaderFrame}
    {outer : List LoaderFrame} {call : ExecCall} (hframes : m.frames = frame :: outer)
    (hcaller : frame.caller = .syscall call) (mem : Memory)
    (hsaved : HoldsImage m.savedProgram mem) :
    ∃ m', machineStep p m (.exit, .returned call) m' ∧ m'.frames = outer ∧
      m'.savedProgram = m.savedProgram ∧ SameUser mem m'.kernel.mem := by
  refine ⟨(m.leave frame outer).restore, ?_, rfl, rfl, hsaved.restore _⟩
  rw [machineStep, Machine.step, if_pos (by rw [hframes]; simp), hinv.exit_eq hframes, hcaller]

theorem ImageInv.overwritten (hinv : ImageInv p m) {cmd : UInt32} {sizes : FrameSizes}
    (hnotSafe : ¬ ImageSafe p m (.exec cmd sizes)) :
    ∃ event exits m₁ m₂ call, Run (machineStep p) m ((.exec cmd sizes, event) :: exits) m₁ ∧
      (∀ label ∈ exits, label.1 = .exit) ∧ machineStep p m₁ (.exit, .returned call) m₂ ∧
      ¬ SameUser call.mem m₂.kernel.mem := by
  simp only [ImageSafe, not_forall, not_or] at hnotSafe
  obtain ⟨k, hcmd, hfetch, hnested, hother⟩ := hnotSafe
  have hdepth := hinv.frames.depth
  obtain ⟨frame, outer, hframes⟩ : ∃ frame outer, m.frames = frame :: outer := by
    apply List.exists_cons_of_ne_nil
    intro h
    rw [h, List.length_nil] at hdepth
    omega
  have hok := hinv.frames.ok
  rw [hframes] at hok
  rw [hframes, List.length_cons] at hdepth
  obtain ⟨call, hcaller⟩ : ∃ call, frame.caller = .syscall call := by
    cases hc : frame.caller with
    | command =>
        have hnil := hok.2.2.1.mp hc
        rw [hnil, List.length_nil] at hdepth
        omega
    | syscall call => exact ⟨call, rfl⟩
  have hheld := hinv.holds frame (by rw [hframes]; exact List.mem_cons_self) call hcaller
  have huser : SameUser m.kernel.mem k.mem := by
    have h := m.fetch_user (p := p) cmd
    rwa [hfetch] at h
  have hsaved : HoldsImage (m.saved k).savedProgram m.kernel.mem :=
    fun a ha => (userImage_holds k.mem a ha).trans (huser a ha)
  have hwrong : ∀ mem, SameUser m.kernel.mem mem → ¬ SameUser call.mem mem := by
    intro mem hmem hsame
    exact hother fun a ha => (hheld a ha).trans ((hsame a ha).symm.trans (hmem a ha))
  have hrunning : m.frames ≠ [] := by
    rw [hframes]
    simp
  rcases Machine.step_exec_image sizes hrunning hcmd hfetch with hexec | hexec
  · have hlaunched := hinv.frames.step hexec
    obtain ⟨m₁, hexit, hout, hkeep, -⟩ := hlaunched.exit_restores rfl rfl _ hsaved
    have hinv₁ := hlaunched.step hexit
    obtain ⟨m₂, hreturn, -, -, hback⟩ := hinv₁.exit_restores (hout.trans hframes) hcaller
      m.kernel.mem (by rw [hkeep]; exact hsaved)
    exact ⟨.launched, [(.exit, .returned ⟨m.kernel.mem, m.esp0⟩)], m₁, m₂, call,
      .cons hexec (.cons hexit (.nil _)), by simp, hreturn, hwrong _ hback⟩
  · obtain ⟨m₂, hreturn, -, -, hback⟩ := (hinv.frames.step hexec).exit_restores hframes hcaller
      _ hsaved
    exact ⟨.execFailed (-5), [], _, m₂, call, .cons hexec (.nil _), by simp, hreturn, hwrong _ hback⟩

/-- In every run in which nested calls save what is saved already, `SYSCALL_EXEC` gives its
caller the user region back as it was.  After such a run, any other nested call leads, by
exits alone, to a program that gets a different image back. -/
theorem execReturn_image_iff (p : Platform) (k : Kernel) (savedProgram : Nat → UInt8)
    (labels : List (ProgramOp × Event)) (m : Machine)
    (hrun : Run (imageStep p) (Machine.boot k savedProgram) labels m) :
    (∀ op event m' call, intactStep p m (op, event) m' → event.execReturn m = some call →
        SameUser call.mem m'.kernel.mem) ∧
      ∀ cmd sizes, ¬ ImageSafe p m (.exec cmd sizes) →
        ∃ event exits m₁ m₂ call, Run (machineStep p) m ((.exec cmd sizes, event) :: exits) m₁ ∧
          (∀ label ∈ exits, label.1 = .exit) ∧ machineStep p m₁ (.exit, .returned call) m₂ ∧
          ¬ SameUser call.mem m₂.kernel.mem := by
  have hinv := ImageInv.run hrun
  refine ⟨?_, fun cmd sizes hnotSafe => hinv.overwritten hnotSafe⟩
  intro op event m' call hstep hcall
  exact hinv.execReturn hstep.2 hcall

/-- The call that an exit has returned from. -/
def Event.returnedCall : Event → Option ExecCall
  | .returned call => some call
  | _ => none

theorem execReturn_image_sample :
    ∃ labels m m' call, Run (imageStep samplePlatform) sampleBoot labels m ∧
      machineStep samplePlatform m (.exit, .returned call) m' ∧
      SameUser call.mem m'.kernel.mem := by
  have hpath : (sampleBoot.step samplePlatform sampleCommand).bind (fun r =>
      (r.2.step samplePlatform sampleExec).bind fun s =>
        (s.2.step samplePlatform .exit).map fun t =>
          (t.1.returnedCall.isSome,
            (elfStores (r.2.fetch samplePlatform 0x200100).2.mem samplePlatform.execBuffer).all
              (fun store => UserAddr store.1), r.2.execDepth)) =
      some (true, true, 1) := by decide +kernel
  obtain ⟨⟨e₁, m₁⟩, h₁, hpath⟩ := Option.bind_eq_some_iff.mp hpath
  obtain ⟨⟨e₂, m₂⟩, h₂, hpath⟩ := Option.bind_eq_some_iff.mp hpath
  obtain ⟨⟨e₃, m₃⟩, h₃, hpath⟩ := Option.map_eq_some_iff.mp hpath
  rw [Prod.mk.injEq, Prod.mk.injEq] at hpath
  obtain ⟨hevent, hstores, hdepth⟩ := hpath
  cases e₃ with
  | returned call =>
      dsimp only at h₂ h₃ hstores hdepth
      have hrun : Run (imageStep samplePlatform) sampleBoot
          [(sampleCommand, e₁), (sampleExec, e₂)] m₂ := by
        refine .snoc (.snoc (.nil _) ⟨trivial, sampleCommand_intact, h₁⟩)
          ⟨fun _ _ _ => .inl hdepth.le, ?_, h₂⟩
        intro k _ hfetch
        rw [hfetch] at hstores
        exact loadConfined_of_all hstores
      exact ⟨_, m₂, m₃, call, hrun, h₃, (execReturn_image_iff samplePlatform sampleBoot.kernel
        (fun _ => 0) _ m₂ hrun).1 .exit _ m₃ call ⟨trivial, h₃⟩ rfl⟩
  | _ => simp [Event.returnedCall] at hevent

/-- The shell's program runs a second one, which changes a byte and runs a third; when both
have exited, the change is in the memory of the first. -/
theorem execReturn_foreign_image :
    ¬ ∀ (p : Platform) (k : Kernel) (savedProgram : Nat → UInt8)
      (labels : List (ProgramOp × Event)) (m m' : Machine) (op : ProgramOp) (event : Event)
      (call : ExecCall), Run (machineStep p) (Machine.boot k savedProgram) labels m →
        machineStep p m (op, event) m' → event.execReturn m = some call →
        SameUser call.mem m'.kernel.mem := by
  intro hclaim
  have hpath : (sampleBoot.runOps samplePlatform
      [sampleCommand, sampleExec, .store 0x200010 7, sampleExec, .exit]).bind (fun r =>
        (r.2.step samplePlatform .exit).bind fun e =>
          (e.1.execReturn r.2).map fun call => (call.mem 0x200010, e.2.kernel.mem 0x200010)) =
      some (0, 7) := by decide +kernel
  obtain ⟨labels, m, event, m', call, hrun, hstep, hcall, heq⟩ := Machine.exit_of_runOps
    (fun call m' => (call.mem 0x200010, m'.kernel.mem 0x200010)) hpath
  rw [Prod.mk.injEq] at heq
  have hsame := hclaim samplePlatform _ _ labels m m' .exit event call hrun hstep hcall 0x200010
    (by decide)
  rw [heq.1, heq.2] at hsame
  exact absurd hsame (by decide)

end Magnos
