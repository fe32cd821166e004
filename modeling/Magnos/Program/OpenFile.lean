import Magnos.Program.FileUse
import Magnos.Program.KernelStack

/-!
# The open file across an exec

A program that has a file open keeps it across its calls of `SYSCALL_EXEC` exactly as long as
these find no program.  Until then its run is a session of the driver, and the same without
the execs; the first exec that finds a program leaves a closed file behind.
-/

namespace Magnos

open Framework

variable {p : Platform} {disk : Nat → Sector} {m m' : Machine} {event : Event}

/-- How many programs deep below the first one the next label is. -/
def Event.depth (depth : Nat) : Event → Nat
  | .launched => depth + 1
  | .returned _ => depth - 1
  | _ => depth

/-- The labels of a program in a run that goes on `depth` programs below it. -/
def ownLabels : (depth : Nat) → List (ProgramOp × Event) → List (ProgramOp × Event)
  | _, [] => []
  | depth, l :: ls => (if depth = 0 then [l] else []) ++ ownLabels (l.2.depth depth) ls

/-- The driver calls of a run. -/
def fileCalls (p : Platform) (labels : List (ProgramOp × Event)) : List FileCall :=
  labels.filterMap fun l => l.1.fileCall p.clusters

/-- The calls of a program, less its execs, can be made from the same state, and its reads get
the same replies then. -/
def ReadsUndisturbed (step : Machine → ProgramOp × Event → Machine → Prop) (m : Machine)
    (labels : List (ProgramOp × Event)) : Prop :=
  ∃ labels' last, Run step m labels' last ∧
    labels'.map Prod.fst = ((ownLabels 0 labels).map Prod.fst).filter (fun op => !op.isExec) ∧
    labels'.filterMap readReply = (ownLabels 0 labels).filterMap readReply

/-- The reads of a program deliver consecutive bytes of the file open in `s`. -/
def ReadsInOrder (p : Platform) (disk : Nat → Sector) (s : Fat32)
    (labels : List (ProgramOp × Event)) : Prop :=
  ∀ cs, FileChain disk s.fs s.file.firstCluster.toNat s.file.size.toNat cs →
    1 ≤ s.fs.sectorsPerCluster.toNat → s.file.size.toNat < 2 ^ 31 →
    RequestsFit s.file.size.toNat 0 (requests (fileCalls p (ownLabels 0 labels))) →
    (ownLabels 0 labels).filterMap readReply =
      (expectedReads (fileBytes disk s.fs cs s.file.size.toNat) 0
        (requests (fileCalls p (ownLabels 0 labels)))).map ReadResult.reply

/-- The steps of runs in which every exec names no file. -/
def quietStep (disk : Nat → Sector) (p : Platform) : Machine → ProgramOp × Event → Machine → Prop :=
  guarded (fun m label => NoProgram disk p m label.1) (intactStep p)

theorem ownLabels_append (depth : Nat) (ls ls' : List (ProgramOp × Event)) :
    ownLabels depth ls ⊆ ownLabels depth (ls ++ ls') := by
  induction ls generalizing depth with
  | nil => simp [ownLabels]
  | cons l ls ih =>
      apply List.append_subset.mpr
      exact ⟨List.subset_append_left _ _,
        List.Subset.trans (ih _) (List.subset_append_right _ _)⟩

theorem ownLabels_subset (depth : Nat) (ls : List (ProgramOp × Event)) :
    ownLabels depth ls ⊆ ls := by
  induction ls generalizing depth with
  | nil => simp [ownLabels]
  | cons l ls ih =>
      apply List.append_subset.mpr
      refine ⟨?_, List.Subset.trans (ih _) (List.subset_cons_self _ _)⟩
      split <;> simp

theorem ownLabels_flat {ls : List (ProgramOp × Event)} (hflat : ∀ l ∈ ls, l.2.depth 0 = 0)
    (ls' : List (ProgramOp × Event)) : ownLabels 0 (ls ++ ls') = ls ++ ownLabels 0 ls' := by
  induction ls with
  | nil => rfl
  | cons l ls ih =>
      have hrest := ih fun k hk => hflat k (List.mem_cons_of_mem _ hk)
      rw [List.cons_append, ownLabels, hflat l List.mem_cons_self, hrest]
      rfl

/-- What a run of a program with an open file amounts to: a session of the driver. -/
structure FileSession (p : Platform) (m : Machine) (labels : List (ProgramOp × Event))
    (m' : Machine) : Prop where
  current : m'.kernel.currentFile = true
  frames : m'.frames = m.frames
  flat : ∀ l ∈ labels, l.2.depth 0 = 0
  state : (sessionEnd p.dev (fileCalls p labels) m.kernel.fat).SameFile m'.kernel.fat
  replies : labels.filterMap readReply =
    (session p.dev (fileCalls p labels) m.kernel.fat).map ReadResult.reply

private theorem filterMap_singleton {α β : Type} (f : α → Option β) (a : α) :
    [a].filterMap f = (f a).toList := by
  cases h : f a <;> simp [h]

theorem quietStep_session (hdev : p.dev.Serves disk) (hcurrent : m.kernel.currentFile = true)
    (hinit : m.kernel.fat.fs.initialized = true) {l : ProgramOp × Event}
    (hkeeps : l.1.keepsFile = true) (hstep : quietStep disk p m l m') : FileSession p m [l] m' := by
  obtain ⟨op, event⟩ := l
  have hcases := Machine.step_cases hstep.2.2
  cases op with
  | store addr byte =>
      obtain ⟨-, -, rfl, rfl⟩ := hcases
      exact ⟨hcurrent, rfl, by simp [Event.depth], .refl _, rfl⟩
  | file call =>
      obtain ⟨-, ret, hret, rfl, rfl⟩ := hcases
      obtain ⟨hcurrent', hfat, hreply⟩ := serve_session hcurrent hkeeps hret
      refine ⟨hcurrent', rfl, by simp [Event.depth], ?_, ?_⟩
      · rw [fileCalls, filterMap_singleton]
        exact ⟨congrArg Fat32.fs hfat, congrArg Fat32.file hfat⟩
      · rw [fileCalls, filterMap_singleton, filterMap_singleton]
        exact hreply
  | exec cmd sizes =>
      obtain ⟨⟨code, rfl⟩, hframes, hcurrent', hsame⟩ :=
        (Machine.exec_file hdev hinit hcases.2).1 hstep.1
      exact ⟨hcurrent'.trans hcurrent, hframes, by simp [Event.depth], hsame, rfl⟩
  | exit => simp [ProgramOp.keepsFile] at hkeeps
  | command line used => simp [ProgramOp.keepsFile] at hkeeps

theorem FileSession.append (hdev : p.dev.Serves disk) {m₁ : Machine}
    {labels labels' : List (ProgramOp × Event)} (hfirst : FileSession p m₁ labels m)
    (hlast : FileSession p m labels' m') : FileSession p m₁ (labels ++ labels') m' := by
  have hcalls : fileCalls p (labels ++ labels') = fileCalls p labels ++ fileCalls p labels' :=
    List.filterMap_append
  obtain ⟨hreads, hend⟩ := session_append p.dev (fileCalls p labels) (fileCalls p labels')
    m₁.kernel.fat
  obtain ⟨hreads', hend'⟩ := session_congr hdev (fileCalls p labels') hfirst.state
  refine ⟨hlast.current, hlast.frames.trans hfirst.frames, ?_, ?_, ?_⟩
  · intro l hl
    rcases List.mem_append.mp hl with hl | hl
    · exact hfirst.flat l hl
    · exact hlast.flat l hl
  · rw [hcalls, hend]
    exact hend'.trans hlast.state
  · rw [hcalls, hreads, List.filterMap_append, List.map_append, hfirst.replies, hlast.replies,
      hreads']

/-- A program whose own calls keep the file open, and whose execs find no program, runs a
session of the driver. -/
theorem quietRun_session (hdev : p.dev.Serves disk) {m₁ : Machine}
    (hcurrent : m₁.kernel.currentFile = true) (hinit : m₁.kernel.fat.fs.initialized = true)
    {labels : List (ProgramOp × Event)} (hrun : Run (quietStep disk p) m₁ labels m)
    (hkeeps : ∀ l ∈ ownLabels 0 labels, l.1.keepsFile = true) :
    FileSession p m₁ labels m := by
  induction hrun with
  | nil => exact ⟨hcurrent, rfl, by simp, .refl _, rfl⟩
  | snoc hbefore hlast ih =>
      rename_i t _ ls l
      have hsession := ih fun k hk => hkeeps k (ownLabels_append 0 ls [l] hk)
      have hfs : t.kernel.fat.fs = m₁.kernel.fat.fs := hsession.state.fs.trans (sessionEnd_fs _ _)
      have hown : l ∈ ownLabels 0 (ls ++ [l]) := by
        rw [ownLabels_flat hsession.flat]
        exact List.mem_append_right _ List.mem_cons_self
      have hstep := quietStep_session hdev hsession.current (by rw [hfs]; exact hinit)
        (hkeeps l hown) hlast
      exact hsession.append hdev hstep

theorem fileCalls_of_ops {labels labels' : List (ProgramOp × Event)}
    (hops : labels'.map Prod.fst = (labels.map Prod.fst).filter fun op => !op.isExec) :
    fileCalls p labels' = fileCalls p labels := by
  have hmap : ∀ ls : List (ProgramOp × Event),
      fileCalls p ls = (ls.map Prod.fst).filterMap (ProgramOp.fileCall p.clusters) := fun ls => by
    rw [fileCalls, List.filterMap_map]
    rfl
  rw [hmap, hmap, hops, List.filterMap_filter]
  congr 1
  funext op
  cases op <;> rfl

theorem quietStep_of_same (hdev : p.dev.Serves disk) {t t' : Machine}
    (hframes : t'.frames = t.frames) (hcurrent : t.kernel.currentFile = true)
    (hcurrent' : t'.kernel.currentFile = true) (hsame : t.kernel.fat.SameFile t'.kernel.fat)
    {op : ProgramOp} (hkeeps : op.keepsFile = true) (hexec : op.isExec = false)
    (hstep : quietStep disk p t (op, event) m) :
    ∃ event' m', quietStep disk p t' (op, event') m' := by
  have hcases := Machine.step_cases hstep.2.2
  have hintact := hstep.2.1
  cases op with
  | store addr byte =>
      obtain ⟨hrunning, haddr, -, -⟩ := hcases
      have hok : t'.frames ≠ [] ∧ UserAddr addr := ⟨by rw [hframes]; exact hrunning, haddr⟩
      exact ⟨.stored, _, trivial, trivial, if_pos hok⟩
  | file call =>
      obtain ⟨hrunning, ret, hret, -, -⟩ := hcases
      obtain ⟨ret', hret'⟩ := serve_returns hdev hsame hcurrent hcurrent' hkeeps hret
      have hhandle : t'.kernel.HandleInFile := by
        rw [Kernel.HandleInFile, hsame.file]
        exact hintact.2
      rw [← hframes] at hrunning
      exact ⟨_, _, trivial, ⟨hintact.1, hhandle⟩, Machine.step_file hrunning hret'⟩
  | exec cmd sizes => simp [ProgramOp.isExec] at hexec
  | exit => simp [ProgramOp.keepsFile] at hkeeps
  | command line used => simp [ProgramOp.keepsFile] at hkeeps

theorem quietRun_without_exec (hdev : p.dev.Serves disk) {m₁ : Machine}
    (hcurrent : m₁.kernel.currentFile = true) (hinit : m₁.kernel.fat.fs.initialized = true)
    {labels : List (ProgramOp × Event)} (hrun : Run (quietStep disk p) m₁ labels m)
    (hkeeps : ∀ l ∈ labels, l.1.keepsFile = true) :
    ∃ labels' m', Run (quietStep disk p) m₁ labels' m' ∧ FileSession p m₁ labels' m' ∧
      labels'.map Prod.fst = (labels.map Prod.fst).filter fun op => !op.isExec := by
  induction hrun with
  | nil => exact ⟨[], m₁, .nil _, ⟨hcurrent, rfl, by simp, .refl _, rfl⟩, rfl⟩
  | snoc hbefore hlast ih =>
      rename_i t u ls l
      obtain ⟨op, event⟩ := l
      have hkeeps' : ∀ k ∈ ls, k.1.keepsFile = true := fun k hk =>
        hkeeps k (List.mem_append_left _ hk)
      obtain ⟨labels', t', hrun', hsession', hops⟩ := ih hkeeps'
      have hsession := quietRun_session hdev hcurrent hinit hbefore fun k hk =>
        hkeeps' k (ownLabels_subset 0 ls hk)
      cases hexec : op.isExec with
      | true => exact ⟨labels', t', hrun', hsession', by simp [hops, hexec]⟩
      | false =>
          have hop : op.keepsFile = true := hkeeps (op, event) (by simp)
          have hsame : t.kernel.fat.SameFile t'.kernel.fat := by
            have hstate := hsession'.state
            rw [fileCalls_of_ops hops] at hstate
            exact ⟨hstate.fs.trans hsession.state.fs.symm,
              hstate.file.trans hsession.state.file.symm⟩
          obtain ⟨event', u', hstep'⟩ := quietStep_of_same hdev
            (hsession'.frames.trans hsession.frames.symm) hsession.current hsession'.current hsame
            hop hexec hlast
          have hfs : t'.kernel.fat.fs = m₁.kernel.fat.fs :=
            hsession'.state.fs.trans (sessionEnd_fs _ _)
          have hlast' := quietStep_session hdev hsession'.current (by rw [hfs]; exact hinit) hop
            hstep'
          exact ⟨_, u', .snoc hrun' hstep', hsession'.append hdev hlast', by simp [hops, hexec]⟩

theorem run_closed {m₁ : Machine} (hclosed : m₁.kernel.fat.file.valid = false)
    {labels : List (ProgramOp × Event)} (hrun : Run (intactStep p) m₁ labels m)
    (hopen : ∀ l ∈ labels, ∀ filename, l.1 ≠ .file (.fileOpen filename)) :
    m.kernel.fat.file.valid = false ∧
      ∀ reply ∈ labels.filterMap readReply, reply = (some (-1), []) := by
  induction hrun with
  | nil => exact ⟨hclosed, by simp⟩
  | snoc hbefore hlast ih =>
      obtain ⟨hclosed', hreplies⟩ := ih fun l hl => hopen l (List.mem_append_left _ hl)
      obtain ⟨hclosed'', hreply⟩ := Machine.step_closed hclosed'
        (hopen _ (List.mem_append_right _ List.mem_cons_self)) hlast.2
      refine ⟨hclosed'', ?_⟩
      intro reply hmem
      rw [List.filterMap_append, filterMap_singleton] at hmem
      rcases List.mem_append.mp hmem with hmem | hmem
      · exact hreplies reply hmem
      · exact hreply reply (Option.mem_toList.mp hmem)

/-- A program opens a file and then makes calls that keep it open.  As long as its execs name
no file of the root directory, its reads deliver the bytes of the file in order and get the
replies they would get without the execs.  After the first exec that does name one, every
read fails until the next open. -/
theorem openFile_reads (p : Platform) (disk : Nat → Sector) (hdev : p.dev.Serves disk)
    (m₀ m₁ : Machine) (filename : UInt32) (stores : List (UInt32 × UInt8))
    (hopen : machineStep p m₀ (.file (.fileOpen filename), .served 0 stores) m₁) :
    (∀ labels m, Run (quietStep disk p) m₁ labels m →
      (∀ l ∈ ownLabels 0 labels, l.1.keepsFile = true) →
        ReadsUndisturbed (intactStep p) m₁ labels ∧ ReadsInOrder p disk m₁.kernel.fat labels) ∧
      ∀ before m exec m' after last, Run (quietStep disk p) m₁ before m →
        (∀ l ∈ ownLabels 0 before, l.1.keepsFile = true) →
        intactStep p m exec m' → ¬ NoProgram disk p m exec.1 → Run (intactStep p) m' after last →
        (∀ l ∈ after, ∀ filename, l.1 ≠ .file (.fileOpen filename)) →
          ∀ reply ∈ after.filterMap readReply, reply = (some (-1), []) := by
  obtain ⟨-, ret, hret, hevent, rfl⟩ := Machine.step_cases hopen
  simp only [Event.served.injEq] at hevent
  obtain ⟨hcurrent, hopened⟩ := sysFileOpen_opened (hret.trans (congrArg some hevent.1.symm))
  obtain ⟨hfs, hinit, -⟩ := fat32Open_opened hopened
  rw [← hfs] at hinit
  refine ⟨?_, ?_⟩
  · intro labels m hrun hkeeps
    have hsession := quietRun_session hdev hcurrent hinit hrun hkeeps
    have hown : ownLabels 0 labels = labels := by
      have hflat := ownLabels_flat hsession.flat []
      rwa [List.append_nil, ownLabels, List.append_nil] at hflat
    rw [hown] at hkeeps
    obtain ⟨labels', last, hrun', hsession', hops⟩ :=
      quietRun_without_exec hdev hcurrent hinit hrun hkeeps
    rw [ReadsUndisturbed, ReadsInOrder, hown]
    refine ⟨⟨labels', last, hrun'.mono fun _ _ _ hstep => hstep.2, hops, ?_⟩, ?_⟩
    · rw [hsession'.replies, hsession.replies, fileCalls_of_ops hops]
    · intro cs hchain hspc hsize hfit
      rw [hsession.replies]
      exact congrArg (List.map ReadResult.reply)
        (session_opened hdev hopened hchain hspc hsize _ hfit)
  · intro before m exec m' after last hrun hkeeps hexec hprogram hafter hnoOpen
    have hsession := quietRun_session hdev hcurrent hinit hrun hkeeps
    have hfs' := hsession.state.fs.trans (sessionEnd_fs _ _)
    obtain ⟨op, event⟩ := exec
    cases op with
    | exec cmd sizes =>
        have hclosed := (Machine.exec_file hdev (by rw [hfs']; exact hinit)
          (Machine.step_cases hexec.2).2).2 hprogram
        exact (run_closed hclosed hafter hnoOpen).2
    | _ => exact (hprogram trivial).elim

def sampleOpen : ProgramOp := .file (.fileOpen 0x200100)

def sampleRead : ProgramOp := .file (.fileRead 0x200200 1)

/-- An exec of the empty string, which names no file. -/
def sampleMissing : ProgramOp := .exec 0x200300 ⟨1, 1, 1, Nat.one_pos, Nat.one_pos, Nat.one_pos⟩

/-- The machine with its first program running. -/
def sampleRunning : Machine :=
  ((sampleBoot.step samplePlatform sampleCommand).map Prod.snd).getD sampleBoot

def sampleOpened : Machine :=
  { sampleRunning with
    kernel := (sampleRunning.kernel.serve samplePlatform.dev samplePlatform.clusters
      (.fileOpen 0x200100)).kernel }

def sampleLooked : Machine :=
  { sampleOpened with kernel := (sampleOpened.fetch samplePlatform 0x200300).2 }

theorem sampleRunning_frames : sampleRunning.frames ≠ [] := by
  have hframes : sampleRunning.frames.length = 1 := by decide +kernel
  intro h
  simp [h] at hframes

theorem sampleOpen_step : machineStep samplePlatform sampleRunning (sampleOpen, .served 0 [])
    sampleOpened := by
  have hserved : (sampleRunning.kernel.serve samplePlatform.dev samplePlatform.clusters
      (.fileOpen 0x200100)).ret = some 0 ∧ (sampleRunning.kernel.serve samplePlatform.dev
        samplePlatform.clusters (.fileOpen 0x200100)).stores = [] := by decide +kernel
  have hstep := Machine.step_file (p := samplePlatform) sampleRunning_frames hserved.1
  rw [hserved.2] at hstep
  exact hstep

theorem sampleMissing_step : quietStep programDisk samplePlatform sampleOpened
    (sampleMissing, .execFailed (-1)) sampleLooked := by
  have hfetch : (sampleOpened.fetch samplePlatform 0x200300).1 = .failed (-1) := by decide +kernel
  have hlookup : lookupSlot (reachedSlots programDisk sampleOpened.kernel.fat.fs
      samplePlatform.clusters sampleOpened.kernel.fat.fs.rootDirCluster.toNat)
      (execName sampleOpened 0x200300) = none := by decide +kernel
  refine ⟨fun _ => hlookup, ?_, ?_⟩
  · intro k _ himage
    rw [himage] at hfetch
    cases hfetch
  · exact Machine.exec_notFound sampleRunning_frames (by decide) hfetch

theorem sampleRead_step : ∃ stores m, quietStep programDisk samplePlatform sampleLooked
    (sampleRead, .served 1 stores) m := by
  have hret : (sampleLooked.kernel.serve samplePlatform.dev samplePlatform.clusters
      (.fileRead 0x200200 1)).ret = some 1 := by decide +kernel
  have hhandle : sampleLooked.kernel.fat.file.position.toNat ≤
      sampleLooked.kernel.fat.file.size.toNat := by decide +kernel
  exact ⟨_, _, trivial, ⟨.inr (.inr (by decide)), hhandle⟩,
    Machine.step_file (m := sampleLooked) sampleRunning_frames hret⟩

theorem openFile_reads_sample :
    ∃ stores m, Run (quietStep programDisk samplePlatform) sampleOpened
        [(sampleMissing, .execFailed (-1)), (sampleRead, .served 1 stores)] m ∧
      ReadsUndisturbed (intactStep samplePlatform) sampleOpened
        [(sampleMissing, .execFailed (-1)), (sampleRead, .served 1 stores)] := by
  obtain ⟨stores, m, hread⟩ := sampleRead_step
  have hrun := Run.snoc (.snoc (.nil _) sampleMissing_step) hread
  have hkeeps : ∀ l ∈ ownLabels 0 [(sampleMissing, Event.execFailed (-1)),
      (sampleRead, .served 1 stores)], l.1.keepsFile = true := by
    intro l hl
    rcases List.mem_cons.mp (ownLabels_subset _ _ hl) with rfl | hl
    · rfl
    · rw [List.mem_singleton.mp hl]
      rfl
  exact ⟨stores, m, hrun, ((openFile_reads samplePlatform programDisk (fun _ _ => rfl)
    sampleRunning sampleOpened 0x200100 [] sampleOpen_step).1 _ m hrun hkeeps).1⟩

/-- A program opens a file, runs another program that exits at once, and cannot read the
file any more. -/
theorem openFile_lost_by_exec :
    ¬ ∀ (p : Platform) (disk : Nat → Sector) (k : Kernel) (savedProgram : Nat → UInt8)
      (boot labels : List (ProgramOp × Event)) (m₀ m₁ m : Machine) (filename : UInt32)
      (stores : List (UInt32 × UInt8)), p.dev.Serves disk →
        Run (machineStep p) (Machine.boot k savedProgram) boot m₀ →
        machineStep p m₀ (.file (.fileOpen filename), .served 0 stores) m₁ →
        Run (machineStep p) m₁ labels m → (∀ l ∈ ownLabels 0 labels, l.1.keepsFile = true) →
        ReadsUndisturbed (machineStep p) m₁ labels := by
  intro hclaim
  have hboot : Run (machineStep samplePlatform) sampleBoot [(sampleCommand, .launched)]
      sampleRunning := by
    obtain ⟨m, hlaunch, -⟩ := sampleCommand_launches
    have heq : sampleRunning = m := by rw [sampleRunning, hlaunch]; rfl
    rw [heq]
    exact .snoc (.nil _) hlaunch
  have hpath : (sampleOpened.runOps samplePlatform [sampleExec, .exit, sampleRead]).map (fun r =>
      ((ownLabels 0 r.1).all (·.1.keepsFile), (ownLabels 0 r.1).map Prod.fst,
        (ownLabels 0 r.1).filterMap readReply)) =
      some (true, [sampleExec, sampleRead], [(some (-1), [])]) := by decide +kernel
  have hplain : (sampleOpened.runOps samplePlatform [sampleRead]).map (fun r =>
      r.1.filterMap readReply) = some [(some 1, [0x7F])] := by decide +kernel
  obtain ⟨⟨labels, m⟩, hops, heq⟩ := Option.map_eq_some_iff.mp hpath
  simp only [Prod.mk.injEq] at heq
  obtain ⟨hkeeps, hown, hreplies⟩ := heq
  obtain ⟨labels', last, hrun', hops', hreplies'⟩ := hclaim samplePlatform programDisk _ _ _ labels _
    _ m 0x200100 [] (fun _ _ => rfl) hboot sampleOpen_step (Machine.runOps_run hops)
    (List.all_eq_true.mp hkeeps)
  have hwithout := Machine.runOps_of_run hrun'
  rw [hops', hown] at hwithout
  have hread : [sampleExec, sampleRead].filter (fun op => !op.isExec) = [sampleRead] := rfl
  rw [hread] at hwithout
  rw [hwithout, Option.map_some, hreplies', hreplies] at hplain
  exact absurd hplain (by decide)

end Magnos
