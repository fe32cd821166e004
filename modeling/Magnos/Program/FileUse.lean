import Magnos.Fat32.Session
import Magnos.Program.Frames

/-!
# What the calls of a program do to the open file

`fat32_open` has one static `file`, which `current_file` points to and which `SYSCALL_EXEC`
opens and closes as well.  Reads, listings and argument calls are calls of the driver on it;
an exec that finds no program leaves it alone, and one that finds a program closes it.
-/

namespace Magnos

open Framework

variable {p : Platform} {disk : Nat → Sector} {m m' : Machine} {event : Event}

/-- What a program may do between opening a file and opening or closing the next. -/
def ProgramOp.keepsFile : ProgramOp → Bool
  | .store _ _ | .exec _ _ => true
  | .file call =>
      match call with
      | .fileRead _ _ | .listDir _ _ | .getArgs _ _ _ => true
      | .fileOpen _ | .fileClose => false
  | .exit | .command _ _ => false

def ProgramOp.isExec : ProgramOp → Bool
  | .exec _ _ => true
  | _ => false

/-- The driver call behind a file call of a program that has a file open. -/
def FileSyscall.fileCall (clusters : Nat) : FileSyscall → Option FileCall
  | .fileRead buffer size => if buffer = 0 then none else some (.read size)
  | .listDir buffer maxEntries =>
      if buffer = 0 ∨ maxEntries = 0 then none
      else some (.listDir clusters true (toInt32 maxEntries.toNat))
  | _ => none

def ProgramOp.fileCall (clusters : Nat) : ProgramOp → Option FileCall
  | .file call => call.fileCall clusters
  | _ => none

/-- A result of the driver as `SYSCALL_FILE_READ` passes it on. -/
def ReadResult.reply (r : ReadResult) : Option UInt32 × List UInt8 := (r.ret.map fileResult, r.bytes)

/-- What a read into a buffer returns and delivers. -/
def readReply : ProgramOp × Event → Option (Option UInt32 × List UInt8)
  | (.file (.fileRead buffer _), .served ret stores) =>
      if buffer = 0 then none else some (some ret, stores.map Prod.snd)
  | _ => none

/-- The name that `SYSCALL_EXEC` looks up in the root directory. -/
def execName (m : Machine) (cmd : UInt32) : List UInt8 :=
  fat32StringToName (programFile (commandLine m.kernel.mem cmd).program)

/-- An exec names no file of the root directory. -/
def NoProgram (disk : Nat → Sector) (p : Platform) (m : Machine) : ProgramOp → Prop
  | .exec cmd _ => cmd ≠ 0 → lookupSlot (reachedSlots disk m.kernel.fat.fs p.clusters
      m.kernel.fat.fs.rootDirCluster.toNat) (execName m cmd) = none
  | _ => True

section Driver

variable {dev : Device} {clusters : Nat} {k : Kernel}

theorem sysFileOpen_opened {filename : UInt32}
    (hret : (sysFileOpen dev clusters k filename).ret = some 0) :
    (sysFileOpen dev clusters k filename).kernel.currentFile = true ∧
      fat32Open dev clusters k.closeCurrent.fat (openName k.closeCurrent.mem filename) =
        (some true, (sysFileOpen dev clusters k filename).kernel.fat) := by
  unfold sysFileOpen at hret ⊢
  split at hret
  · exact absurd (Option.some.inj hret) (by decide)
  · next hptr =>
      rw [if_neg hptr]
      dsimp only at hret ⊢
      split at hret
      · simp at hret
      · exact absurd (Option.some.inj hret) (by decide)
      · next fat hopen =>
          rw [hopen]
          exact ⟨rfl, rfl⟩

theorem serve_session (hcurrent : k.currentFile = true) {call : FileSyscall} {ret : UInt32}
    (hkeeps : (ProgramOp.file call).keepsFile = true)
    (hret : (k.serve dev clusters call).ret = some ret) :
    (k.serve dev clusters call).kernel.currentFile = true ∧
      (k.serve dev clusters call).kernel.fat =
        sessionEnd dev (call.fileCall clusters).toList k.fat ∧
      (readReply (.file call, .served ret (k.serve dev clusters call).stores)).toList =
        (session dev (call.fileCall clusters).toList k.fat).map ReadResult.reply := by
  cases call with
  | fileOpen filename => simp [ProgramOp.keepsFile] at hkeeps
  | fileClose => simp [ProgramOp.keepsFile] at hkeeps
  | fileRead buffer size =>
      by_cases hbuffer : buffer = 0
      · simp [Kernel.serve, sysFileRead, hbuffer, Kernel.refuse, FileSyscall.fileCall, sessionEnd,
          session, readReply, hcurrent]
      · have hserve : k.serve dev clusters (.fileRead buffer size) =
            ⟨(fat32Read dev k.fat size.toNat).1.ret.map fileResult,
              storesAt buffer (fat32Read dev k.fat size.toNat).1.bytes,
              { k with
                fat := (fat32Read dev k.fat size.toNat).2
                mem := k.mem.storeAll (storesAt buffer (fat32Read dev k.fat size.toNat).1.bytes) }⟩ := by
          rw [Kernel.serve, sysFileRead, if_neg (by simp [hbuffer, hcurrent])]
        rw [hserve] at hret ⊢
        refine ⟨hcurrent, by simp [FileSyscall.fileCall, hbuffer, sessionEnd], ?_⟩
        simp only at hret
        simp [FileSyscall.fileCall, hbuffer, session, readReply, ReadResult.reply, hret,
          storesAt_bytes]
  | listDir buffer maxEntries =>
      by_cases hrefused : buffer = 0 ∨ maxEntries = 0
      · simp [Kernel.serve, sysListDir, hrefused, Kernel.refuse, FileSyscall.fileCall, sessionEnd,
          session, readReply, hcurrent]
      · simp [Kernel.serve, sysListDir, hrefused, FileSyscall.fileCall, sessionEnd, session,
          readReply, hcurrent]
  | getArgs index buffer size =>
      refine ⟨?_, ?_, rfl⟩ <;> simp only [Kernel.serve, sysGetArgs] <;> split
      · exact hcurrent
      · split
        · exact hcurrent
        · split <;> exact hcurrent
      · rfl
      · split
        · rfl
        · split <;> rfl

/-- Whether such a call returns depends on the volume and the open file alone. -/
theorem serve_returns (hdev : dev.Serves disk) {k' : Kernel} (hsame : k.fat.SameFile k'.fat)
    (hcurrent : k.currentFile = true) (hcurrent' : k'.currentFile = true) {call : FileSyscall}
    {ret : UInt32} (hkeeps : (ProgramOp.file call).keepsFile = true)
    (hret : (k.serve dev clusters call).ret = some ret) :
    ∃ ret', (k'.serve dev clusters call).ret = some ret' := by
  cases call with
  | fileOpen filename => simp [ProgramOp.keepsFile] at hkeeps
  | fileClose => simp [ProgramOp.keepsFile] at hkeeps
  | fileRead buffer size =>
      refine ⟨ret, ?_⟩
      simp only [Kernel.serve, sysFileRead, hcurrent, hcurrent'] at hret ⊢
      split at hret
      · next hbuffer =>
          rw [if_pos hbuffer]
          exact hret
      · next hbuffer =>
          rw [if_neg hbuffer, (fat32Read_congr hdev hsame size.toNat).1]
          exact hret
  | listDir buffer maxEntries =>
      refine ⟨ret, ?_⟩
      simp only [Kernel.serve, sysListDir] at hret ⊢
      split at hret
      · next hrefused =>
          rw [if_pos hrefused]
          exact hret
      · next hrefused =>
          rw [if_neg hrefused, fat32ListDir_congr hdev hsame]
          exact hret
  | getArgs index buffer size =>
      simp only [Kernel.serve, sysGetArgs]
      split
      · exact ⟨_, rfl⟩
      · split
        · exact ⟨_, rfl⟩
        · split <;> exact ⟨_, rfl⟩

end Driver

theorem readProgram_closes (dev : Device) (buffer : UInt32) (k : Kernel) :
    (readProgram dev buffer k).2.fat.file.valid = false := by
  unfold readProgram
  dsimp only
  split
  · rfl
  · split
    · rfl
    · split <;> rfl

theorem fetchProgram_file (dev : Device) (clusters : Nat) (buffer : UInt32) (refuseEmpty : Bool)
    (k : Kernel) (cmdline : CString) :
    match fat32Open dev clusters k.fat (programFile cmdline.program) with
    | (none, fat) => fetchProgram dev clusters buffer refuseEmpty k cmdline =
        (.hangs, { k with args := (parseCommandLine cmdline).2, fat := fat })
    | (some false, fat) => fetchProgram dev clusters buffer refuseEmpty k cmdline =
        (.failed (-1), { k with args := (parseCommandLine cmdline).2, fat := fat })
    | (some true, _) =>
        (fetchProgram dev clusters buffer refuseEmpty k cmdline).2.fat.file.valid = false := by
  unfold fetchProgram
  rw [show (parseCommandLine cmdline).1 = cmdline.program from rfl]
  cases hopen : fat32Open dev clusters k.fat (programFile cmdline.program) with
  | mk found fat =>
      cases found with
      | none => simp only [hopen]
      | some opened =>
          cases opened with
          | false => simp only [hopen]
          | true =>
              simp only [hopen]
              split
              · rfl
              · exact readProgram_closes _ _ _

theorem Machine.exec_kernel {cmd : UInt32} {sizes : FrameSizes}
    (hexec : m.exec p cmd sizes = some (event, m')) :
    m'.kernel.fat = if cmd = 0 then m.kernel.fat else (m.fetch p cmd).2.fat := by
  rcases Machine.exec_cases hexec with ⟨_, k, -, rfl, hwhy⟩ | ⟨k, hcmd, hfetch, hcase⟩
  · rcases hwhy with ⟨hzero, rfl⟩ | ⟨hcmd, hfailed⟩
    · rw [if_pos hzero]
    · rw [if_neg hcmd, hfailed]
  · rw [if_neg hcmd, hfetch]
    rcases hcase with ⟨-, -, rfl⟩ | ⟨-, -, rfl⟩ <;> rfl

theorem Machine.exec_notFound {cmd code : UInt32} {sizes : FrameSizes} (hrunning : m.frames ≠ [])
    (hcmd : cmd ≠ 0) (hfetch : (m.fetch p cmd).1 = .failed code) :
    m.step p (.exec cmd sizes) =
      some (.execFailed code, { m with kernel := (m.fetch p cmd).2 }) := by
  rw [Machine.step, if_pos hrunning, Machine.exec, if_neg hcmd]
  generalize m.fetch p cmd = fetched at hfetch ⊢
  obtain ⟨result, k⟩ := fetched
  subst hfetch
  rfl

theorem Machine.exec_file (hdev : p.dev.Serves disk) (hinit : m.kernel.fat.fs.initialized = true)
    {cmd : UInt32} {sizes : FrameSizes} (hexec : m.exec p cmd sizes = some (event, m')) :
    (NoProgram disk p m (.exec cmd sizes) → (∃ code, event = .execFailed code) ∧
        m'.frames = m.frames ∧ m'.kernel.currentFile = m.kernel.currentFile ∧
        m.kernel.fat.SameFile m'.kernel.fat) ∧
      (¬ NoProgram disk p m (.exec cmd sizes) → m'.kernel.fat.file.valid = false) := by
  obtain ⟨t, hsame, hopen⟩ := fat32Open_reached hdev p.clusters m.kernel.fat hinit _
    (commandLine m.kernel.mem cmd).programFile_noNul
  have hfile := fetchProgram_file p.dev p.clusters p.execBuffer false m.kernel
    (commandLine m.kernel.mem cmd)
  rw [← Machine.fetch] at hfile
  refine ⟨?_, ?_⟩
  · intro hno
    rcases Machine.exec_cases hexec with ⟨code, k, rfl, rfl, hwhy⟩ | ⟨k, hcmd, hfetch, -⟩
    · rcases hwhy with ⟨-, rfl⟩ | ⟨hcmd, hfailed⟩
      · exact ⟨⟨code, rfl⟩, rfl, rfl, .refl _⟩
      · have hlookup := hno hcmd
        rw [execName] at hlookup
        rw [hlookup] at hopen
        rcases hopen with hopen | ⟨hopen, -⟩
        · rw [hopen, hfailed] at hfile
          simp only [Prod.mk.injEq] at hfile
          rw [hfile.2]
          exact ⟨⟨code, rfl⟩, rfl, rfl, hsame⟩
        · rw [hopen, hfailed] at hfile
          simp at hfile
    · have hlookup := hno hcmd
      rw [execName] at hlookup
      rw [hlookup] at hopen
      rcases hopen with hopen | ⟨hopen, -⟩ <;>
        rw [hopen, hfetch] at hfile <;> simp at hfile
  · intro hprogram
    obtain ⟨hcmd, hlookup⟩ := Classical.not_imp.mp hprogram
    obtain ⟨e, he⟩ := Option.ne_none_iff_exists'.mp hlookup
    rw [execName] at he
    rw [he] at hopen
    simp only [hopen] at hfile
    rw [Machine.exec_kernel hexec, if_neg hcmd]
    exact hfile

section Closed

theorem fetchProgram_closed (dev : Device) (clusters : Nat) (buffer : UInt32) (refuseEmpty : Bool)
    {k : Kernel} (cmdline : CString) (hclosed : k.fat.file.valid = false) :
    (fetchProgram dev clusters buffer refuseEmpty k cmdline).2.fat.file.valid = false := by
  have hfile := fetchProgram_file dev clusters buffer refuseEmpty k cmdline
  split at hfile
  · next hopen =>
      rw [hfile, ← hclosed, ← (fat32Open_notOpened hopen (by simp)).file]
  · next hopen =>
      rw [hfile, ← hclosed, ← (fat32Open_notOpened hopen (by simp)).file]
  · exact hfile

theorem serve_closed (dev : Device) (clusters : Nat) {k : Kernel} {call : FileSyscall}
    (hclosed : k.fat.file.valid = false) (hopen : ∀ filename, call ≠ .fileOpen filename) :
    (k.serve dev clusters call).kernel.fat.file.valid = false ∧
      ∀ ret, (k.serve dev clusters call).ret = some ret →
        ∀ reply ∈ readReply (.file call, .served ret (k.serve dev clusters call).stores),
          reply = (some (-1), []) := by
  cases call with
  | fileOpen filename => exact (hopen filename rfl).elim
  | fileRead buffer size =>
      have hread : fat32Read dev k.fat size.toNat = (⟨[], some (-1)⟩, k.fat) := if_pos (.inl hclosed)
      by_cases hrefused : buffer = 0 ∨ k.currentFile = false
      · have hserve : k.serve dev clusters (.fileRead buffer size) = k.refuse (-1) := if_pos hrefused
        rw [hserve]
        refine ⟨hclosed, ?_⟩
        intro ret hret reply hreply
        obtain rfl := Option.some.inj hret
        simp only [readReply, Kernel.refuse] at hreply
        split at hreply <;> simp_all
      · have hserve : k.serve dev clusters (.fileRead buffer size) = ⟨some (-1), [], k⟩ := by
          rw [Kernel.serve, sysFileRead, if_neg hrefused, hread]
          rfl
        rw [hserve]
        refine ⟨hclosed, ?_⟩
        intro ret hret reply hreply
        obtain rfl := Option.some.inj hret
        simp only [readReply] at hreply
        split at hreply <;> simp_all
  | fileClose =>
      refine ⟨?_, fun ret _ reply hreply => by simp [readReply] at hreply⟩
      simp only [Kernel.serve, sysFileClose, Kernel.closeCurrent]
      split
      · exact hclosed
      · split
        · rfl
        · exact hclosed
  | listDir buffer maxEntries =>
      refine ⟨?_, fun ret _ reply hreply => by simp [readReply] at hreply⟩
      simp only [Kernel.serve, sysListDir]
      split
      · exact hclosed
      · rw [← hclosed, ← (fat32ListDir_sameFile dev clusters k.fat true _).file]
  | getArgs index buffer size =>
      refine ⟨?_, fun ret _ reply hreply => by simp [readReply] at hreply⟩
      simp only [Kernel.serve, sysGetArgs]
      split
      · exact hclosed
      · split
        · exact hclosed
        · split <;> exact hclosed

theorem Machine.exit_kernel (hexit : m.exit = some (event, m')) : m'.kernel.fat = m.kernel.fat := by
  unfold Machine.exit at hexit
  split at hexit
  · rw [Option.some.injEq, Prod.mk.injEq] at hexit
    rw [← hexit.2]
  · split at hexit
    · cases hexit
    · split at hexit <;> rw [Option.some.injEq, Prod.mk.injEq] at hexit <;> rw [← hexit.2] <;> rfl

theorem Machine.command_kernel {line : CString} {used : Nat}
    (hcommand : m.command p line used = some (event, m')) : m'.kernel.fat =
      (fetchProgram p.dev p.clusters p.binaryBuffer true m.kernel line).2.fat := by
  unfold Machine.command at hcommand
  split at hcommand
  · cases hcommand
  · next hfetch =>
      rw [Option.some.injEq, Prod.mk.injEq] at hcommand
      rw [← hcommand.2, hfetch]
  · next k hfetch =>
      rw [hfetch]
      rcases elfLoadAndExec_cases { m with kernel := k } p.stack p.binaryBuffer (bootStack - used)
        .command with ⟨-, -, heq⟩ | ⟨-, heq⟩ <;>
        rw [heq, Option.some.injEq, Prod.mk.injEq] at hcommand <;> rw [← hcommand.2] <;> rfl

theorem Machine.step_closed {op : ProgramOp} (hclosed : m.kernel.fat.file.valid = false)
    (hopen : ∀ filename, op ≠ .file (.fileOpen filename))
    (hstep : m.step p op = some (event, m')) :
    m'.kernel.fat.file.valid = false ∧
      ∀ reply ∈ readReply (op, event), reply = (some (-1), []) := by
  have hcases := Machine.step_cases hstep
  cases op with
  | store addr byte =>
      obtain ⟨-, -, rfl, rfl⟩ := hcases
      exact ⟨hclosed, fun reply hreply => by simp [readReply] at hreply⟩
  | file call =>
      obtain ⟨-, ret, hret, rfl, rfl⟩ := hcases
      obtain ⟨hclosed', hreply⟩ := serve_closed p.dev p.clusters hclosed fun filename heq =>
        hopen filename (congrArg ProgramOp.file heq)
      exact ⟨hclosed', hreply ret hret⟩
  | exec cmd sizes =>
      refine ⟨?_, fun reply hreply => by simp [readReply] at hreply⟩
      rw [Machine.exec_kernel hcases.2]
      split
      · exact hclosed
      · exact fetchProgram_closed _ _ _ _ _ hclosed
  | exit =>
      refine ⟨?_, fun reply hreply => by simp [readReply] at hreply⟩
      rw [Machine.exit_kernel hcases.2]
      exact hclosed
  | command line used =>
      refine ⟨?_, fun reply hreply => by simp [readReply] at hreply⟩
      rw [Machine.command_kernel hcases.2]
      exact fetchProgram_closed _ _ _ _ _ hclosed

end Closed

end Magnos
