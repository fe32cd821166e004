import Magnos.Program.Images

/-!
# Calls of `SYSCALL_EXEC` that fail

A call that fails gives its caller the user region back and leaves the stack of contexts alone.  But
the arguments of the command were parsed into `current_program_args` before the program was looked
for, so the caller finds those in place of its own.
-/

namespace Magnos

open Framework

variable {p : Platform} {m m' : Machine}

/-- `SYSCALL_GET_ARGS` answers every call alike. -/
def SameArgs (k k' : Kernel) : Prop :=
  ∀ index buffer size : UInt32,
    (sysGetArgs k' index buffer size).ret = (sysGetArgs k index buffer size).ret ∧
      (sysGetArgs k' index buffer size).stores = (sysGetArgs k index buffer size).stores

/-- What the caller of a failed `SYSCALL_EXEC` can see is as it was. -/
structure CallerKeeps (m m' : Machine) : Prop where
  memory : SameUser m.kernel.mem m'.kernel.mem
  depth : m'.execDepth = m.execDepth
  contexts : ∀ i, m'.execStack i = m.execStack i
  args : SameArgs m.kernel m'.kernel

theorem sysGetArgs_count (k : Kernel) (buffer size : UInt32) :
    (sysGetArgs k (-1) buffer size).ret = some (.ofNat k.args.words.length) := by
  rw [sysGetArgs, if_pos (by decide)]
  rfl

theorem sysGetArgs_word (k : Kernel) {i : Nat} (hi : i < k.args.words.length) :
    (sysGetArgs k (.ofNat i) 1 64).stores = storesAt 1 (k.args.words[i] ++ [0]) := by
  have hcount := k.args.count_le
  have hshort := k.args.short _ (List.getElem_mem hi)
  unfold maxArgs at hcount
  unfold maxArgLen at hshort
  have hindex : (UInt32.ofNat i).toNat = i := UInt32.toNat_ofNat_of_lt' (by
    show i < 2 ^ 32
    omega)
  have hword : k.args.words.getD i [] = k.args.words[i] := by
    rw [List.getD_eq_getElem?_getD, List.getElem?_eq_getElem hi, Option.getD_some]
  have hint : toInt32 (UInt32.ofNat i).toNat = i := by
    rw [hindex, toInt32, if_pos (by omega)]
  have hvalid : ¬ ((i : Int) < 0 ∨ (i : Int) ≥ k.args.words.length) := by omega
  simp only [sysGetArgs]
  rw [hint, if_neg (by omega), if_neg (by decide), if_neg hvalid, Int.toNat_natCast, hword, argBytes]
  dsimp only
  rw [List.take_of_length_le]
  exact Nat.le_of_lt_succ hshort

theorem sameArgs_iff (k k' : Kernel) : SameArgs k k' ↔ k'.args.words = k.args.words := by
  constructor
  · intro hsame
    have hlen : k'.args.words.length = k.args.words.length := by
      have hcount := (hsame (-1) 0 0).1
      have hle := k.args.count_le
      have hle' := k'.args.count_le
      rw [sysGetArgs_count, sysGetArgs_count, Option.some.injEq] at hcount
      have hnat := congrArg UInt32.toNat hcount
      rw [UInt32.toNat_ofNat', UInt32.toNat_ofNat'] at hnat
      unfold maxArgs at hle hle'
      omega
    apply List.ext_getElem hlen
    intro i hi' hi
    have hstores := (hsame (.ofNat i) 1 64).2
    rw [sysGetArgs_word k hi, sysGetArgs_word k' hi'] at hstores
    have hbytes := congrArg (List.map Prod.snd) hstores
    rw [storesAt_bytes, storesAt_bytes] at hbytes
    exact List.append_cancel_right hbytes
  · intro hwords index buffer size
    unfold sysGetArgs
    rw [hwords]
    dsimp only
    split
    · exact ⟨rfl, rfl⟩
    · split
      · exact ⟨rfl, rfl⟩
      · split <;> exact ⟨rfl, rfl⟩

theorem fetchProgram_args (dev : Device) (clusters : Nat) (buffer : UInt32) (refuseEmpty : Bool)
    (k : Kernel) (cmdline : CString) :
    (fetchProgram dev clusters buffer refuseEmpty k cmdline).2.args = (parseCommandLine cmdline).2 := by
  unfold fetchProgram
  dsimp only
  split
  · rfl
  · rfl
  · split
    · rfl
    · unfold readProgram
      dsimp only
      split
      · rfl
      · split
        · rfl
        · split <;> rfl

theorem Machine.exec_failed {cmd code : UInt32} {sizes : FrameSizes}
    (hexec : m.exec p cmd sizes = some (.execFailed code, m')) :
    SameUser m.kernel.mem m'.kernel.mem ∧ m'.execDepth = m.execDepth ∧
      m'.execStack = m.execStack ∧
      m'.kernel.args =
        if cmd = 0 then m.kernel.args else (parseCommandLine (commandLine m.kernel.mem cmd)).2 := by
  have huser := m.fetch_user (p := p) cmd
  have hargs : (m.fetch p cmd).2.args = (parseCommandLine (commandLine m.kernel.mem cmd)).2 :=
    fetchProgram_args _ _ _ _ _ _
  rcases Machine.exec_cases hexec with ⟨_, k, -, rfl, hwhy⟩ | ⟨k, hcmd, hfetch, hcase⟩
  · rcases hwhy with ⟨hcmd, rfl⟩ | ⟨hcmd, hfetch⟩
    · rw [if_pos hcmd]
      exact ⟨fun _ _ => rfl, rfl, rfl, rfl⟩
    · rw [hfetch] at huser hargs
      rw [if_neg hcmd]
      exact ⟨huser, rfl, rfl, hargs⟩
  · rw [hfetch] at huser hargs
    rw [if_neg hcmd]
    rcases hcase with ⟨-, -, rfl⟩ | ⟨-, hlaunched, -⟩
    · exact ⟨huser.trans ((userImage_holds k.mem).restore _), rfl, rfl, hargs⟩
    · cases hlaunched

/-- A failed call leaves everything its caller can see as it was exactly if the command is null or
the words behind its first one are the caller's own arguments. -/
theorem execFailed_keeps_iff (p : Platform) (m m' : Machine) (cmd code : UInt32) (sizes : FrameSizes)
    (hstep : intactStep p m (.exec cmd sizes, .execFailed code) m') :
    CallerKeeps m m' ↔
      cmd = 0 ∨ parseWords maxArgs (commandLine m.kernel.mem cmd).afterProgram =
        m.kernel.args.words := by
  obtain ⟨huser, hdepth, hstack, hargs⟩ := Machine.exec_failed (Machine.step_cases hstep.2).2
  have hkeeps : CallerKeeps m m' ↔ m'.kernel.args.words = m.kernel.args.words := by
    rw [← sameArgs_iff]
    exact ⟨CallerKeeps.args, fun h => ⟨huser, hdepth, fun i => by rw [hstack], h⟩⟩
  rw [hkeeps, hargs]
  by_cases hcmd : cmd = 0
  · simp [hcmd]
  · rw [if_neg hcmd, or_iff_right hcmd]
    exact Iff.rfl

/-- The code of a call of `SYSCALL_EXEC` that has failed. -/
def Event.failure : Event → Option UInt32
  | .execFailed code => some code
  | _ => none

/-- The machine after boot, with the command `B C` in the user region. -/
def missingBoot : Machine :=
  .boot ⟨Memory.ofBytes 0x200100 [0x42, 0x20, 0x43], sampleFat32, false, noArgs⟩ fun _ => 0

theorem missingBoot_execFailed (line : CString) (words : List (List UInt8))
    (hstores : (elfStores (fetchProgram samplePlatform.dev samplePlatform.clusters
      samplePlatform.binaryBuffer true missingBoot.kernel line).2.mem
      samplePlatform.binaryBuffer).all (fun store => UserAddr store.1) = true)
    (hpath : (missingBoot.step samplePlatform (.command line 16)).bind (fun r =>
      (r.2.step samplePlatform sampleExec).map fun s =>
        (s.1.failure, (r.2.fetch samplePlatform 0x200100).1, r.2.kernel.args.words,
          parseWords maxArgs (commandLine r.2.kernel.mem 0x200100).afterProgram)) =
      some (some (-1), .failed (-1), words, [[0x43]])) :
    ∃ labels m m', Run (intactStep samplePlatform) missingBoot labels m ∧
      intactStep samplePlatform m (sampleExec, .execFailed (-1)) m' ∧
      m.kernel.args.words = words ∧
      parseWords maxArgs (commandLine m.kernel.mem 0x200100).afterProgram = [[0x43]] := by
  have hintact : KernelIntact samplePlatform missingBoot (.command line 16) := by
    intro k hfetch
    rw [hfetch] at hstores
    exact loadConfined_of_all hstores
  obtain ⟨⟨e₁, m⟩, h₁, hpath⟩ := Option.bind_eq_some_iff.mp hpath
  obtain ⟨⟨e₂, m'⟩, h₂, heq⟩ := Option.map_eq_some_iff.mp hpath
  simp only [Prod.mk.injEq] at heq
  obtain ⟨hfailure, hfetch, hwords, hcommand⟩ := heq
  cases e₂ with
  | execFailed code =>
      obtain rfl : code = -1 := Option.some.inj hfailure
      refine ⟨[(.command line 16, e₁)], m, m', .snoc (.nil _) ⟨hintact, h₁⟩, ⟨?_, h₂⟩, hwords,
        hcommand⟩
      intro k _ himage
      rw [himage] at hfetch
      cases hfetch
  | _ => cases hfailure

/-- The shell starts `A C`, and the program tries `B C`: its argument is again `C`. -/
theorem execFailed_keeps_iff_repeated :
    ∃ labels m m', Run (intactStep samplePlatform) missingBoot labels m ∧
      intactStep samplePlatform m (sampleExec, .execFailed (-1)) m' ∧
      m.kernel.args.words = [[0x43]] ∧ CallerKeeps m m' := by
  obtain ⟨labels, m, m', hrun, hstep, hwords, hcommand⟩ :=
    missingBoot_execFailed ⟨[0x41, 0x20, 0x43], by decide⟩ [[0x43]] (by decide +kernel)
      (by decide +kernel)
  exact ⟨labels, m, m', hrun, hstep, hwords, (execFailed_keeps_iff samplePlatform m m' _ _ _
    hstep).mpr (.inr (hcommand.trans hwords.symm))⟩

/-- The shell's program has no arguments.  When it has tried to run a program that does not exist,
it has one. -/
theorem execFailed_replaces_args :
    ∃ labels m m', Run (intactStep samplePlatform) missingBoot labels m ∧
      intactStep samplePlatform m (sampleExec, .execFailed (-1)) m' ∧
      (sysGetArgs m.kernel (-1) 0 0).ret = some 0 ∧ (sysGetArgs m'.kernel (-1) 0 0).ret = some 1 := by
  obtain ⟨labels, m, m', hrun, hstep, hwords, hcommand⟩ :=
    missingBoot_execFailed ⟨[0x41], by decide⟩ [] (by decide +kernel) (by decide +kernel)
  obtain ⟨-, -, -, hargs⟩ := Machine.exec_failed (Machine.step_cases hstep.2).2
  rw [if_neg (by decide)] at hargs
  have hwords' : m'.kernel.args.words = [[0x43]] := by
    rw [hargs]
    exact hcommand
  refine ⟨labels, m, m', hrun, hstep, ?_, ?_⟩
  · rw [sysGetArgs_count, hwords]
    rfl
  · rw [sysGetArgs_count, hwords']
    rfl

end Magnos
