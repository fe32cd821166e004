import Magnos.Memory.FreePages
import Magnos.Memory.Process

/-!
# The process table over whole runs

No process ever leaves the table, so that slots are filled in order and the pid of a process
is the number of its slot.  `process_create` and `schedule` are atomic here.
-/

namespace Magnos

open Framework

variable {Pages : Type} {src : PageSource Pages}

/-- The process that `process_create` puts into a slot. -/
def newProcess (s : ProcTable) (page : Nat) (name : List UInt8) (entry : Nat) : Process where
  pid := s.nextPid
  name := name.take 15
  state := .ready
  esp := (pushWords s.word ((page + pageSize) % 2 ^ 32) [entry, 0, 0, 0, 0, 0, 0, 0, 0]).2
  eip := entry
  pageDirectory := 0
  kernelStack := page

/-- The table after `process_create` has filled a slot. -/
def ProcTable.created (s : ProcTable) (slot page : Nat) (name : List UInt8) (entry : Nat) :
    ProcTable :=
  { s.setProc slot (newProcess s page name entry) with
    nextPid := (s.nextPid + 1) % 2 ^ 32
    word := (pushWords s.word ((page + pageSize) % 2 ^ 32) [entry, 0, 0, 0, 0, 0, 0, 0, 0]).1 }

theorem find_unused_some {s : ProcTable} {slot : Nat}
    (hfind : (List.range maxProcesses).find? (fun i => (s.proc i).state = .unused) = some slot) :
    slot < maxProcesses ∧ (s.proc slot).state = .unused ∧
      ∀ i < slot, (s.proc i).state ≠ .unused := by
  obtain ⟨hunused, hmem, hbefore⟩ := List.find?_range_eq_some.mp hfind
  refine ⟨List.mem_range.mp hmem, of_decide_eq_true hunused, ?_⟩
  intro i hi hstate
  have hno := hbefore i hi
  simp [hstate] at hno

theorem processCreate_cases (src : PageSource Pages) (s : ProcTable) (pages : Pages)
    (name : List UInt8) (entry : Nat) :
    (processCreate src s pages name entry = (-1, s, pages) ∧
        ∀ i < maxProcesses, (s.proc i).state ≠ .unused) ∨
      ((src.alloc pages).1 = 0 ∧
        processCreate src s pages name entry = (-1, s, (src.alloc pages).2)) ∨
      ∃ slot, slot < maxProcesses ∧ (s.proc slot).state = .unused ∧
        (∀ i < slot, (s.proc i).state ≠ .unused) ∧ (src.alloc pages).1 ≠ 0 ∧
        processCreate src s pages name entry =
          (toInt32 s.nextPid, s.created slot (src.alloc pages).1 name entry, (src.alloc pages).2) := by
  unfold processCreate
  cases hfind : (List.range maxProcesses).find? (fun i => (s.proc i).state = .unused) with
  | none =>
      left
      refine ⟨rfl, ?_⟩
      intro i hi hstate
      have hno := List.find?_eq_none.mp hfind i (List.mem_range.mpr hi)
      exact hno (decide_eq_true hstate)
  | some slot =>
      right
      dsimp only
      by_cases hzero : (src.alloc pages).1 = 0
      · exact .inl ⟨hzero, by rw [if_pos hzero]⟩
      · obtain ⟨hlt, hunused, hbefore⟩ := find_unused_some hfind
        exact .inr ⟨slot, hlt, hunused, hbefore, hzero, by rw [if_neg hzero]; rfl⟩

theorem clearSlots_spec (s : ProcTable) (n : Nat) :
    let t := (List.range n).foldl
      (fun s i => s.setProc i { s.proc i with state := .unused, pid := 0 }) s
    t.nextPid = s.nextPid ∧ ∀ i < n, (t.proc i).state = .unused := by
  induction n with
  | zero => exact ⟨rfl, fun i hi => absurd hi (Nat.not_lt_zero i)⟩
  | succ n ih =>
      obtain ⟨hnext, hunused⟩ := ih
      dsimp only
      rw [List.range_succ, List.foldl_append, List.foldl_cons, List.foldl_nil]
      refine ⟨hnext, ?_⟩
      intro i hi
      rw [ProcTable.setProc_proc]
      split
      · rfl
      · exact hunused i (by omega)

theorem processInit_spec (s : ProcTable) :
    (processInit s).nextPid = (s.nextPid + 1) % 2 ^ 32 ∧ (processInit s).current = some 0 ∧
      ((processInit s).proc 0).state = .running ∧ ((processInit s).proc 0).pid = s.nextPid ∧
      ∀ i, 0 < i → i < maxProcesses → ((processInit s).proc i).state = .unused := by
  obtain ⟨hnext, hunused⟩ := clearSlots_spec s maxProcesses
  rw [processInit]
  generalize (List.range maxProcesses).foldl
    (fun s i => s.setProc i { s.proc i with state := .unused, pid := 0 }) s = t at hnext hunused ⊢
  dsimp only at hnext hunused ⊢
  refine ⟨?_, rfl, ?_, ?_, ?_⟩
  · show (t.nextPid + 1) % 2 ^ 32 = _
    rw [hnext]
  · rw [ProcTable.setProc_proc, if_pos rfl]
  · rw [ProcTable.setProc_proc, if_pos rfl]
    exact hnext
  · intro i hpos hi
    rw [ProcTable.setProc_proc, if_neg (by omega)]
    exact hunused i hi

/-- Calls, with what `process_create` returned and what `context_switch` saved. -/
inductive ProcCall where
  | create (name : List UInt8) (entry : Nat) (pid : Int)
  | schedule (esp : Nat)
deriving DecidableEq

def processStep (src : PageSource Pages) (s : ProcTable × Pages) :
    ProcCall → ProcTable × Pages → Prop
  | .create name entry pid, s' => processCreate src s.1 s.2 name entry = (pid, s'.1, s'.2)
  | .schedule esp, s' => s' = (schedule s.1 esp, s.2)

/-- The first `nextPid` slots are in use, and the process of slot `cur` is running. -/
structure ProcInv (src : PageSource Pages) (cur : Nat) (s : ProcTable) (pages : Pages) : Prop where
  current : s.current = some cur
  cur_lt : cur < s.nextPid
  few : s.nextPid ≤ maxProcesses
  running : (s.proc cur).state = .running
  ready : ∀ i < s.nextPid, i ≠ cur → (s.proc i).state = .ready
  unused : ∀ i, s.nextPid ≤ i → i < maxProcesses → (s.proc i).state = .unused
  pid : ∀ i < s.nextPid, (s.proc i).pid = i
  taken : ∀ i, 0 < i → i < s.nextPid → ¬ src.Available pages (s.proc i).kernelStack
  distinct : ∀ i j, 0 < i → i < s.nextPid → 0 < j → j < s.nextPid →
    (s.proc i).kernelStack = (s.proc j).kernelStack → i = j

namespace ProcInv

variable {cur : Nat} {s : ProcTable} {pages : Pages}

theorem used_iff (hinv : ProcInv src cur s pages) {i : Nat} (hi : i < maxProcesses) :
    (s.proc i).state ≠ .unused ↔ i < s.nextPid := by
  constructor
  · intro hused
    by_contra hge
    exact hused (hinv.unused i (by omega) hi)
  · intro hlt
    by_cases hcur : i = cur
    · rw [hcur, hinv.running]
      decide
    · rw [hinv.ready i hlt hcur]
      decide

theorem init (start : ProcTable) (hpid : start.nextPid = 0) (pages : Pages) :
    ProcInv src 0 (processInit start) pages := by
  obtain ⟨hnext, hcurrent, hrunning, hfirst, hunused⟩ := processInit_spec start
  rw [hpid] at hnext hfirst
  refine ⟨hcurrent, ?_, ?_, hrunning, ?_, ?_, ?_, ?_, ?_⟩
  · omega
  · rw [hnext]
    decide
  · intro i hi hne
    omega
  · intro i hge hi
    exact hunused i (by omega) hi
  · intro i hi
    obtain rfl : i = 0 := by omega
    exact hfirst
  · intro i hpos hi
    omega
  · intro i j hpos hi
    omega

theorem create (hinv : ProcInv src cur s pages) (hzero : (src.alloc pages).1 ≠ 0) {slot : Nat}
    (hslot : slot < maxProcesses) (hunused : (s.proc slot).state = .unused)
    (hbefore : ∀ i < slot, (s.proc i).state ≠ .unused) (name : List UInt8) (entry : Nat) :
    slot = s.nextPid ∧ (s.created slot (src.alloc pages).1 name entry).nextPid = s.nextPid + 1 ∧
      ProcInv src cur (s.created slot (src.alloc pages).1 name entry) (src.alloc pages).2 := by
  have hge : s.nextPid ≤ slot := by
    by_contra hlt
    exact (hinv.used_iff hslot).mpr (by omega) hunused
  obtain rfl : slot = s.nextPid := by
    by_contra hne
    exact hbefore s.nextPid (by omega) (hinv.unused _ (by omega) (by omega))
  have hfew := hinv.few
  have hnext : (s.created s.nextPid (src.alloc pages).1 name entry).nextPid = s.nextPid + 1 := by
    show (s.nextPid + 1) % 2 ^ 32 = _
    simp only [maxProcesses] at hslot
    omega
  have hself : (s.created s.nextPid (src.alloc pages).1 name entry).proc s.nextPid =
      newProcess s (src.alloc pages).1 name entry := Function.update_self ..
  have hother : ∀ i, i ≠ s.nextPid →
      (s.created s.nextPid (src.alloc pages).1 name entry).proc i = s.proc i :=
    fun i hi => Function.update_of_ne hi ..
  have hcur := hinv.cur_lt
  have havail := src.alloc_available pages hzero
  refine ⟨rfl, hnext, hinv.current, by omega, by omega, ?_, ?_, ?_, ?_, ?_, ?_⟩
  · rw [hother cur (by omega)]
    exact hinv.running
  · intro i hi hne
    by_cases hlast : i = s.nextPid
    · rw [hlast, hself]
      rfl
    · rw [hother i hlast]
      exact hinv.ready i (by omega) hne
  · intro i hge' hi
    rw [hother i (by omega)]
    exact hinv.unused i (by omega) hi
  · intro i hi
    by_cases hlast : i = s.nextPid
    · rw [hlast, hself]
      rfl
    · rw [hother i hlast]
      exact hinv.pid i (by omega)
  · intro i hpos hi
    by_cases hlast : i = s.nextPid
    · rw [hlast, hself]
      exact src.alloc_taken pages hzero
    · rw [hother i hlast]
      exact fun h => hinv.taken i hpos (by omega) (src.alloc_shrinks pages _ h)
  · intro i j hpos hi hpos' hj heq
    by_cases hlast : i = s.nextPid <;> by_cases hlast' : j = s.nextPid
    · omega
    · rw [hlast, hself, hother j hlast'] at heq
      exact (hinv.taken j hpos' (by omega) (heq ▸ havail)).elim
    · rw [hlast', hself, hother i hlast] at heq
      exact (hinv.taken i hpos (by omega) (heq ▸ havail)).elim
    · rw [hother i hlast, hother j hlast'] at heq
      exact hinv.distinct i j hpos (by omega) hpos' (by omega) heq

/-- `schedule` moves the processor to another process or does nothing. -/
theorem schedule (hinv : ProcInv src cur s pages) (esp : Nat) :
    (schedule s esp).nextPid = s.nextPid ∧
      (∀ i, ((schedule s esp).proc i).pid = (s.proc i).pid ∧
        ((schedule s esp).proc i).name = (s.proc i).name ∧
        ((schedule s esp).proc i).eip = (s.proc i).eip ∧
        ((schedule s esp).proc i).kernelStack = (s.proc i).kernelStack) ∧
      ∃ next, ProcInv src next (schedule s esp) pages := by
  have hlt := hinv.cur_lt
  have hfew := hinv.few
  rcases scheduleSelect_cases s with ⟨hselect, -⟩ | ⟨cur', next, hcur, hnext, hne, hselect⟩
  · have heq : Magnos.schedule s esp = s := by
      rw [Magnos.schedule, hselect]
    rw [heq]
    exact ⟨rfl, fun i => ⟨rfl, rfl, rfl, rfl⟩, cur, hinv⟩
  · obtain rfl : cur = cur' := Option.some.inj (hinv.current.symm.trans hcur)
    obtain ⟨hready, hslot⟩ := ProcTable.nextReady_some hnext
    have hused : next < s.nextPid := (hinv.used_iff hslot).mp (by rw [hready]; decide)
    have hproc : ∀ i, (Magnos.schedule s esp).proc i =
        if i = next then { s.proc next with state := .running }
        else if i = cur then { s.proc cur with state := .ready, esp := esp }
        else s.proc i := by
      intro i
      rw [Magnos.schedule, hselect]
      exact s.switched_proc hne hinv.running esp i
    have hsame : ∀ i, ((Magnos.schedule s esp).proc i).pid = (s.proc i).pid ∧
        ((Magnos.schedule s esp).proc i).name = (s.proc i).name ∧
        ((Magnos.schedule s esp).proc i).eip = (s.proc i).eip ∧
        ((Magnos.schedule s esp).proc i).kernelStack = (s.proc i).kernelStack := by
      intro i
      rw [hproc]
      split
      · next h => rw [h]; exact ⟨rfl, rfl, rfl, rfl⟩
      · split
        · next h => rw [h]; exact ⟨rfl, rfl, rfl, rfl⟩
        · exact ⟨rfl, rfl, rfl, rfl⟩
    have hrest : (Magnos.schedule s esp).nextPid = s.nextPid ∧
        (Magnos.schedule s esp).current = some next := by
      rw [Magnos.schedule, hselect]
      obtain ⟨hcurrent, -, hnextPid⟩ := s.switched_rest cur next esp
      exact ⟨hnextPid, hcurrent⟩
    refine ⟨hrest.1, hsame, next, hrest.2, ?_, ?_, ?_, ?_, ?_, ?_, ?_, ?_⟩
    · rw [hrest.1]
      exact hused
    · rw [hrest.1]
      exact hfew
    · rw [hproc, if_pos rfl]
    · intro i hi hnext'
      rw [hrest.1] at hi
      rw [hproc, if_neg hnext']
      split
      · rfl
      · next hcur' => exact hinv.ready i hi hcur'
    · intro i hge hi
      rw [hrest.1] at hge
      rw [hproc, if_neg (by omega), if_neg (by omega)]
      exact hinv.unused i hge hi
    · intro i hi
      rw [hrest.1] at hi
      rw [(hsame i).1]
      exact hinv.pid i hi
    · intro i hpos hi
      rw [hrest.1] at hi
      rw [(hsame i).2.2.2]
      exact hinv.taken i hpos hi
    · intro i j hpos hi hpos' hj heq
      rw [hrest.1] at hi hj
      rw [(hsame i).2.2.2, (hsame j).2.2.2] at heq
      exact hinv.distinct i j hpos hi hpos' hj heq

end ProcInv

/-- A process stays itself: its slot stays in use, and only its state and stack pointer
change. -/
structure SameProcess (s s' : ProcTable) (slot : Nat) : Prop where
  used : slot < s'.nextPid
  pid : (s'.proc slot).pid = (s.proc slot).pid
  name : (s'.proc slot).name = (s.proc slot).name
  eip : (s'.proc slot).eip = (s.proc slot).eip
  kernelStack : (s'.proc slot).kernelStack = (s.proc slot).kernelStack

theorem SameProcess.trans {s s' s'' : ProcTable} {slot : Nat} (hfirst : SameProcess s s' slot)
    (hsecond : SameProcess s' s'' slot) : SameProcess s s'' slot :=
  ⟨hsecond.used, hsecond.pid.trans hfirst.pid, hsecond.name.trans hfirst.name,
    hsecond.eip.trans hfirst.eip, hsecond.kernelStack.trans hfirst.kernelStack⟩

theorem ProcInv.step {cur : Nat} {s s' : ProcTable × Pages} {call : ProcCall}
    (hinv : ProcInv src cur s.1 s.2) (hstep : processStep src s call s') :
    (∃ next, ProcInv src next s'.1 s'.2) ∧ ∀ slot < s.1.nextPid, SameProcess s.1 s'.1 slot := by
  obtain ⟨t, pages⟩ := s
  obtain ⟨t', pages'⟩ := s'
  dsimp only at hinv ⊢
  cases call with
  | create name entry pid =>
      have hcreate : processCreate src t pages name entry = (pid, t', pages') := hstep
      rcases processCreate_cases src t pages name entry with
        ⟨heq, -⟩ | ⟨-, heq⟩ | ⟨slot, hslot, hunused, hbefore, hzero, heq⟩
      · rw [heq, Prod.mk.injEq, Prod.mk.injEq] at hcreate
        obtain ⟨-, rfl, rfl⟩ := hcreate
        exact ⟨⟨cur, hinv⟩, fun i hi => ⟨hi, rfl, rfl, rfl, rfl⟩⟩
      · rw [heq, Prod.mk.injEq, Prod.mk.injEq] at hcreate
        obtain ⟨-, rfl, rfl⟩ := hcreate
        refine ⟨⟨cur, { hinv with taken := ?_ }⟩, fun i hi => ⟨hi, rfl, rfl, rfl, rfl⟩⟩
        intro i hpos hi havail
        exact hinv.taken i hpos hi (src.alloc_shrinks pages _ havail)
      · rw [heq, Prod.mk.injEq, Prod.mk.injEq] at hcreate
        obtain ⟨-, rfl, rfl⟩ := hcreate
        obtain ⟨hlast, hnext, hinv'⟩ := hinv.create hzero hslot hunused hbefore name entry
        refine ⟨⟨cur, hinv'⟩, ?_⟩
        intro i hi
        have hproc : (t.created slot (src.alloc pages).1 name entry).proc i = t.proc i :=
          Function.update_of_ne (by omega) ..
        refine ⟨by omega, ?_, ?_, ?_, ?_⟩ <;> rw [hproc]
  | schedule esp =>
      have hschedule : (t', pages') = (Magnos.schedule t esp, pages) := hstep
      rw [Prod.mk.injEq] at hschedule
      obtain ⟨rfl, rfl⟩ := hschedule
      obtain ⟨hnext, hsame, hinv'⟩ := hinv.schedule esp
      refine ⟨hinv', ?_⟩
      intro i hi
      obtain ⟨hpid, hname, heip, hstack⟩ := hsame i
      exact ⟨by omega, hpid, hname, heip, hstack⟩

theorem ProcInv.run {cur : Nat} {s s' : ProcTable × Pages} {calls : List ProcCall}
    (hinv : ProcInv src cur s.1 s.2) (hrun : Run (processStep src) s calls s') :
    (∃ next, ProcInv src next s'.1 s'.2) ∧ ∀ slot < s.1.nextPid, SameProcess s.1 s'.1 slot := by
  induction hrun with
  | nil => exact ⟨⟨cur, hinv⟩, fun i hi => ⟨hi, rfl, rfl, rfl, rfl⟩⟩
  | snoc _ hlast ih =>
      obtain ⟨⟨mid, hmid⟩, hkeep⟩ := ih
      obtain ⟨hinv', hkeep'⟩ := hmid.step hlast
      refine ⟨hinv', ?_⟩
      intro i hi
      exact (hkeep i hi).trans (hkeep' i (hkeep i hi).used)

theorem ProcInv.processGet_eq {cur : Nat} {s : ProcTable} {pages : Pages}
    (hinv : ProcInv src cur s pages) (pid : Nat) :
    processGet s pid = if pid < s.nextPid then some pid else none := by
  have hfew := hinv.few
  have hfound : ∀ i < maxProcesses, ((s.proc i).state ≠ .unused ∧ (s.proc i).pid = pid ↔
      i < s.nextPid ∧ i = pid) := by
    intro i hi
    rw [hinv.used_iff hi]
    constructor
    · rintro ⟨hlt, hpid⟩
      exact ⟨hlt, (hinv.pid i hlt).symm.trans hpid⟩
    · rintro ⟨hlt, rfl⟩
      exact ⟨hlt, hinv.pid i hlt⟩
  unfold processGet
  by_cases hpid : pid < s.nextPid
  · rw [if_pos hpid, List.find?_range_eq_some]
    refine ⟨decide_eq_true ((hfound pid (by omega)).mpr ⟨hpid, rfl⟩), List.mem_range.mpr (by omega), ?_⟩
    intro i hi
    have hno : ¬ ((s.proc i).state ≠ .unused ∧ (s.proc i).pid = pid) := by
      rw [hfound i (by omega)]
      omega
    simp only [hno, decide_false, Bool.not_false]
  · rw [if_neg hpid, List.find?_eq_none]
    intro i hi
    have hno : ¬ ((s.proc i).state ≠ .unused ∧ (s.proc i).pid = pid) := by
      rw [hfound i (List.mem_range.mp hi)]
      omega
    simp only [hno, decide_false, Bool.false_eq_true, not_false_eq_true]

theorem ProcInv.create_filled {cur : Nat} {s s' : ProcTable × Pages} {name : List UInt8}
    {entry : Nat} {pid : Int} (hinv : ProcInv src cur s.1 s.2)
    (hstep : processStep src s (.create name entry pid) s') (hok : pid ≠ -1) :
    pid = s.1.nextPid ∧ s'.1.nextPid = s.1.nextPid + 1 ∧
      (s.1.proc s.1.nextPid).state = .unused ∧ (s'.1.proc s.1.nextPid).state = .ready ∧
      (s'.1.proc s.1.nextPid).name = name.take 15 ∧ (s'.1.proc s.1.nextPid).eip = entry ∧
      (s'.1.proc s.1.nextPid).kernelStack = (src.alloc s.2).1 := by
  obtain ⟨t, pages⟩ := s
  obtain ⟨t', pages'⟩ := s'
  have hcreate : processCreate src t pages name entry = (pid, t', pages') := hstep
  rcases processCreate_cases src t pages name entry with
    ⟨heq, -⟩ | ⟨-, heq⟩ | ⟨slot, hslot, hunused, hbefore, hzero, heq⟩
  · rw [heq, Prod.mk.injEq] at hcreate
    exact (hok hcreate.1.symm).elim
  · rw [heq, Prod.mk.injEq] at hcreate
    exact (hok hcreate.1.symm).elim
  · rw [heq, Prod.mk.injEq, Prod.mk.injEq] at hcreate
    obtain ⟨rfl, rfl, rfl⟩ := hcreate
    obtain ⟨rfl, hnext, -⟩ := hinv.create hzero hslot hunused hbefore name entry
    have hself : (t.created t.nextPid (src.alloc pages).1 name entry).proc t.nextPid =
        newProcess t (src.alloc pages).1 name entry := Function.update_self ..
    have hpid : toInt32 t.nextPid = t.nextPid := by
      rw [toInt32, if_pos (by simp only [maxProcesses] at hslot; omega)]
    refine ⟨hpid, hnext, hunused, ?_, ?_, ?_, ?_⟩ <;> dsimp only <;> rw [hself] <;> rfl

theorem processRun_pids {s₀ s : ProcTable × Pages} {calls : List ProcCall}
    (hinv : ProcInv src 0 s₀.1 s₀.2) (hfirst : s₀.1.nextPid = 1)
    (hrun : Run (processStep src) s₀ calls s) (pid : Nat) (hpid : pid < s.1.nextPid) :
    pid = 0 ∨ ∃ name entry, .create name entry (pid : Int) ∈ calls := by
  induction hrun with
  | nil => exact .inl (by omega)
  | snoc hbefore hlast ih =>
      rename_i t u calls call
      obtain ⟨cur, hmid⟩ := (hinv.run hbefore).1
      by_cases hold : pid < t.1.nextPid
      · rcases ih hold with hzero | ⟨name, entry, hmem⟩
        · exact .inl hzero
        · exact .inr ⟨name, entry, List.mem_append_left _ hmem⟩
      · right
        cases call with
        | schedule esp =>
            have hschedule : u = (schedule t.1 esp, t.2) := hlast
            rw [hschedule, (hmid.schedule esp).1] at hpid
            exact (hold hpid).elim
        | create name entry ret =>
            by_cases hok : ret = -1
            · exfalso
              have hcreate : processCreate src t.1 t.2 name entry = (ret, u.1, u.2) := hlast
              rcases processCreate_cases src t.1 t.2 name entry with
                ⟨heq, -⟩ | ⟨-, heq⟩ | ⟨slot, hslot, -, -, -, heq⟩
              · rw [heq, Prod.mk.injEq, Prod.mk.injEq] at hcreate
                rw [← hcreate.2.1] at hpid
                exact hold hpid
              · rw [heq, Prod.mk.injEq, Prod.mk.injEq] at hcreate
                rw [← hcreate.2.1] at hpid
                exact hold hpid
              · rw [heq, Prod.mk.injEq, hok, toInt32] at hcreate
                have hfew := hmid.few
                simp only [maxProcesses] at hfew
                rw [if_pos (by omega)] at hcreate
                omega
            · obtain ⟨hret, hnext, -⟩ := hmid.create_filled hlast hok
              obtain rfl : pid = t.1.nextPid := by omega
              exact ⟨name, entry, by simp [hret]⟩

/-- From `process_init` on exactly the current process is running and the others in the table
are ready, pids and stack pages are distinct, `process_get` finds for every pid the process
whose creation returned it, and a failed `process_create` changes nothing. -/
theorem processRun_sound (src : PageSource Pages)
    (hrefuse : ∀ pages, (src.alloc pages).1 = 0 → (src.alloc pages).2 = pages)
    (start : ProcTable) (hstart : start.nextPid = 0) (pages₀ : Pages) (calls : List ProcCall)
    (s : ProcTable) (pages : Pages)
    (hrun : Run (processStep src) (processInit start, pages₀) calls (s, pages)) :
    (∃ cur < maxProcesses, s.current = some cur ∧ ∀ i < maxProcesses,
        ((s.proc i).state = .running ↔ i = cur) ∧
        (i ≠ cur → (s.proc i).state = .unused ∨ (s.proc i).state = .ready)) ∧
      (∀ i < maxProcesses, (s.proc i).state ≠ .unused → (s.proc i).pid < s.nextPid ∧
        ∀ j < maxProcesses, (s.proc j).state ≠ .unused → (s.proc i).pid = (s.proc j).pid → i = j) ∧
      (∀ i j, 0 < i → i < maxProcesses → (s.proc i).state ≠ .unused → 0 < j → j < maxProcesses →
        (s.proc j).state ≠ .unused → (s.proc i).kernelStack = (s.proc j).kernelStack → i = j) ∧
      (∀ before name entry pid after, calls = before ++ .create name entry pid :: after →
        pid ≠ -1 → ∃ t t' slot, Run (processStep src) (processInit start, pages₀) before t ∧
          processStep src t (.create name entry pid) t' ∧
          Run (processStep src) t' after (s, pages) ∧
          (t.1.proc slot).state = .unused ∧ (t'.1.proc slot).state ≠ .unused ∧
          processGet s pid.toNat = some slot ∧ (s.proc slot).pid = pid ∧
          (s.proc slot).name = name.take 15 ∧ (s.proc slot).eip = entry ∧
          (s.proc slot).kernelStack = (src.alloc t.2).1) ∧
      (∀ pid slot, processGet s pid = some slot →
        pid = 0 ∧ slot = 0 ∨ ∃ name entry, .create name entry (pid : Int) ∈ calls) ∧
      ∀ name entry, (processCreate src s pages name entry).1 = -1 →
        processCreate src s pages name entry = (-1, s, pages) := by
  have hinit : ProcInv src 0 (processInit start) pages₀ := .init start hstart pages₀
  obtain ⟨⟨cur, hinv⟩, -⟩ := hinit.run hrun
  have hfew := hinv.few
  have hcur := hinv.cur_lt
  dsimp only at hinv hfew hcur
  refine ⟨⟨cur, by omega, hinv.current, ?_⟩, ?_, ?_, ?_, ?_, ?_⟩
  · intro i hi
    by_cases hlt : i < s.nextPid
    · by_cases heq : i = cur
      · rw [heq]
        exact ⟨⟨fun _ => rfl, fun _ => hinv.running⟩, fun h => (h rfl).elim⟩
      · have hready := hinv.ready i hlt heq
        rw [hready]
        exact ⟨⟨fun h => absurd h (by decide), fun h => (heq h).elim⟩, fun _ => .inr rfl⟩
    · have hunused := hinv.unused i (by omega) hi
      rw [hunused]
      exact ⟨⟨fun h => absurd h (by decide), fun h => by omega⟩, fun _ => .inl rfl⟩
  · intro i hi hused
    have hlt := (hinv.used_iff hi).mp hused
    refine ⟨by rw [hinv.pid i hlt]; exact hlt, ?_⟩
    intro j hj hused' heq
    rwa [hinv.pid i hlt, hinv.pid j ((hinv.used_iff hj).mp hused')] at heq
  · intro i j hpos hi hused hpos' hj hused' heq
    exact hinv.distinct i j hpos ((hinv.used_iff hi).mp hused) hpos' ((hinv.used_iff hj).mp hused') heq
  · rintro before name entry pid after rfl hok
    obtain ⟨t, hbefore, hrest⟩ := hrun.of_append
    obtain ⟨t', hstep, hafter⟩ := hrest.of_cons
    obtain ⟨⟨mid, hmid⟩, -⟩ := hinit.run hbefore
    obtain ⟨⟨mid', hmid'⟩, -⟩ := hmid.step hstep
    obtain ⟨hpid, hnext, hunused, hready, hname, heip, hstack⟩ := hmid.create_filled hstep hok
    have hsame := (hmid'.run hafter).2 t.1.nextPid (by omega)
    dsimp only at hsame
    have hslot := hsame.used
    refine ⟨t, t', t.1.nextPid, hbefore, hstep, hafter, hunused, ?_, ?_, ?_, ?_, ?_, ?_⟩
    · rw [hready]
      decide
    · rw [hinv.processGet_eq, hpid, Int.toNat_natCast, if_pos hslot]
    · rw [hinv.pid _ hslot, hpid]
    · rw [hsame.name, hname]
    · rw [hsame.eip, heip]
    · rw [hsame.kernelStack, hstack]
  · intro pid slot hget
    rw [hinv.processGet_eq] at hget
    by_cases hpid : pid < s.nextPid
    · rw [if_pos hpid] at hget
      have hfirst : (processInit start).nextPid = 1 := by
        rw [(processInit_spec start).1, hstart]
        rfl
      rcases processRun_pids hinit hfirst hrun pid hpid with rfl | hcreated
      · exact .inl ⟨rfl, (Option.some.inj hget).symm⟩
      · exact .inr hcreated
    · rw [if_neg hpid] at hget
      cases hget
  · intro name entry hfailed
    rcases processCreate_cases src s pages name entry with
      ⟨heq, -⟩ | ⟨hzero, heq⟩ | ⟨slot, hslot, -, -, -, heq⟩
    · exact heq
    · rw [heq, hrefuse pages hzero]
    · rw [heq, toInt32] at hfailed
      simp only [maxProcesses] at hfew
      rw [if_pos (by omega)] at hfailed
      omega

/-- The statics of `process.c` before `process_init`. -/
def zeroTable : ProcTable := ⟨fun _ => ⟨0, [], .unused, 0, 0, 0, 0⟩, none, 0, fun _ => 0⟩

/-- The allocator of a kernel that ends at 1 MB. -/
def bootPool : { bitmap : Bitmap // 0 ∉ freePages bitmap } :=
  ⟨pmmInit 0x100000, zero_notMem_freePages_init 0x100000 (by decide) (by decide)⟩

theorem pmmPool_alloc_fst (pool : { bitmap : Bitmap // 0 ∉ freePages bitmap }) :
    (pmmPool.alloc pool).1 = (pmmSource.alloc pool.1).1 := rfl

theorem bootPool_alloc_ne_zero : (pmmPool.alloc bootPool).1 ≠ 0 := by
  rw [pmmPool_alloc_fst]
  exact pmmAlloc_init_ne_zero 0x100000 (by decide) (by decide)

theorem processCreate_boot (name : List UInt8) (entry : Nat) :
    ∃ s pool, processCreate pmmPool (processInit zeroTable) bootPool name entry = (1, s, pool) := by
  rcases processCreate_cases pmmPool (processInit zeroTable) bootPool name entry with
    ⟨-, hfull⟩ | ⟨hzero, -⟩ | ⟨slot, -, -, -, -, heq⟩
  · exact (hfull 1 (by decide) rfl).elim
  · exact (bootPool_alloc_ne_zero hzero).elim
  · exact ⟨_, _, heq⟩

/-- A process is created and the timer ticks. -/
theorem processRun_sound_tick :
    ∃ s pool, Run (processStep pmmPool) (processInit zeroTable, bootPool)
        [.create [0x41] 0x1000 1, .schedule 0x9000] (s, pool) ∧
      (∃ cur < maxProcesses, s.current = some cur) ∧
      ∃ slot, processGet s 1 = some slot ∧ (s.proc slot).name = [0x41] ∧
        (s.proc slot).eip = 0x1000 := by
  obtain ⟨t, pool, hcreate⟩ := processCreate_boot [0x41] 0x1000
  have hstep : processStep pmmPool (processInit zeroTable, bootPool) (.create [0x41] 0x1000 1)
      (t, pool) := hcreate
  have hrun : Run (processStep pmmPool) (processInit zeroTable, bootPool)
      [.create [0x41] 0x1000 1, .schedule 0x9000] (schedule t 0x9000, pool) :=
    .snoc (.snoc (.nil _) hstep) rfl
  obtain ⟨⟨cur, hlt, hcurrent, -⟩, -, -, hcreated, -⟩ :=
    processRun_sound pmmPool pmmPool_refuse zeroTable rfl bootPool _ _ _ hrun
  obtain ⟨-, -, slot, -, -, -, -, -, hget, -, hname, hentry, -⟩ :=
    hcreated [] [0x41] 0x1000 1 [.schedule 0x9000] rfl (by decide)
  exact ⟨_, _, hrun, ⟨cur, hlt, hcurrent⟩, slot, hget, hname, hentry⟩

end Magnos
