import Magnos.Framework.RoundRobin
import Magnos.Process.Preempt

/-!
# Rounds of the scheduler

In every state that `process_create` and the timer reach, one process is running, the current one.
Then `schedule` goes from slot to slot as repeated searches of a ring do: the process it leaves
becomes ready and is itself found at the end of the round.
-/

namespace Magnos

open Framework

variable {Pages : Type} {src : PageSource Pages}

/-- The slot has a process that is ready or running. -/
def ProcTable.live (t : ProcTable) (slot : Nat) : Bool :=
  (t.proc slot).state = .ready ∨ (t.proc slot).state = .running

def ProcTable.liveSlots (t : ProcTable) : List Nat := (List.range maxProcesses).filter t.live

/-- The live slots in cyclic order, from the one after `cur` to `cur`. -/
def ProcTable.liveFrom (t : ProcTable) (cur : Nat) : List Nat :=
  (cycle maxProcesses cur).filter t.live

/-- The tables after each of a sequence of calls, with the stack pointers that they save. -/
def scheduleTrace : ProcTable → List Nat → List ProcTable
  | _, [] => []
  | t, esp :: esps => schedule t esp :: scheduleTrace (schedule t esp) esps

/-- The current process is the one that is running. -/
structure SoleRunner (t : ProcTable) (cur : Nat) : Prop where
  current : t.current = some cur
  cur_lt : cur < maxProcesses
  running : (t.proc cur).state = .running
  others : ∀ i < maxProcesses, i ≠ cur → (t.proc i).state ≠ .running

/-- A table that calls of `schedule` made of `t`: the current slot runs, and the other processes of
`t` that were ready or running are ready. -/
structure Round (t : ProcTable) (cur : Nat) (t' : ProcTable) : Prop where
  current : t'.current = some cur
  cur_lt : cur < maxProcesses
  live : t.live cur = true
  state : ∀ i < maxProcesses, (t'.proc i).state =
    if i = cur then .running else if t.live i then .ready else (t.proc i).state

theorem SoleRunner.round {t : ProcTable} {cur : Nat} (h : SoleRunner t cur) : Round t cur t := by
  refine ⟨h.current, h.cur_lt, by simp [ProcTable.live, h.running], ?_⟩
  intro i hi
  by_cases hcur : i = cur
  · rw [if_pos hcur, hcur, h.running]
  · have hother := h.others i hi hcur
    by_cases hready : (t.proc i).state = .ready
    · simp [ProcTable.live, hcur, hready]
    · simp [ProcTable.live, hcur, hready, hother]

theorem Round.sole {t t' : ProcTable} {cur : Nat} (h : Round t cur t') : SoleRunner t' cur := by
  refine ⟨h.current, h.cur_lt, by rw [h.state cur h.cur_lt, if_pos rfl], ?_⟩
  intro i hi hcur
  rw [h.state i hi, if_neg hcur]
  by_cases hlive : t.live i = true
  · simp [hlive]
  · simp [hlive]
    simp [ProcTable.live] at hlive
    exact hlive.2

theorem Round.ready_iff {t t' : ProcTable} {cur i : Nat} (h : Round t cur t')
    (hi : i < maxProcesses) : (t'.proc i).state = .ready ↔ i ≠ cur ∧ t.live i = true := by
  rw [h.state i hi]
  by_cases hcur : i = cur
  · simp [hcur]
  · by_cases hlive : t.live i = true
    · simp [hcur, hlive]
    · have hnot : (t.proc i).state ≠ .ready := by
        intro hready
        simp [ProcTable.live, hready] at hlive
      simp [hcur, hlive, hnot]

theorem Round.nextReady {t t' : ProcTable} {cur next : Nat} (h : Round t cur t')
    (hfind : (cycle maxProcesses cur).find? t.live = some next) :
    t'.nextReady cur = if next = cur then none else some next := by
  have hmem : ∀ i ∈ cycle maxProcesses cur, i < maxProcesses := fun i hi => (mem_cycle h.cur_lt).mp hi
  obtain ⟨hlive, before, after, hsplit, hbefore⟩ := List.find?_eq_some_iff_append.mp hfind
  have hquiet : ∀ i ∈ before, (t'.proc i).state ≠ .ready := by
    intro i hi
    rw [Ne, h.ready_iff (hmem i (by simp [hsplit, hi]))]
    simpa using fun _ => hbefore i hi
  change (cycle maxProcesses cur).find? _ = _
  by_cases hnext : next = cur
  · subst hnext
    rw [if_pos rfl, List.find?_eq_none]
    intro i hi
    rw [decide_eq_true_iff, h.ready_iff (hmem i hi)]
    exact fun hready => hready.1 (eq_of_find_cycle h.cur_lt hfind (hmem i hi) hready.2)
  · rw [if_neg hnext, List.find?_eq_some_iff_append]
    have hready := (h.ready_iff (hmem next (by simp [hsplit]))).mpr ⟨hnext, hlive⟩
    exact ⟨by simpa using hready, before, after, hsplit, by simpa using hquiet⟩

theorem Round.schedule {t t' : ProcTable} {cur next : Nat} (h : Round t cur t') (esp : Nat)
    (hfind : (cycle maxProcesses cur).find? t.live = some next) : Round t next (schedule t' esp) := by
  have hsearch := h.nextReady hfind
  by_cases hsame : next = cur
  · rw [if_pos hsame] at hsearch
    have hkeep : Magnos.schedule t' esp = t' := by
      simp only [Magnos.schedule, scheduleSelect, h.current, hsearch]
    rwa [hkeep, hsame]
  · rw [if_neg hsame] at hsearch
    have hswitch : Magnos.schedule t' esp = (t'.switchTo cur next).setProc cur
        { (t'.switchTo cur next).proc cur with esp := esp } := by
      simp only [Magnos.schedule, scheduleSelect, h.current, hsearch, if_neg hsame]
    have hmem := List.mem_of_find?_eq_some hfind
    have hlt : next < maxProcesses := (mem_cycle h.cur_lt).mp hmem
    refine ⟨?_, hlt, by simpa using List.find?_some hfind, ?_⟩
    · rw [hswitch]
      exact (t'.switched_rest cur next esp).1
    · intro i hi
      rw [hswitch, t'.switched_proc hsame h.sole.running]
      by_cases hnext : i = next
      · simp [hnext]
      · by_cases hcur : i = cur
        · subst hcur
          simp [hnext, h.live]
        · simpa [hnext, hcur] using h.state i hi

theorem Round.find {t t' : ProcTable} {cur : Nat} (h : Round t cur t') :
    ∃ next, (cycle maxProcesses cur).find? t.live = some next := by
  have hsome := List.find?_isSome.mpr ⟨cur, (mem_cycle h.cur_lt).mpr h.cur_lt, h.live⟩
  exact Option.isSome_iff_exists.mp hsome

theorem Round.trace {t : ProcTable} (esps : List Nat) {t' : ProcTable} {cur : Nat}
    (h : Round t cur t') :
    (scheduleTrace t' esps).map ProcTable.current =
        (visits t.live maxProcesses esps.length cur).map some ∧
      Round t ((visits t.live maxProcesses esps.length cur).getLastD cur)
        (esps.foldl Magnos.schedule t') := by
  induction esps generalizing t' cur with
  | nil => exact ⟨rfl, h⟩
  | cons esp esps ih =>
      obtain ⟨next, hfind⟩ := h.find
      have hstep := h.schedule esp hfind
      have hrest := ih hstep
      simp only [scheduleTrace, List.length_cons, visits, hfind, List.map_cons, List.foldl_cons,
        List.getLastD_cons]
      exact ⟨by rw [hstep.current, hrest.1], hrest.2⟩

theorem CreateCall.write_state (c : CreateCall) (t : ProcTable) (f : Process → Process)
    (hf : ∀ p, (f p).state = p.state) (i : Nat) :
    ((c.write t f).proc i).state = (t.proc i).state := by
  rw [c.write_proc]
  split
  · next h => rw [hf, h]
  · rfl

/-- What a statement of `process_create` does to the states, and what its call is about afterwards:
the slot it was about before, or one that it found unused. -/
theorem CreateCall.exec_states (src : PageSource Pages) (c : CreateCall) (t : ProcTable)
    (pages : Pages) :
    (c.exec src t pages).1.current = t.current ∧
      (∀ i, ((c.exec src t pages).1.proc i).state = (t.proc i).state ∨
        i = c.slot ∧ (∀ j, c.pc ≠ .search j) ∧ ((c.exec src t pages).1.proc i).state = .ready) ∧
      ∀ x, (c.exec src t pages).2.2 = some x → (∃ j, x.pc = .search j) ∨
        (∀ j, c.pc ≠ .search j) ∧ x.slot = c.slot ∨ (t.proc x.slot).state = .unused := by
  cases hpc : c.pc with
  | search j =>
      simp only [CreateCall.exec, hpc]
      by_cases hj : j < maxProcesses
      · by_cases hunused : (t.proc j).state = .unused
        · simp [hj, hunused]
        · simp [hj, hunused]
      · simp [hj]
  | setState =>
      simp only [CreateCall.exec, hpc, c.write_proc]
      refine ⟨rfl, ?_, by simp⟩
      intro i
      by_cases hi : i = c.slot
      · simp [hi]
      · simp [hi]
  | testPage =>
      simp only [CreateCall.exec, hpc]
      by_cases hzero : c.page = 0
      · simp [hzero]
      · simp [hzero]
  | setPid | setKernelStack | setEip | setPageDirectory | setEsp | endName _ =>
      simp only [CreateCall.exec, hpc]
      refine ⟨rfl, fun i => .inl (c.write_state t _ ?_ i), by simp⟩
      intro p
      rfl
  | _ => simp [CreateCall.exec, hpc]

/-- One process runs, and no call of `process_create` is about the slot of its own process. -/
structure OneRunner (s : Preempt Pages) (cur : Nat) : Prop where
  sole : SoleRunner s.table cur
  slot : ∀ m c, s.call m = some c → (∃ j, c.pc = .search j) ∨ c.slot ≠ m

theorem OneRunner.boot (start : ProcTable) (pages : Pages) :
    OneRunner (Preempt.boot start pages) 0 := by
  obtain ⟨-, hcurrent, hrunning, -, hunused⟩ := processInit_spec start
  refine ⟨⟨hcurrent, by decide, hrunning, ?_⟩, by simp [Preempt.boot]⟩
  intro i hi hne
  have hfree : ((Preempt.boot start pages).table.proc i).state = .unused :=
    hunused i (Nat.pos_of_ne_zero hne) hi
  simp [hfree]

theorem OneRunner.advance {s : Preempt Pages} {cur : Nat} (h : OneRunner s cur) {c : CreateCall}
    (hc : s.call cur = some c) : OneRunner (s.exec src cur c) cur := by
  obtain ⟨hcurrent, hstates, hcall⟩ := c.exec_states src s.table s.pages
  have hslot : (∃ j, c.pc = .search j) ∨ c.slot ≠ cur := h.slot cur c hc
  have htable : (s.exec src cur c).table = (c.exec src s.table s.pages).1 := by
    simp only [Preempt.exec]
    split <;> rfl
  refine ⟨?_, ?_⟩
  · rw [htable]
    refine ⟨hcurrent.trans h.sole.current, h.sole.cur_lt, ?_, ?_⟩
    · rcases hstates cur with hsame | ⟨hcur, hpc, -⟩
      · rw [hsame, h.sole.running]
      · rcases hslot with ⟨j, hj⟩ | hne
        · exact absurd hj (hpc j)
        · exact absurd hcur.symm hne
    · intro i hi hne
      rcases hstates i with hsame | ⟨-, -, hready⟩
      · rw [hsame]
        exact h.sole.others i hi hne
      · simp [hready]
  · intro m x hx
    have hupdate : Function.update s.call cur (c.exec src s.table s.pages).2.2 m = some x := by
      simp only [Preempt.exec] at hx
      split at hx
      · rcases update_eq_some hx with ⟨-, hnone⟩ | ⟨-, hold⟩
        · cases hnone
        · exact hold
      · exact hx
    rcases update_eq_some hupdate with ⟨rfl, hnew⟩ | ⟨-, hold⟩
    · rcases hcall x hnew with hsearch | ⟨hpc, hkeep⟩ | hunused
      · exact .inl hsearch
      · rcases hslot with ⟨j, hj⟩ | hne
        · exact absurd hj (hpc j)
        · exact .inr (hkeep ▸ hne)
      · refine .inr ?_
        rintro rfl
        rw [h.sole.running] at hunused
        cases hunused
    · exact h.slot m x hold

theorem OneRunner.tick {s : Preempt Pages} {cur : Nat} (h : OneRunner s cur) (esp : Nat) :
    ∃ next, OneRunner (s.tick esp) next := by
  obtain ⟨next, hfind⟩ := h.sole.round.find
  have hsole := (h.sole.round.schedule esp hfind).sole
  have hsame : (s.tick esp).table = schedule s.table esp ∧ (s.tick esp).call = s.call := by
    rcases hselect : scheduleSelect s.table with ⟨_ | ⟨old, new⟩, t⟩ <;>
      simp [Preempt.tick, schedule, hselect]
  refine ⟨next, ?_, ?_⟩
  · rw [hsame.1]
    exact hsole
  · rw [hsame.2]
    exact h.slot

theorem OneRunner.step {s s' : Preempt Pages} {op : PreemptOp} (hinv : ∃ cur, OneRunner s cur)
    (hstep : preemptStep src s op s') : ∃ cur, OneRunner s' cur := by
  obtain ⟨cur, h⟩ := hinv
  cases op with
  | call name entry =>
      obtain ⟨m, hm, -, rfl⟩ := hstep
      refine ⟨cur, h.sole, ?_⟩
      intro k c hc
      rcases update_eq_some hc with ⟨-, hnew⟩ | ⟨-, hold⟩
      · obtain rfl := Option.some.inj hnew
        exact .inl ⟨0, rfl⟩
      · exact h.slot k c hold
  | advance =>
      obtain ⟨m, c, hm, hc, rfl⟩ := hstep
      obtain rfl := Option.some.inj (h.sole.current.symm.trans hm)
      exact ⟨cur, h.advance hc⟩
  | tick esp =>
      obtain rfl := hstep
      exact h.tick esp

theorem preemptRun_sole {start : ProcTable} {pages : Pages} {ops : List PreemptOp}
    {s : Preempt Pages} (hrun : Run (preemptStep src) (Preempt.boot start pages) ops s) :
    ∃ cur, SoleRunner s.table cur := by
  have hinv : ∃ cur, OneRunner s cur :=
    hrun.invariant (fun _ _ _ h hstep => OneRunner.step h hstep) ⟨0, .boot start pages⟩
  obtain ⟨cur, h⟩ := hinv
  exact ⟨cur, h.sole⟩

/-- In every reachable table, as many calls of `schedule` as there are live processes make each of
them current once, in cyclic order, and end with the states of the start. -/
theorem schedule_round (src : PageSource Pages) (start : ProcTable) (pages : Pages)
    (ops : List PreemptOp) (s : Preempt Pages)
    (hrun : Run (preemptStep src) (Preempt.boot start pages) ops s) (esps : List Nat)
    (hround : esps.length = s.table.liveSlots.length) :
    ∃ cur, s.table.current = some cur ∧
      (scheduleTrace s.table esps).map ProcTable.current = (s.table.liveFrom cur).map some ∧
      (s.table.liveFrom cur).Perm s.table.liveSlots ∧
      (esps.foldl schedule s.table).current = some cur ∧
      ∀ i < maxProcesses, ((esps.foldl schedule s.table).proc i).state = (s.table.proc i).state := by
  obtain ⟨cur, hsole⟩ := preemptRun_sole hrun
  have hperm : (s.table.liveFrom cur).Perm s.table.liveSlots := (cycle_perm hsole.cur_lt).filter _
  have hvisits : visits s.table.live maxProcesses esps.length cur = s.table.liveFrom cur := by
    rw [hround, ← hperm.length_eq]
    exact visits_cycle s.table.live hsole.cur_lt
  have htrace := hsole.round.trace esps
  rw [hvisits] at htrace
  have hlast : (s.table.liveFrom cur).getLastD cur = cur := by
    obtain ⟨init, hinit⟩ := cycle_last hsole.cur_lt
    simp [ProcTable.liveFrom, hinit, hsole.round.live]
  rw [hlast] at htrace
  refine ⟨cur, hsole.current, htrace.1, hperm, htrace.2.current, ?_⟩
  intro i hi
  exact (htrace.2.state i hi).trans (hsole.round.state i hi).symm

/-- A round after the first `process_create`. -/
theorem schedule_round_created : ∃ ops s esps,
    Run (preemptStep pmmPool) (Preempt.boot zeroTable bootPool) ops s ∧
      (scheduleSelect s.table).1 = some (0, 1) ∧ esps.length = s.table.liveSlots.length ∧
      ∃ cur, s.table.current = some cur ∧
        (scheduleTrace s.table esps).map ProcTable.current = (s.table.liveFrom cur).map some ∧
        (esps.foldl schedule s.table).current = some cur := by
  obtain ⟨-, ops, s, hsealed, hselect, -⟩ :=
    run_firstCreate pmmPool bootPool bootPool_alloc_ne_zero [] 0x8000
  have hrun : Run (preemptStep pmmPool) (Preempt.boot zeroTable bootPool) ops s :=
    hsealed.mono fun _ _ _ h => h.2
  have hlength : (List.replicate s.table.liveSlots.length 0).length = s.table.liveSlots.length :=
    List.length_replicate
  obtain ⟨cur, hcurrent, htrace, -, hend, -⟩ :=
    schedule_round pmmPool zeroTable bootPool ops s hrun _ hlength
  exact ⟨ops, s, _, hrun, hselect, hlength, cur, hcurrent, htrace, hend⟩

end Magnos
