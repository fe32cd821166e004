import Magnos.Framework.Transition
import Magnos.Framework.Word32

/-!
# Timer ticks and `sleep_ms`

`sleep_ms` computes the tick at which it ends and halts until the counter reaches it.  Interrupts
arrive between any two of its steps; a tick in the middle of `hlt` wakes it, and one between the
test of the loop and the `hlt` is seen only after the next interrupt.  A sleep is as long as it
should be if its target does not wrap and its last tick is not of that kind.
-/

namespace Magnos

open Framework

/-- IRQ0 in `isr_handler`: the new tick count, and whether the scheduler is called. -/
def timerIrq (pitTicks : UInt32) : UInt32 × Bool :=
  (pitTicks + 1, (pitTicks + 1) % 10 = 0)

def getUptimeMs (pitTicks : UInt32) : UInt32 := pitTicks * 10

/-- `ticks_to_wait` of `sleep_ms`. -/
def ticksToWait (ms : UInt32) : UInt32 :=
  let ticks := ms / 10
  if ticks = 0 then 1 else ticks

/-- Where a call of `sleep_ms` is: at the test of its loop, at the `hlt`, waiting in it, or back at
its caller. -/
inductive SleepPc where
  | test
  | hlt
  | waiting
  | returned
deriving DecidableEq

structure SleepState where
  pitTicks : UInt32
  target : UInt32
  pc : SleepPc

/-- The call at tick `t0`, with its locals computed. -/
def sleepMs (t0 ms : UInt32) : SleepState := ⟨t0, t0 + ticksToWait ms, .test⟩

inductive SleepEvent where
  | tick
  | irq
  | step
deriving DecidableEq

/-- An interrupt ends `hlt` and leaves the call otherwise where it is. -/
def SleepState.wake (s : SleepState) : SleepState :=
  { s with pc := if s.pc = .waiting then .test else s.pc }

def SleepState.exec (s : SleepState) : SleepState :=
  match s.pc with
  | .test => { s with pc := if s.pitTicks < s.target then .hlt else .returned }
  | .hlt => { s with pc := .waiting }
  | _ => s

/-- A call that has not returned takes a timer interrupt, another interrupt or a step of its own. -/
inductive sleepStep : SleepState → SleepEvent → SleepState → Prop
  | tick (s : SleepState) : s.pc ≠ .returned →
      sleepStep s .tick { s.wake with pitTicks := (timerIrq s.pitTicks).1 }
  | irq (s : SleepState) : s.pc ≠ .returned → sleepStep s .irq s.wake
  | step (s : SleepState) : s.pc = .test ∨ s.pc = .hlt → sleepStep s .step s.exec

/-- Ticks that the call notices in time: the last one it waits for is not between the test and the
`hlt`, and no further one comes before the test that ends the loop. -/
def TickNoticed (s : SleepState) (e : SleepEvent) : Prop :=
  e = .tick → match s.pc with
    | .test => s.pitTicks.toNat < s.target.toNat
    | .hlt => s.pitTicks.toNat + 1 < s.target.toNat
    | .waiting => True
    | .returned => True

theorem toNat_ticksToWait (ms : UInt32) : (ticksToWait ms).toNat = max 1 (ms.toNat / 10) := by
  have hdiv : (ms / 10).toNat = ms.toNat / 10 := by simp
  unfold ticksToWait
  by_cases hzero : ms / 10 = 0
  · rw [hzero] at hdiv
    simp [hzero]
    simp at hdiv
    omega
  · have hne : (ms / 10).toNat ≠ 0 := fun h => hzero (UInt32.toNat_inj.mp h)
    simp only [hzero, if_false]
    omega

/-- What a sleep is about: the counter holds the ticks since the call, the target is fixed. -/
structure SleepInv (t0 w : Nat) (events : List SleepEvent) (s : SleepState) : Prop where
  ticks : s.pitTicks.toNat = (t0 + events.count .tick) % 2 ^ 32
  target : s.target.toNat = t0 + w
  early : s.pc = .returned → w ≤ events.count .tick

theorem SleepInv.step {t0 w : Nat} {events : List SleepEvent} {s t : SleepState} {e : SleepEvent}
    (hinv : SleepInv t0 w events s) (hstep : sleepStep s e t) :
    SleepInv t0 w (events ++ [e]) t := by
  have hticks := hinv.ticks
  have htarget := hinv.target
  cases hstep with
  | tick hpc =>
      refine ⟨?_, htarget, ?_⟩
      · simp [timerIrq, hticks]
        omega
      · simp only [SleepState.wake]
        split <;> simp_all
  | irq hpc =>
      refine ⟨by simpa [SleepState.wake] using hticks, htarget, ?_⟩
      simp only [SleepState.wake]
      split <;> simp_all
  | step hpc =>
      rcases hpc with hpc | hpc
      · refine ⟨by simpa [SleepState.exec, hpc] using hticks,
          by simpa [SleepState.exec, hpc] using htarget, ?_⟩
        simp only [SleepState.exec, hpc, UInt32.lt_iff_toNat_lt, hticks, htarget]
        split
        · simp
        · simp
          omega
      · simp only [SleepState.exec, hpc]
        exact ⟨by simpa using hticks, htarget, by simp⟩

section NoWrap

variable {t0 ms : UInt32} {events : List SleepEvent} {s : SleepState}

theorem SleepInv.start (hfits : t0.toNat + max 1 (ms.toNat / 10) < 2 ^ 32) :
    SleepInv t0.toNat (max 1 (ms.toNat / 10)) [] (sleepMs t0 ms) where
  ticks := by simp [sleepMs, Nat.mod_eq_of_lt t0.toNat_lt]
  target := by
    rw [← toNat_ticksToWait] at hfits ⊢
    simp only [sleepMs, UInt32.toNat_add]
    exact Nat.mod_eq_of_lt hfits
  early := by simp [sleepMs]

theorem sleep_inv (hfits : t0.toNat + max 1 (ms.toNat / 10) < 2 ^ 32)
    (hrun : Run sleepStep (sleepMs t0 ms) events s) :
    SleepInv t0.toNat (max 1 (ms.toNat / 10)) events s := by
  induction hrun with
  | nil => exact .start hfits
  | snoc _ hlast ih => exact ih.step hlast

theorem SleepInv.returns {t0 w : Nat} (hinv : SleepInv t0 w events s) (hpc : s.pc = .test)
    (hcount : t0 + events.count .tick < 2 ^ 32) (hw : w ≤ events.count .tick) :
    sleepStep s .step { s with pc := .returned } := by
  have hticks := hinv.ticks
  have htarget := hinv.target
  rw [Nat.mod_eq_of_lt hcount] at hticks
  have hdone : ¬ s.pitTicks < s.target := by
    rw [UInt32.lt_iff_toNat_lt]
    omega
  have hexec : s.exec = { s with pc := .returned } := by simp [SleepState.exec, hpc, hdone]
  rw [← hexec]
  exact .step s (.inl hpc)

/-- Where the call is, as long as it notices the ticks in time. -/
structure SleepProgress (w : Nat) (events : List SleepEvent) (s : SleepState) : Prop where
  atMost : events.count .tick ≤ w
  before : s.pc = .hlt ∨ s.pc = .waiting → events.count .tick < w
  exact : s.pc = .returned → events.count .tick = w

theorem SleepProgress.tick {t0 w : Nat} (hprog : SleepProgress w events s)
    (hinv : SleepInv t0 w events s) (hfits : t0 + w < 2 ^ 32) (hpc : s.pc ≠ .returned)
    (hnoticed : TickNoticed s .tick) :
    SleepProgress w (events ++ [.tick]) { s.wake with pitTicks := (timerIrq s.pitTicks).1 } := by
  have hatMost := hprog.atMost
  have hticks := hinv.ticks
  have htarget := hinv.target
  have hcount : (events ++ [SleepEvent.tick]).count .tick = events.count .tick + 1 := by simp
  rw [Nat.mod_eq_of_lt (by omega)] at hticks
  have hnoticed := hnoticed rfl
  cases hcase : s.pc with
  | test =>
      rw [hcase] at hnoticed
      dsimp only at hnoticed
      refine ⟨by omega, ?_, ?_⟩
      · simp [SleepState.wake, hcase]
      · simp [SleepState.wake, hcase]
  | hlt =>
      rw [hcase] at hnoticed
      dsimp only at hnoticed
      refine ⟨by omega, fun _ => by omega, ?_⟩
      simp [SleepState.wake, hcase]
  | waiting =>
      have hlt := hprog.before (.inr hcase)
      refine ⟨by omega, ?_, ?_⟩
      · simp [SleepState.wake, hcase]
      · simp [SleepState.wake, hcase]
  | returned => exact absurd hcase hpc

theorem SleepProgress.step {t0 w : Nat} {t : SleepState} {e : SleepEvent}
    (hprog : SleepProgress w events s) (hinv : SleepInv t0 w events s) (hfits : t0 + w < 2 ^ 32)
    (hstep : guarded TickNoticed sleepStep s e t) : SleepProgress w (events ++ [e]) t := by
  have hatMost := hprog.atMost
  have hbefore := hprog.before
  cases hstep.2 with
  | tick hpc => exact hprog.tick hinv hfits hpc hstep.1
  | irq hpc =>
      refine ⟨by simpa using hatMost, ?_, ?_⟩
      · simp only [SleepState.wake]
        split <;> simp_all
      · simp only [SleepState.wake]
        split <;> simp_all
  | step hpc =>
      have hticks := hinv.ticks
      have htarget := hinv.target
      rw [Nat.mod_eq_of_lt (by omega)] at hticks
      rcases hpc with hpc | hpc
      · refine ⟨by simpa using hatMost, ?_, ?_⟩
        · simp only [SleepState.exec, hpc, UInt32.lt_iff_toNat_lt, hticks, htarget]
          split
          · simp
            omega
          · simp
        · simp only [SleepState.exec, hpc, UInt32.lt_iff_toNat_lt, hticks, htarget]
          split
          · simp
          · simp
            omega
      · have hlt := hbefore (.inl hpc)
        refine ⟨by simpa using hatMost, ?_, ?_⟩
        · simpa [SleepState.exec, hpc] using hlt
        · simp [SleepState.exec, hpc]

theorem sleep_progress (hfits : t0.toNat + max 1 (ms.toNat / 10) < 2 ^ 32)
    (hrun : Run (guarded TickNoticed sleepStep) (sleepMs t0 ms) events s) :
    SleepInv t0.toNat (max 1 (ms.toNat / 10)) events s ∧
      SleepProgress (max 1 (ms.toNat / 10)) events s := by
  induction hrun with
  | nil => exact ⟨.start hfits, by simp, by simp [sleepMs], by simp [sleepMs]⟩
  | snoc _ hlast ih => exact ⟨ih.1.step hlast.2, ih.2.step ih.1 hfits hlast⟩

end NoWrap

/-- A sleep of `max 1 (ms / 10)` ticks after the events of a run: the call returns with as many
ticks, at its first step after the last of them, and the uptime has moved by as much. -/
structure SleepExact (t0 ms : UInt32) (events : List SleepEvent) (s : SleepState) : Prop where
  atMost : events.count .tick ≤ max 1 (ms.toNat / 10)
  ticks : s.pc = .returned → events.count .tick = max 1 (ms.toNat / 10)
  returns : s.pc ≠ .returned → events.count .tick = max 1 (ms.toNat / 10) →
    sleepStep s .step { s with pc := .returned }
  uptime : s.pc = .returned →
    (getUptimeMs s.pitTicks - getUptimeMs t0).toNat = 10 * max 1 (ms.toNat / 10) % 2 ^ 32

/-- The sleep is exact however the interrupts fall. -/
def SleepsExactly (t0 ms : UInt32) : Prop :=
  ∀ events s, Run sleepStep (sleepMs t0 ms) events s → SleepExact t0 ms events s

theorem uptime_difference {t0 t : UInt32} {w : Nat} (ht : t.toNat = (t0.toNat + w) % 2 ^ 32) :
    (getUptimeMs t - getUptimeMs t0).toNat = 10 * w % 2 ^ 32 := by
  simp only [getUptimeMs, UInt32.toNat_sub, UInt32.toNat_mul, UInt32.reduceToNat, ht]
  omega

section Noticed

variable {t0 ms : UInt32} {events : List SleepEvent} {s : SleepState}

theorem sleepExact_of_noticed (hfits : t0.toNat + max 1 (ms.toNat / 10) < 2 ^ 32)
    (hrun : Run (guarded TickNoticed sleepStep) (sleepMs t0 ms) events s) :
    SleepExact t0 ms events s := by
  have hinv := (sleep_progress hfits hrun).1
  have hprog := (sleep_progress hfits hrun).2
  refine ⟨hprog.atMost, hprog.exact, ?_, ?_⟩
  · intro hpc hcount
    have htest : s.pc = .test := by
      cases hcase : s.pc with
      | test => rfl
      | hlt => exact absurd (hprog.before (.inl hcase)) (by omega)
      | waiting => exact absurd (hprog.before (.inr hcase)) (by omega)
      | returned => exact absurd hcase hpc
    exact hinv.returns htest (by omega) (by omega)
  · intro hpc
    have hticks := hinv.ticks
    rw [hprog.exact hpc] at hticks
    exact uptime_difference hticks

theorem tickNoticed_of_exact (hfits : t0.toNat + max 1 (ms.toNat / 10) < 2 ^ 32)
    (hrun : Run (guarded TickNoticed sleepStep) (sleepMs t0 ms) events s)
    (hexact : SleepExact t0 ms (events ++ [.tick])
      { s.wake with pitTicks := (timerIrq s.pitTicks).1 }) : TickNoticed s .tick := by
  have hinv := (sleep_progress hfits hrun).1
  have hprog := (sleep_progress hfits hrun).2
  have hticks := hinv.ticks
  have htarget := hinv.target
  have hatMost := hprog.atMost
  have hbound := hexact.atMost
  rw [Nat.mod_eq_of_lt (by omega)] at hticks
  rw [List.count_append, List.count_singleton_self] at hbound
  intro _
  cases hcase : s.pc with
  | test =>
      dsimp only
      omega
  | hlt =>
      -- the last tick here leaves the call at its `hlt`, and the next step is not a return
      dsimp only
      by_contra hlast
      have hstep := hexact.returns (by simp [SleepState.wake, hcase]) (by
        rw [List.count_append, List.count_singleton_self]
        omega)
      generalize hnext : ({ s.wake with pitTicks := (timerIrq s.pitTicks).1, pc := .returned } :
        SleepState) = next at hstep
      cases hstep with
      | step _ => simp [SleepState.exec, SleepState.wake, hcase] at hnext
  | waiting => trivial
  | returned => trivial

end Noticed

theorem sleep_wraps {t0 ms : UInt32} (hwraps : 2 ^ 32 ≤ t0.toNat + max 1 (ms.toNat / 10)) :
    sleepStep (sleepMs t0 ms) .step { sleepMs t0 ms with pc := .returned } := by
  have htarget : (t0 + ticksToWait ms).toNat < t0.toNat := by
    have hw := (ticksToWait ms).toNat_lt
    rw [← toNat_ticksToWait] at hwraps
    rw [UInt32.toNat_add]
    omega
  have hpassed : ¬ t0 < t0 + ticksToWait ms := by
    rw [UInt32.lt_iff_toNat_lt]
    omega
  have hexec : (sleepMs t0 ms).exec = { sleepMs t0 ms with pc := .returned } := by
    simp [sleepMs, SleepState.exec, hpassed]
  rw [← hexec]
  exact .step _ (.inl rfl)

theorem not_sleepExact_step (t0 ms : UInt32) :
    ¬ SleepExact t0 ms [.step] { sleepMs t0 ms with pc := .returned } := by
  intro hexact
  have hticks := hexact.ticks rfl
  simp at hticks
  omega

/-- Every sleep whose ticks are noticed in time is exact, unless its target wraps; where a tick is
not, the sleep is not exact any more.  Without a wrap it never ends early, however the interrupts
fall, and ends at its first test after the last tick; with one it returns at once. -/
theorem sleepMs_exact_iff (t0 ms : UInt32) :
    ((∀ events s, Run (guarded TickNoticed sleepStep) (sleepMs t0 ms) events s →
      SleepExact t0 ms events s) ↔ t0.toNat + max 1 (ms.toNat / 10) < 2 ^ 32) ∧
    (t0.toNat + max 1 (ms.toNat / 10) < 2 ^ 32 →
      ∀ events s t, Run (guarded TickNoticed sleepStep) (sleepMs t0 ms) events s →
        sleepStep s .tick t → (SleepExact t0 ms (events ++ [.tick]) t ↔ TickNoticed s .tick)) ∧
    (t0.toNat + max 1 (ms.toNat / 10) < 2 ^ 32 →
      ∀ events s, Run sleepStep (sleepMs t0 ms) events s →
        (s.pc = .returned → max 1 (ms.toNat / 10) ≤ events.count .tick) ∧
        (s.pc = .test → t0.toNat + events.count .tick < 2 ^ 32 →
          max 1 (ms.toNat / 10) ≤ events.count .tick →
          sleepStep s .step { s with pc := .returned })) ∧
    (2 ^ 32 ≤ t0.toNat + max 1 (ms.toNat / 10) →
      sleepStep (sleepMs t0 ms) .step { sleepMs t0 ms with pc := .returned }) := by
  refine ⟨⟨?_, fun hfits events s => sleepExact_of_noticed hfits⟩, ?_, ?_, sleep_wraps⟩
  · intro hexact
    by_contra hwraps
    have hguard : TickNoticed (sleepMs t0 ms) .step := by simp [TickNoticed]
    have hrun : Run (guarded TickNoticed sleepStep) (sleepMs t0 ms) ([] ++ [.step])
        { sleepMs t0 ms with pc := .returned } :=
      .snoc (.nil _) ⟨hguard, sleep_wraps (by omega)⟩
    exact not_sleepExact_step t0 ms (hexact _ _ hrun)
  · intro hfits events s t hrun hstep
    constructor
    · intro hexact
      cases hstep with
      | tick _ => exact tickNoticed_of_exact hfits hrun hexact
    · intro hnoticed
      exact sleepExact_of_noticed hfits (.snoc hrun ⟨hnoticed, hstep⟩)
  · intro hfits events s hrun
    have hinv := sleep_inv hfits hrun
    exact ⟨hinv.early, fun hpc hcount hw => hinv.returns hpc hcount hw⟩

/-- A sleep of one tick: at the last value of the counter it ends without a tick, and at zero with
two of them if the first one comes between the test and the `hlt`. -/
theorem sleepMs_not_exact :
    (¬ SleepsExactly 0xFFFFFFFF 10 ∧
      ∃ s, Run sleepStep (sleepMs 0xFFFFFFFF 10) [.step] s ∧ s.pc = .returned) ∧
    (¬ SleepsExactly 0 10 ∧
      ∃ s, Run sleepStep (sleepMs 0 10) [.step, .tick, .step, .tick, .step] s ∧
        s.pc = .returned) := by
  have hearly : Run sleepStep (sleepMs 0xFFFFFFFF 10) [.step] ⟨0xFFFFFFFF, 0, .returned⟩ :=
    .snoc (.nil _) (.step _ (.inl rfl))
  have hlate : Run sleepStep (sleepMs 0 10) [.step, .tick, .step, .tick, .step]
      ⟨2, 1, .returned⟩ :=
    .snoc (.snoc (.snoc (.snoc (.snoc (.nil _) (.step _ (.inl rfl)))
      (.tick ⟨0, 1, .hlt⟩ (by decide)))
      (.step ⟨1, 1, .hlt⟩ (.inr rfl))) (.tick ⟨1, 1, .waiting⟩ (by decide)))
      (.step ⟨2, 1, .test⟩ (.inl rfl))
  refine ⟨⟨?_, _, hearly, rfl⟩, ?_, _, hlate, rfl⟩
  · intro hexact
    exact absurd ((hexact _ _ hearly).ticks rfl) (by decide)
  · intro hexact
    exact absurd ((hexact _ _ hlate).ticks rfl) (by decide)

end Magnos
