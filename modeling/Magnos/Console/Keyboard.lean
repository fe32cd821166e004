import Magnos.Framework.RingBuffer
import Magnos.Framework.Transition

/-!
# Keyboard buffer

The interrupt handler of `keyboard.c` puts translated characters into a ring of 256 slots and
`keyboard_getchar` takes them out.  The handler may run between any two statements of a call; it
writes the head and the slot there, and the call writes only the tail.
-/

namespace Magnos

open Framework

def ascii (c : Char) : UInt8 := .ofNat c.toNat

/-- `scancode_to_ascii`. -/
def scancodeToAscii : List UInt8 :=
  [0, 0, ascii '1', ascii '2', ascii '3', ascii '4', ascii '5', ascii '6',
    ascii '7', ascii '8', ascii '9', ascii '0', ascii '-', ascii '=', 0, 0x09,
    ascii 'q', ascii 'w', ascii 'e', ascii 'r', ascii 't', ascii 'y', ascii 'u', ascii 'i',
    ascii 'o', ascii 'p', ascii '[', ascii ']', 0x0A, 0, ascii 'a', ascii 's',
    ascii 'd', ascii 'f', ascii 'g', ascii 'h', ascii 'j', ascii 'k', ascii 'l', ascii ';',
    0x27, 0x60, 0, 0x5C, ascii 'z', ascii 'x', ascii 'c', ascii 'v',
    ascii 'b', ascii 'n', ascii 'm', ascii ',', ascii '.', ascii '/', 0, ascii '*',
    0, ascii ' ', 0, 0, 0, 0, 0, 0,
    0, 0, 0, 0, 0, 0, 0, ascii '7',
    ascii '8', ascii '9', ascii '-', ascii '4', ascii '5', ascii '6', ascii '+', ascii '1',
    ascii '2', ascii '3', ascii '0', ascii '.', 0, 0, 0, 0]

/-- `scancode_to_ascii_shift`. -/
def scancodeToAsciiShift : List UInt8 :=
  [0, 0, ascii '!', ascii '@', ascii '#', ascii '$', ascii '%', ascii '^',
    ascii '&', ascii '*', ascii '(', ascii ')', ascii '_', ascii '+', 0, 0x09,
    ascii 'Q', ascii 'W', ascii 'E', ascii 'R', ascii 'T', ascii 'Y', ascii 'U', ascii 'I',
    ascii 'O', ascii 'P', 0x7B, 0x7D, 0x0A, 0, ascii 'A', ascii 'S',
    ascii 'D', ascii 'F', ascii 'G', ascii 'H', ascii 'J', ascii 'K', ascii 'L', ascii ':',
    0x22, ascii '~', 0, ascii '|', ascii 'Z', ascii 'X', ascii 'C', ascii 'V',
    ascii 'B', ascii 'N', ascii 'M', ascii '<', ascii '>', ascii '?', 0, ascii '*',
    0, ascii ' ', 0, 0, 0, 0, 0, 0,
    0, 0, 0, 0, 0, 0, 0, ascii '7',
    ascii '8', ascii '9', ascii '-', ascii '4', ascii '5', ascii '6', ascii '+', ascii '1',
    ascii '2', ascii '3', ascii '0', ascii '.', 0, 0, 0, 0]

/-- The modifier keys. -/
structure Modifiers where
  shiftPressed : Bool
  ctrlPressed : Bool
  altPressed : Bool
  capslockOn : Bool
deriving DecidableEq

def keyRelease : UInt8 := 0x80

def keyEscape : UInt8 := 0x01

def keyBackspace : UInt8 := 0x0E

def keyLctrl : UInt8 := 0x1D

def keyLshift : UInt8 := 0x2A

def keyRshift : UInt8 := 0x36

def keyLalt : UInt8 := 0x38

def keyCapslock : UInt8 := 0x3A

/-- The character of a scancode, zero for modifiers and releases, and the modifiers after it. -/
def translateScancode (m : Modifiers) (scancode : UInt8) : UInt8 × Modifiers :=
  if scancode &&& keyRelease ≠ 0 then
    let released := scancode &&& ~~~keyRelease
    if released = keyLshift ∨ released = keyRshift then (0, { m with shiftPressed := false })
    else if released = keyLctrl then (0, { m with ctrlPressed := false })
    else if released = keyLalt then (0, { m with altPressed := false })
    else (0, m)
  else if scancode = keyLshift ∨ scancode = keyRshift then (0, { m with shiftPressed := true })
  else if scancode = keyLctrl then (0, { m with ctrlPressed := true })
  else if scancode = keyLalt then (0, { m with altPressed := true })
  else if scancode = keyCapslock then (0, { m with capslockOn := !m.capslockOn })
  else if scancode = keyBackspace then (0x08, m)
  else if scancode = keyEscape then (27, m)
  else if scancode.toNat < scancodeToAscii.length then
    let useShift :=
      if 0x10 ≤ scancode ∧ scancode ≤ 0x19 ∨ 0x1E ≤ scancode ∧ scancode ≤ 0x26 ∨
          0x2C ≤ scancode ∧ scancode ≤ 0x32 then m.shiftPressed ^^ m.capslockOn
      else m.shiftPressed
    (if useShift then scancodeToAsciiShift.getD scancode.toNat 0
      else scancodeToAscii.getD scancode.toNat 0, m)
  else (0, m)

def kbBufferSize : Nat := 256

/-- The statics of `keyboard.c`. -/
structure Keyboard where
  mods : Modifiers
  ring : RingBuffer UInt8

/-- `keyboard_init` clears the modifiers and the indices, not the buffer. -/
def keyboardInit (s : Keyboard) : Keyboard :=
  ⟨⟨false, false, false, false⟩, { s.ring with head := 0, tail := 0 }⟩

/-- What the interrupt handler did with a scancode. -/
inductive KeyOutcome where
  | ignored
  | accepted (c : UInt8)
  | dropped (c : UInt8)
deriving DecidableEq

def keyboardIrqHandler (s : Keyboard) (scancode : UInt8) : KeyOutcome × Keyboard :=
  let (c, mods) := translateScancode s.mods scancode
  let s := { s with mods := mods }
  if c ≠ 0 then
    if (s.ring.head + 1) % kbBufferSize ≠ s.ring.tail then
      (.accepted c, { s with ring := s.ring.put kbBufferSize c })
    else (.dropped c, s)
  else (.ignored, s)

/-- The next character of the buffer, zero if there is none. -/
def keyboardGetchar (s : Keyboard) : UInt8 × Keyboard :=
  if s.ring.tail = s.ring.head then (0, s)
  else (s.ring.slot s.ring.tail, { s with ring := s.ring.advance kbBufferSize })

/-- The next statement of `keyboard_getchar`, with its local; `idle` is between calls. -/
inductive GetcharPc where
  | idle
  | test
  | load
  | update (c : UInt8)
  | ret (c : UInt8)
deriving DecidableEq

structure KeyState where
  kb : Keyboard
  pc : GetcharPc

inductive KeyEvent where
  | irq (scancode : UInt8) (outcome : KeyOutcome)
  | call
  | test
  | load
  | update
  | ret (c : UInt8)
deriving DecidableEq

def keyStep (s : KeyState) : KeyEvent → KeyState → Prop
  | .irq scancode outcome, s' =>
      keyboardIrqHandler s.kb scancode = (outcome, s'.kb) ∧ s'.pc = s.pc
  | .call, s' => s.pc = .idle ∧ s' = { s with pc := .test }
  | .test, s' => s.pc = .test ∧
      s' = { s with pc := if s.kb.ring.tail = s.kb.ring.head then .ret 0 else .load }
  | .load, s' => s.pc = .load ∧ s' = { s with pc := .update (s.kb.ring.slot s.kb.ring.tail) }
  | .update, s' => ∃ c, s.pc = .update c ∧
      s' = { kb := { s.kb with ring := s.kb.ring.advance kbBufferSize }, pc := .ret c }
  | .ret c, s' => s.pc = .ret c ∧ s' = { s with pc := .idle }

theorem keyboardGetchar_run (kb : Keyboard) : ∃ events,
    Run keyStep ⟨kb, .idle⟩ (events ++ [.ret (keyboardGetchar kb).1])
      ⟨(keyboardGetchar kb).2, .idle⟩ := by
  have hcall : Run keyStep ⟨kb, .idle⟩ [.call] ⟨kb, .test⟩ := .snoc (.nil _) ⟨rfl, rfl⟩
  have htest := Run.snoc (l := KeyEvent.test) hcall ⟨rfl, rfl⟩
  unfold keyboardGetchar
  by_cases hempty : kb.ring.tail = kb.ring.head
  · rw [if_pos hempty] at htest ⊢
    exact ⟨_, .snoc htest ⟨rfl, rfl⟩⟩
  · rw [if_neg hempty] at htest ⊢
    have hload := Run.snoc (l := KeyEvent.load) htest ⟨rfl, rfl⟩
    have hupdate := Run.snoc (l := KeyEvent.update) hload ⟨_, rfl, rfl⟩
    exact ⟨_, .snoc hupdate ⟨rfl, rfl⟩⟩

/-- The characters that the handler put into the buffer. -/
def acceptedChars (events : List KeyEvent) : List UInt8 :=
  events.filterMap fun
    | .irq _ (.accepted c) => some c
    | _ => none

/-- The characters that `keyboard_getchar` returned. -/
def returnedChars (events : List KeyEvent) : List UInt8 :=
  events.filterMap fun
    | .ret c => if c = 0 then none else some c
    | _ => none

/-- The character that a call has taken out of the buffer and not yet returned. -/
def GetcharPc.inFlight : GetcharPc → List UInt8
  | .ret c => if c = 0 then [] else [c]
  | _ => []

/-- The last call found the buffer empty when it tested it. -/
def EmptyAtTest (events : List KeyEvent) : Prop :=
  ∃ before after, events = before ++ .test :: after ∧
    (∀ event ∈ after, ∃ scancode outcome, event = .irq scancode outcome) ∧
    acceptedChars before = returnedChars before

/-- The buffer holds a queue: what was accepted and neither returned nor taken out. -/
structure KeyInv (events : List KeyEvent) (s : KeyState) (queue : List UInt8) : Prop where
  holds : s.kb.ring.Holds kbBufferSize queue
  nonzero : ∀ c ∈ queue, c ≠ 0
  log : acceptedChars events = returnedChars events ++ s.pc.inFlight ++ queue
  load : s.pc = .load → queue ≠ []
  update : ∀ c, s.pc = .update c → queue.head? = some c
  empty : s.pc = .ret 0 → EmptyAtTest events

/-- The handler ignores what translates to no character, and accepts or drops the character that a
scancode translates to. -/
def KeyOutcome.IsOf (outcome : KeyOutcome) (c : UInt8) : Prop :=
  (outcome = .ignored ↔ c = 0) ∧ (c ≠ 0 → outcome = .accepted c ∨ outcome = .dropped c)

theorem keyboardIrqHandler_outcome (s : Keyboard) (scancode : UInt8) :
    (keyboardIrqHandler s scancode).1.IsOf (translateScancode s.mods scancode).1 := by
  unfold KeyOutcome.IsOf keyboardIrqHandler
  by_cases hzero : (translateScancode s.mods scancode).1 = 0
  · simp [hzero]
  · dsimp only
    rw [if_pos hzero]
    split <;> simp [hzero]

theorem keyboardIrqHandler_cases (s : Keyboard) (scancode : UInt8) :
    ∃ mods, keyboardIrqHandler s scancode = (.ignored, { s with mods := mods }) ∨
      ∃ c, c ≠ 0 ∧
        ((s.ring.head + 1) % kbBufferSize ≠ s.ring.tail ∧
            keyboardIrqHandler s scancode = (.accepted c, ⟨mods, s.ring.put kbBufferSize c⟩) ∨
          (s.ring.head + 1) % kbBufferSize = s.ring.tail ∧
            keyboardIrqHandler s scancode = (.dropped c, { s with mods := mods })) := by
  refine ⟨(translateScancode s.mods scancode).2, ?_⟩
  rw [keyboardIrqHandler]
  dsimp only
  by_cases hzero : (translateScancode s.mods scancode).1 = 0
  · left
    rw [if_neg (not_not.mpr hzero)]
  · right
    refine ⟨(translateScancode s.mods scancode).1, hzero, ?_⟩
    rw [if_pos hzero]
    by_cases hfull : (s.ring.head + 1) % kbBufferSize = s.ring.tail
    · exact .inr ⟨hfull, by rw [if_neg (not_not.mpr hfull)]⟩
    · exact .inl ⟨hfull, by rw [if_pos hfull]⟩

theorem acceptedChars_snoc (events : List KeyEvent) (event : KeyEvent) :
    acceptedChars (events ++ [event]) = acceptedChars events ++ acceptedChars [event] :=
  List.filterMap_append

theorem returnedChars_snoc (events : List KeyEvent) (event : KeyEvent) :
    returnedChars (events ++ [event]) = returnedChars events ++ returnedChars [event] :=
  List.filterMap_append

theorem EmptyAtTest.irq {events : List KeyEvent} (h : EmptyAtTest events) (scancode : UInt8)
    (outcome : KeyOutcome) : EmptyAtTest (events ++ [.irq scancode outcome]) := by
  obtain ⟨before, after, rfl, hirq, hempty⟩ := h
  refine ⟨before, after ++ [.irq scancode outcome], ?_, ?_, hempty⟩
  · rw [List.append_assoc, List.cons_append]
  · intro event hevent
    rw [List.mem_append, List.mem_singleton] at hevent
    rcases hevent with hold | rfl
    · exact hirq event hold
    · exact ⟨scancode, outcome, rfl⟩

namespace KeyInv

variable {events : List KeyEvent} {s s' : KeyState} {queue : List UInt8}

theorem boot (start : Keyboard) : KeyInv [] ⟨keyboardInit start, .idle⟩ [] := by
  refine ⟨RingBuffer.holds_nil _ (by decide), nofun, rfl, nofun, nofun, nofun⟩

theorem skip (hinv : KeyInv events s queue) {mods : Modifiers} {scancode : UInt8}
    {outcome : KeyOutcome} (houtcome : acceptedChars [.irq scancode outcome] = []) :
    KeyInv (events ++ [.irq scancode outcome]) { s with kb := { s.kb with mods := mods } } queue := by
  refine ⟨hinv.holds, hinv.nonzero, ?_, hinv.load, hinv.update, ?_⟩
  · rw [acceptedChars_snoc, returnedChars_snoc, houtcome, List.append_nil, hinv.log]
    simp [returnedChars]
  · intro hpc
    exact (hinv.empty hpc).irq scancode outcome

theorem accept (hinv : KeyInv events s queue) {mods : Modifiers} {scancode c : UInt8} (hc : c ≠ 0)
    (hroom : (s.kb.ring.head + 1) % kbBufferSize ≠ s.kb.ring.tail) :
    KeyInv (events ++ [.irq scancode (.accepted c)])
      { s with kb := ⟨mods, s.kb.ring.put kbBufferSize c⟩ } (queue ++ [c]) := by
  refine ⟨hinv.holds.put hroom c, ?_, ?_, ?_, ?_, ?_⟩
  · intro d hd
    rw [List.mem_append, List.mem_singleton] at hd
    rcases hd with hold | rfl
    · exact hinv.nonzero d hold
    · exact hc
  · rw [acceptedChars_snoc, returnedChars_snoc, hinv.log]
    simp [acceptedChars, returnedChars]
  · intro _
    exact List.append_ne_nil_of_right_ne_nil _ (List.cons_ne_nil c [])
  · intro d hpc
    rw [List.head?_append, hinv.update d hpc]
    rfl
  · intro hpc
    exact (hinv.empty hpc).irq scancode (.accepted c)

/-- A statement of `keyboard_getchar` that writes neither index. -/
theorem move (hinv : KeyInv events s queue) {event : KeyEvent} {pc : GetcharPc}
    (hlog : s.pc.inFlight = returnedChars [event] ++ pc.inFlight) (haccept : acceptedChars [event] = [])
    (hload : pc = .load → queue ≠ []) (hupdate : ∀ c, pc = .update c → queue.head? = some c)
    (hempty : pc = .ret 0 → EmptyAtTest (events ++ [event])) :
    KeyInv (events ++ [event]) { s with pc := pc } queue := by
  refine ⟨hinv.holds, hinv.nonzero, ?_, hload, hupdate, hempty⟩
  rw [acceptedChars_snoc, returnedChars_snoc, haccept, List.append_nil, hinv.log, hlog]
  simp only [List.append_assoc]

theorem step (hinv : KeyInv events s queue) {event : KeyEvent} (hstep : keyStep s event s') :
    ∃ queue', KeyInv (events ++ [event]) s' queue' := by
  cases event with
  | irq scancode outcome =>
      obtain ⟨hirq, hpc⟩ := hstep
      obtain ⟨kb', pc'⟩ := s'
      obtain rfl : pc' = s.pc := hpc
      obtain ⟨mods, hignored | ⟨c, hc, ⟨hroom, haccepted⟩ | ⟨-, hdropped⟩⟩⟩ :=
        keyboardIrqHandler_cases s.kb scancode
      · rw [hignored, Prod.mk.injEq] at hirq
        obtain ⟨rfl, rfl⟩ := hirq
        exact ⟨queue, hinv.skip rfl⟩
      · rw [haccepted, Prod.mk.injEq] at hirq
        obtain ⟨rfl, rfl⟩ := hirq
        exact ⟨queue ++ [c], hinv.accept hc hroom⟩
      · rw [hdropped, Prod.mk.injEq] at hirq
        obtain ⟨rfl, rfl⟩ := hirq
        exact ⟨queue, hinv.skip rfl⟩
  | call =>
      obtain ⟨hpc, rfl⟩ := hstep
      have hflight : s.pc.inFlight = [] := by
        rw [hpc]
        rfl
      exact ⟨queue, hinv.move hflight rfl nofun nofun nofun⟩
  | test =>
      obtain ⟨hpc, rfl⟩ := hstep
      have hflight : s.pc.inFlight = [] := by
        rw [hpc]
        rfl
      by_cases hempty : s.kb.ring.tail = s.kb.ring.head
      · rw [if_pos hempty]
        refine ⟨queue, hinv.move hflight rfl nofun nofun ?_⟩
        intro _
        have hlog := hinv.log
        rw [hflight, hinv.holds.empty_iff.mp hempty, List.append_nil, List.append_nil] at hlog
        exact ⟨events, [], rfl, nofun, hlog⟩
      · rw [if_neg hempty]
        refine ⟨queue, hinv.move hflight rfl ?_ nofun nofun⟩
        intro _
        exact hinv.holds.empty_iff.not.mp hempty
  | load =>
      obtain ⟨hpc, rfl⟩ := hstep
      have hflight : s.pc.inFlight = [] := by
        rw [hpc]
        rfl
      obtain ⟨a, rest, rfl⟩ := List.exists_cons_of_ne_nil (hinv.load hpc)
      refine ⟨a :: rest, hinv.move hflight rfl nofun ?_ nofun⟩
      rw [hinv.holds.first]
      intro c hc
      rw [List.head?_cons, GetcharPc.update.inj hc]
  | update =>
      obtain ⟨c, hpc, rfl⟩ := hstep
      obtain ⟨rest, rfl⟩ := List.head?_eq_some_iff.mp (hinv.update c hpc)
      have hc := hinv.nonzero c List.mem_cons_self
      have hlog := hinv.log
      rw [hpc] at hlog
      refine ⟨rest, hinv.holds.advance, fun d hd => hinv.nonzero d (List.mem_cons_of_mem c hd), ?_,
        nofun, nofun, ?_⟩
      · rw [acceptedChars_snoc, returnedChars_snoc, hlog]
        simp [acceptedChars, returnedChars, GetcharPc.inFlight, hc]
      · intro hzero
        exact absurd (GetcharPc.ret.inj hzero) hc
  | ret c =>
      obtain ⟨hpc, rfl⟩ := hstep
      refine ⟨queue, hinv.move ?_ rfl nofun nofun nofun⟩
      rw [hpc]
      by_cases hc : c = 0 <;> simp [returnedChars, GetcharPc.inFlight, hc]

theorem of_run {start : Keyboard} (hrun : Run keyStep ⟨keyboardInit start, .idle⟩ events s) :
    ∃ queue, KeyInv events s queue := by
  induction hrun with
  | nil => exact ⟨[], boot start⟩
  | snoc _ hlast ih =>
      obtain ⟨queue, hinv⟩ := ih
      exact hinv.step hlast

end KeyInv

/-- The keyboard buffer is a queue of at most 255 characters, in every run.  What comes into it are
the characters that the scancodes translate to under the modifiers then, and a call that no
interrupt comes into is `keyboard_getchar`. -/
theorem keyboardRun_fifo (start : Keyboard) (events : List KeyEvent) (s : KeyState)
    (hrun : Run keyStep ⟨keyboardInit start, .idle⟩ events s) :
    returnedChars events <+: acceptedChars events ∧ ∃ unread : List UInt8,
      acceptedChars events = returnedChars events ++ s.pc.inFlight ++ unread ∧
      unread.length ≤ 255 ∧
      (∀ scancode c s', keyStep s (.irq scancode (.dropped c)) s' → unread.length = 255) ∧
      (∀ s', keyStep s (.ret 0) s' → EmptyAtTest events) ∧
      (∀ scancode outcome s', keyStep s (.irq scancode outcome) s' →
        outcome.IsOf (translateScancode s.kb.mods scancode).1) ∧
      (s.pc = .idle → ∃ statements,
        Run keyStep s (statements ++ [.ret (keyboardGetchar s.kb).1])
          ⟨(keyboardGetchar s.kb).2, .idle⟩) := by
  obtain ⟨queue, hinv⟩ := KeyInv.of_run hrun
  have hshort := hinv.holds.short
  simp only [kbBufferSize] at hshort
  refine ⟨?_, queue, hinv.log, by omega, ?_, ?_, ?_, ?_⟩
  · rw [hinv.log, List.append_assoc]
    exact List.prefix_append _ _
  · intro scancode c s' hstep
    obtain ⟨mods, hignored | ⟨d, hd, ⟨-, haccepted⟩ | ⟨hfull, -⟩⟩⟩ :=
      keyboardIrqHandler_cases s.kb scancode
    · rw [keyStep, hignored] at hstep
      cases hstep.1
    · rw [keyStep, haccepted] at hstep
      cases hstep.1
    · have hlength := hinv.holds.full_iff.mp hfull
      simp only [kbBufferSize] at hlength
      omega
  · intro s' hstep
    exact hinv.empty hstep.1
  · intro scancode outcome s' hstep
    have houtcome := keyboardIrqHandler_outcome s.kb scancode
    rwa [hstep.1] at houtcome
  · intro hidle
    obtain ⟨kb, pc⟩ := s
    obtain rfl : pc = .idle := hidle
    exact keyboardGetchar_run kb

/-- The keyboard before `keyboard_init`. -/
def idleKeyboard : Keyboard := ⟨⟨false, false, false, false⟩, ⟨fun _ => 0, 0, 0⟩⟩

/-- A letter is typed while a call is between its test of an empty buffer and its return, and
the next call returns it. -/
theorem keyboardRun_fifo_letter : ∃ s,
    Run keyStep ⟨keyboardInit idleKeyboard, .idle⟩
        [.call, .test, .irq 0x1E (.accepted 0x61), .ret 0, .call, .test, .load, .update, .ret 0x61] s ∧
      returnedChars [.call, .test, .irq 0x1E (.accepted 0x61), .ret 0, .call, .test, .load, .update,
        .ret 0x61] <+: [0x61] := by
  have hempty : Run keyStep ⟨keyboardInit idleKeyboard, .idle⟩ [.call, .test]
      ⟨keyboardInit idleKeyboard, .ret 0⟩ := .snoc (.snoc (.nil _) ⟨rfl, rfl⟩) ⟨rfl, rfl⟩
  have hkey : keyStep ⟨keyboardInit idleKeyboard, .ret 0⟩ (.irq 0x1E (.accepted 0x61))
      ⟨(keyboardIrqHandler (keyboardInit idleKeyboard) 0x1E).2, .ret 0⟩ := ⟨rfl, rfl⟩
  have hzero := Run.snoc (l := KeyEvent.ret 0) (Run.snoc hempty hkey) ⟨rfl, rfl⟩
  have hcall := Run.snoc (l := KeyEvent.call) hzero ⟨rfl, rfl⟩
  have htest := Run.snoc (l := KeyEvent.test) hcall ⟨rfl, rfl⟩
  have hload := Run.snoc (l := KeyEvent.load) htest ⟨rfl, rfl⟩
  have hupdate := Run.snoc (l := KeyEvent.update) hload ⟨0x61, rfl, rfl⟩
  have hret := Run.snoc (l := KeyEvent.ret 0x61) hupdate ⟨rfl, rfl⟩
  exact ⟨_, hret, (keyboardRun_fifo idleKeyboard _ _ hret).1⟩

end Magnos
