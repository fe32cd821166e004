import Magnos.Console.Keyboard
import Mathlib.Tactic.Common

/-!
# Modifier flags and the keys that are held

`translate_scancode` keeps one flag for each modifier.  A flag is raised by a press of any of its
keys and lowered by a release of any of them, so that it follows a single key exactly and two keys
only up to a release of one under the other.
-/

namespace Magnos

open Framework

/-- A key that was pressed and not yet released. -/
def Held (codes : List UInt8) (key : UInt8) : Prop :=
  ∃ before after, codes = before ++ key :: after ∧ key ||| keyRelease ∉ after

/-- A modifier flag of the given keys after a scancode. -/
def flagAfter (keys : List UInt8) (flag : Bool) (scancode : UInt8) : Bool :=
  if scancode ∈ keys then true
  else if scancode ∈ keys.map (· ||| keyRelease) then false
  else flag

/-- The last scancode of the keys is the release of one of them while another one is held. -/
def ReleasedUnder (keys codes : List UInt8) : Prop :=
  ∃ before key after, codes = before ++ (key ||| keyRelease) :: after ∧ key ∈ keys ∧
    (∀ code ∈ after, code ∉ keys ∧ code ∉ keys.map (· ||| keyRelease)) ∧
    ∃ other ∈ keys, other ≠ key ∧ Held before other

/-- The presses and releases that change a modifier. -/
def modifierCodes : List UInt8 :=
  [keyLshift, keyRshift, keyLctrl, keyLalt, keyCapslock, keyLshift ||| keyRelease,
    keyRshift ||| keyRelease, keyLctrl ||| keyRelease, keyLalt ||| keyRelease]

theorem release_restored : ∀ code : UInt8, code &&& keyRelease ≠ 0 →
    (code &&& ~~~keyRelease) ||| keyRelease = code := by
  rintro ⟨⟨code⟩⟩
  revert code
  decide +kernel

theorem translateScancode_other (m : Modifiers) {scancode : UInt8}
    (hother : scancode ∉ modifierCodes) : (translateScancode m scancode).2 = m := by
  simp only [modifierCodes, List.mem_cons, List.not_mem_nil, or_false, not_or] at hother
  obtain ⟨hlshift, hrshift, hctrl, halt, hcaps, hlshift', hrshift', hctrl', halt'⟩ := hother
  unfold translateScancode
  by_cases hrelease : scancode &&& keyRelease ≠ 0
  · have hcode := release_restored scancode hrelease
    have hne : ∀ key, scancode ≠ key ||| keyRelease → scancode &&& ~~~keyRelease ≠ key := by
      rintro key hkey rfl
      exact hkey hcode.symm
    rw [if_pos hrelease]
    dsimp only
    rw [if_neg (not_or.mpr ⟨hne _ hlshift', hne _ hrshift'⟩), if_neg (hne _ hctrl'),
      if_neg (hne _ halt')]
  · rw [if_neg hrelease, if_neg (not_or.mpr ⟨hlshift, hrshift⟩), if_neg hctrl, if_neg halt,
      if_neg hcaps]
    split
    · rfl
    split
    · rfl
    split <;> rfl

theorem translateScancode_mods (m : Modifiers) (scancode : UInt8) :
    (translateScancode m scancode).2 =
      ⟨flagAfter [keyLshift, keyRshift] m.shiftPressed scancode,
        flagAfter [keyLctrl] m.ctrlPressed scancode, flagAfter [keyLalt] m.altPressed scancode,
        m.capslockOn ^^ scancode = keyCapslock⟩ := by
  by_cases hcode : scancode ∈ modifierCodes
  · have hall : ∀ code ∈ modifierCodes, ∀ shift ctrl alt caps : Bool,
        (translateScancode ⟨shift, ctrl, alt, caps⟩ code).2 =
          ⟨flagAfter [keyLshift, keyRshift] shift code, flagAfter [keyLctrl] ctrl code,
            flagAfter [keyLalt] alt code, caps ^^ code = keyCapslock⟩ := by decide +kernel
    exact hall scancode hcode _ _ _ _
  · rw [translateScancode_other m hcode]
    simp only [modifierCodes, List.mem_cons, List.not_mem_nil, or_false, not_or] at hcode
    simp [flagAfter, hcode]

theorem release_code : ∀ key : UInt8, key &&& keyRelease = 0 →
    (key ||| keyRelease) &&& keyRelease ≠ 0 ∧ (key ||| keyRelease) &&& ~~~keyRelease = key := by
  rintro ⟨⟨code⟩⟩
  revert code
  decide +kernel

section Keys

variable {keys codes : List UInt8} {key code : UInt8}

theorem not_held_nil : ¬ Held [] key := by simp [Held]

theorem Held.mem (hheld : Held codes key) : key ∈ codes := by
  obtain ⟨before, after, rfl, -⟩ := hheld
  simp

theorem not_releasedUnder_nil : ¬ ReleasedUnder keys [] := by simp [ReleasedUnder]

theorem snoc_eq_append_cons {before after : List UInt8} :
    codes ++ [code] = before ++ key :: after ↔
      after = [] ∧ codes = before ∧ code = key ∨
        ∃ rest, after = rest ++ [code] ∧ codes = before ++ key :: rest := by
  induction after using List.reverseRecOn with
  | nil => simp
  | append_singleton rest last _ =>
      rw [← List.cons_append, ← List.append_assoc, List.append_singleton_inj]
      constructor
      · rintro ⟨hcodes, rfl⟩
        exact .inr ⟨rest, rfl, hcodes⟩
      · rintro (⟨hnil, -⟩ | ⟨rest', hrest, hcodes⟩)
        · simp at hnil
        · rw [List.append_singleton_inj] at hrest
          exact ⟨hrest.1 ▸ hcodes, hrest.2.symm⟩

theorem held_snoc (hkey : key &&& keyRelease = 0) :
    Held (codes ++ [code]) key ↔ code = key ∨ code ≠ key ||| keyRelease ∧ Held codes key := by
  constructor
  · rintro ⟨before, after, hcodes, hafter⟩
    rcases snoc_eq_append_cons.mp hcodes with ⟨-, -, hcode⟩ | ⟨rest, rfl, hrest⟩
    · exact .inl hcode
    · simp at hafter
      exact .inr ⟨fun h => hafter.2 h.symm, before, rest, hrest, hafter.1⟩
  · rintro (rfl | ⟨hne, before, after, rfl, hafter⟩)
    · exact ⟨codes, [], rfl, by simp⟩
    · refine ⟨before, after ++ [code], by simp, ?_⟩
      simp [hafter, Ne.symm hne]

theorem releasedUnder_other (hpress : code ∉ keys) (hrelease : code ∉ keys.map (· ||| keyRelease)) :
    ReleasedUnder keys (codes ++ [code]) ↔ ReleasedUnder keys codes := by
  constructor
  · rintro ⟨before, key, after, hcodes, hkey, hafter, hother⟩
    rcases snoc_eq_append_cons.mp hcodes with ⟨-, -, rfl⟩ | ⟨rest, rfl, hrest⟩
    · exact absurd (List.mem_map.mpr ⟨key, hkey, rfl⟩) hrelease
    · have hkeep : ∀ c ∈ rest, c ∉ keys ∧ c ∉ keys.map (· ||| keyRelease) :=
        fun c hc => hafter c (List.mem_append_left _ hc)
      exact ⟨before, key, rest, hrest, hkey, hkeep, hother⟩
  · rintro ⟨before, key, after, rfl, hkey, hafter, hother⟩
    refine ⟨before, key, after ++ [code], by simp, hkey, ?_, hother⟩
    intro c hc
    rcases List.mem_append.mp hc with hc | hc
    · exact hafter c hc
    · rw [List.mem_singleton.mp hc]
      exact ⟨hpress, hrelease⟩

theorem releasedUnder_snoc (hcode : code ∈ keys ∨ code ∈ keys.map (· ||| keyRelease)) :
    ReleasedUnder keys (codes ++ [code]) ↔
      ∃ key ∈ keys, code = key ||| keyRelease ∧ ∃ other ∈ keys, other ≠ key ∧ Held codes other := by
  constructor
  · rintro ⟨before, key, after, hcodes, hkey, hafter, hother⟩
    rcases snoc_eq_append_cons.mp hcodes with ⟨-, rfl, rfl⟩ | ⟨rest, rfl, -⟩
    · exact ⟨key, hkey, rfl, hother⟩
    · exact absurd hcode (not_or.mpr (hafter code (by simp)))
  · rintro ⟨key, hkey, rfl, hother⟩
    exact ⟨codes, key, [], rfl, hkey, by simp, hother⟩

theorem release_inj {other : UInt8} (hkey : key &&& keyRelease = 0)
    (hother : other &&& keyRelease = 0) : key ||| keyRelease = other ||| keyRelease ↔ other = key := by
  constructor
  · intro h
    rw [← (release_code key hkey).2, h, (release_code other hother).2]
  · intro h
    rw [h]

theorem flag_iff (hkeys : ∀ key ∈ keys, key &&& keyRelease = 0) :
    (codes.foldl (flagAfter keys) false = true ↔ ∃ key ∈ keys, Held codes key) ↔
      ¬ ReleasedUnder keys codes := by
  induction codes using List.reverseRecOn with
  | nil => simp [not_held_nil, not_releasedUnder_nil]
  | append_singleton codes code ih =>
      rw [List.foldl_append, List.foldl_cons, List.foldl_nil]
      by_cases hpress : code ∈ keys
      · have hheld : ∃ key ∈ keys, Held (codes ++ [code]) key :=
          ⟨code, hpress, (held_snoc (hkeys code hpress)).mpr (.inl rfl)⟩
        have hnot : ¬ ReleasedUnder keys (codes ++ [code]) := by
          rw [releasedUnder_snoc (.inl hpress)]
          rintro ⟨key, hkey, rfl, -⟩
          exact (release_code key (hkeys key hkey)).1 (hkeys _ hpress)
        simp [flagAfter, hpress, hheld, hnot]
      have hne : ∀ key ∈ keys, code ≠ key := fun key hkey h => hpress (h ▸ hkey)
      by_cases hrelease : code ∈ keys.map (· ||| keyRelease)
      · -- the flag is down, and the other keys are held as before
        rw [releasedUnder_snoc (.inr hrelease), flagAfter, if_neg hpress, if_pos hrelease]
        have hheld : ∀ other ∈ keys, Held (codes ++ [code]) other ↔
            code ≠ other ||| keyRelease ∧ Held codes other := by
          intro other hother
          simp [held_snoc (hkeys other hother), hne other hother]
        obtain ⟨key, hkey, rfl⟩ := List.mem_map.mp hrelease
        have hiff : (∃ other ∈ keys, Held (codes ++ [key ||| keyRelease]) other) ↔
            ∃ other ∈ keys, other ≠ key ∧ Held codes other := by
          refine exists_congr fun other => and_congr_right fun hother => ?_
          rw [hheld other hother, Ne, release_inj (hkeys key hkey) (hkeys other hother)]
        have hone : (∃ key' ∈ keys, key ||| keyRelease = key' ||| keyRelease ∧
            ∃ other ∈ keys, other ≠ key' ∧ Held codes other) ↔
            ∃ other ∈ keys, other ≠ key ∧ Held codes other := by
          refine ⟨?_, fun h => ⟨key, hkey, rfl, h⟩⟩
          rintro ⟨key', hkey', hsame, hother⟩
          rwa [(release_inj (hkeys key hkey) (hkeys key' hkey')).mp hsame] at hother
        rw [hiff, hone]
        simp
      · rw [releasedUnder_other hpress hrelease, ← ih, flagAfter, if_neg hpress, if_neg hrelease]
        have hheld : (∃ key ∈ keys, Held (codes ++ [code]) key) ↔ ∃ key ∈ keys, Held codes key := by
          refine exists_congr fun key => and_congr_right fun hkey => ?_
          have hother : code ≠ key ||| keyRelease :=
            fun h => hrelease (List.mem_map.mpr ⟨key, hkey, h.symm⟩)
          simp [held_snoc (hkeys key hkey), hne key hkey, hother]
        rw [hheld]

theorem flag_single (hkey : key &&& keyRelease = 0) :
    codes.foldl (flagAfter [key]) false = true ↔ Held codes key := by
  have hnot : ¬ ReleasedUnder [key] codes := by
    rintro ⟨before, key', after, -, hkey', -, other, hother, hne, -⟩
    rw [List.mem_singleton] at hkey' hother
    exact hne (hother.trans hkey'.symm)
  have hflag := (flag_iff (by simpa using hkey)).mpr hnot
  simpa using hflag

end Keys

def KeyEvent.scancode? : KeyEvent → Option UInt8
  | .irq scancode _ => some scancode
  | _ => none

/-- The scancodes that arrived in a run. -/
def scancodes (events : List KeyEvent) : List UInt8 := events.filterMap KeyEvent.scancode?

/-- The modifiers that a sequence of scancodes leaves. -/
def modifiersAfter (codes : List UInt8) : Modifiers where
  shiftPressed := codes.foldl (flagAfter [keyLshift, keyRshift]) false
  ctrlPressed := codes.foldl (flagAfter [keyLctrl]) false
  altPressed := codes.foldl (flagAfter [keyLalt]) false
  capslockOn := codes.foldl (fun on code => on ^^ code = keyCapslock) false

theorem scancodes_snoc (events : List KeyEvent) (event : KeyEvent) :
    scancodes (events ++ [event]) = scancodes events ++ scancodes [event] :=
  List.filterMap_append

theorem scancodes_quiet {event : KeyEvent} (hquiet : event.scancode? = none)
    (events : List KeyEvent) : scancodes (events ++ [event]) = scancodes events := by
  rw [scancodes_snoc, scancodes, scancodes, List.filterMap_cons_none hquiet]
  simp

theorem keyboardIrqHandler_mods (s : Keyboard) (scancode : UInt8) :
    (keyboardIrqHandler s scancode).2.mods = (translateScancode s.mods scancode).2 := by
  simp only [keyboardIrqHandler]
  split
  · split <;> rfl
  · rfl

theorem keyStep_mods {events : List KeyEvent} {event : KeyEvent} {s t : KeyState}
    (hmods : s.kb.mods = modifiersAfter (scancodes events)) (hstep : keyStep s event t) :
    t.kb.mods = modifiersAfter (scancodes (events ++ [event])) := by
  cases event with
  | irq scancode outcome =>
      rw [scancodes_snoc]
      have hkb : t.kb = (keyboardIrqHandler s.kb scancode).2 := by rw [hstep.1]
      rw [hkb, keyboardIrqHandler_mods, translateScancode_mods, hmods]
      simp [scancodes, KeyEvent.scancode?, modifiersAfter]
  | update =>
      obtain ⟨c, -, rfl⟩ := hstep
      rwa [scancodes_quiet rfl]
  | _ =>
      obtain ⟨-, rfl⟩ := hstep
      rwa [scancodes_quiet rfl]

theorem keyRun_mods {start : Keyboard} {events : List KeyEvent} {t : KeyState}
    (hrun : Run keyStep ⟨keyboardInit start, .idle⟩ events t) :
    t.kb.mods = modifiersAfter (scancodes events) := by
  induction hrun with
  | nil => rfl
  | snoc _ hlast ih => exact keyStep_mods ih hlast

/-- The flags say which keys are held, and a character is translated as with the shift keys that
are. -/
structure TracksKeys (codes : List UInt8) (m : Modifiers) : Prop where
  shift : m.shiftPressed = true ↔ Held codes keyLshift ∨ Held codes keyRshift
  ctrl : m.ctrlPressed = true ↔ Held codes keyLctrl
  alt : m.altPressed = true ↔ Held codes keyLalt
  chars : ∀ shift : Bool, (shift = true ↔ Held codes keyLshift ∨ Held codes keyRshift) →
    ∀ code, (translateScancode m code).1 = (translateScancode { m with shiftPressed := shift } code).1

theorem modifiersAfter_tracks_iff (codes : List UInt8) :
    TracksKeys codes (modifiersAfter codes) ↔ ¬ ReleasedUnder [keyLshift, keyRshift] codes := by
  have hkeys : ∀ key ∈ [keyLshift, keyRshift], key &&& keyRelease = 0 := by
    intro key hkey
    rcases List.mem_pair.mp hkey with rfl | rfl <;> decide
  rw [← flag_iff hkeys]
  simp only [List.exists_mem_cons_iff, List.not_mem_nil, false_and, exists_false, or_false]
  refine ⟨TracksKeys.shift, ?_⟩
  intro hshift
  refine ⟨hshift, flag_single (by decide), flag_single (by decide), ?_⟩
  intro shift hheld code
  have hsame : shift = (modifiersAfter codes).shiftPressed :=
    Bool.eq_iff_iff.mpr (hheld.trans hshift.symm)
  rw [hsame]

/-- In every run the flags track the keys unless one shift key was last released under the
other. -/
theorem modifiers_track_iff (start : Keyboard) (events : List KeyEvent) (t : KeyState)
    (hrun : Run keyStep ⟨keyboardInit start, .idle⟩ events t) :
    TracksKeys (scancodes events) t.kb.mods ↔
      ¬ ReleasedUnder [keyLshift, keyRshift] (scancodes events) := by
  rw [keyRun_mods hrun]
  exact modifiersAfter_tracks_iff (scancodes events)

theorem exists_keyRun (kb : Keyboard) (codes : List UInt8) :
    ∃ events t, Run keyStep ⟨kb, .idle⟩ events t ∧ scancodes events = codes := by
  induction codes using List.reverseRecOn with
  | nil => exact ⟨[], _, .nil _, rfl⟩
  | append_singleton codes code ih =>
      obtain ⟨events, t, hrun, rfl⟩ := ih
      have hstep : keyStep t (.irq code (keyboardIrqHandler t.kb code).1)
          ⟨(keyboardIrqHandler t.kb code).2, t.pc⟩ := ⟨rfl, rfl⟩
      exact ⟨_, _, .snoc hrun hstep, scancodes_snoc _ _⟩

/-- The left shift key, a letter under it, and both releases. -/
theorem modifiers_track_letter : ∃ events t,
    Run keyStep ⟨keyboardInit idleKeyboard, .idle⟩ events t ∧
      scancodes events = [0x2A, 0x1E, 0x9E, 0xAA] ∧ TracksKeys [0x2A, 0x1E, 0x9E, 0xAA] t.kb.mods := by
  obtain ⟨events, t, hrun, hcodes⟩ := exists_keyRun (keyboardInit idleKeyboard) [0x2A, 0x1E, 0x9E, 0xAA]
  refine ⟨events, t, hrun, hcodes, ?_⟩
  have hiff := modifiers_track_iff idleKeyboard events t hrun
  rw [hcodes] at hiff
  refine hiff.mpr ?_
  rw [show [0x2A, 0x1E, 0x9E, 0xAA] = [0x2A, 0x1E, 0x9E] ++ [keyLshift ||| keyRelease] from rfl,
    releasedUnder_snoc (by simp)]
  rintro ⟨key, hkey, hcode, other, hother, hne, hheld⟩
  have hmem := hheld.mem
  simp at hkey hother hmem
  rcases hkey with rfl | rfl
  · rcases hother with rfl | rfl
    · exact hne rfl
    · exact absurd hmem (by decide)
  · exact absurd hcode (by decide)

/-- Both shift keys are pressed and the left one is released. -/
theorem modifiers_lose_shift :
    ¬ ∀ (start : Keyboard) (events : List KeyEvent) (t : KeyState),
      Run keyStep ⟨keyboardInit start, .idle⟩ events t → TracksKeys (scancodes events) t.kb.mods := by
  intro hclaim
  obtain ⟨events, t, hrun, hcodes⟩ := exists_keyRun (keyboardInit idleKeyboard) [0x2A, 0x36, 0xAA]
  have htracks := hclaim idleKeyboard events t hrun
  rw [keyRun_mods hrun, hcodes] at htracks
  have hheld : Held [0x2A, 0x36] keyRshift := ⟨[0x2A], [], rfl, by simp⟩
  refine (modifiersAfter_tracks_iff _).mp htracks ?_
  exact ⟨[0x2A, 0x36], keyLshift, [], rfl, by simp, by simp, keyRshift, by simp, by decide, hheld⟩

end Magnos
