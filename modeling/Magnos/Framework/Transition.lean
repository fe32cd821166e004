import Mathlib.Data.List.Basic
import Mathlib.Data.List.Induction

/-!
# Runs of labelled step relations

A run is the list of its labels together with its first and last state.  An invariant is
proved on one step and carried to every run by `Run.invariant`.
-/

namespace Magnos.Framework

universe u v

variable {State : Type u} {Label : Type v}

/-- Finite runs, extended at their end. -/
inductive Run (step : State → Label → State → Prop) : State → List Label → State → Prop
  | nil (s : State) : Run step s [] s
  | snoc {s t u : State} {ls : List Label} {l : Label} :
      Run step s ls t → step t l u → Run step s (ls ++ [l]) u

/-- A step relation taken only where `guard` allows it. -/
def guarded (guard : State → Label → Prop) (step : State → Label → State → Prop) :
    State → Label → State → Prop :=
  fun s l t => guard s l ∧ step s l t

theorem Run.invariant {step : State → Label → State → Prop} {inv : State → Prop}
    (hstep : ∀ s l t, inv s → step s l t → inv t)
    {s t : State} {ls : List Label} (hrun : Run step s ls t) (hs : inv s) : inv t := by
  induction hrun with
  | nil => exact hs
  | snoc _ hlast ih => exact hstep _ _ _ ih hlast

theorem Run.mono {step step' : State → Label → State → Prop}
    (hstep : ∀ s l t, step s l t → step' s l t) {s t : State} {ls : List Label}
    (hrun : Run step s ls t) : Run step' s ls t := by
  induction hrun with
  | nil => exact .nil _
  | snoc _ hlast ih => exact .snoc ih (hstep _ _ _ hlast)

theorem Run.cons {step : State → Label → State → Prop} {s t u : State} {l : Label} {ls : List Label}
    (hfirst : step s l t) (hrun : Run step t ls u) : Run step s (l :: ls) u := by
  induction hrun with
  | nil => exact .snoc (.nil s) hfirst
  | snoc _ hlast ih => exact .snoc ih hlast

theorem Run.of_append {step : State → Label → State → Prop} {s u : State} {ls ls' : List Label}
    (hrun : Run step s (ls ++ ls') u) : ∃ t, Run step s ls t ∧ Run step t ls' u := by
  induction ls' using List.reverseRecOn generalizing u with
  | nil => exact ⟨u, by simpa using hrun, .nil u⟩
  | append_singleton ls' l ih =>
      rw [← List.append_assoc] at hrun
      generalize hall : ls ++ ls' ++ [l] = labels at hrun
      cases hrun with
      | nil => simp at hall
      | snoc hbefore hlast =>
          obtain ⟨rfl, hlabel⟩ := List.append_inj' hall rfl
          obtain rfl := List.singleton_injective hlabel
          obtain ⟨t, hfirst, hrest⟩ := ih hbefore
          exact ⟨t, hfirst, .snoc hrest hlast⟩

theorem Run.of_cons {step : State → Label → State → Prop} {s u : State} {l : Label}
    {ls : List Label} (hrun : Run step s (l :: ls) u) : ∃ t, step s l t ∧ Run step t ls u := by
  rw [← List.singleton_append] at hrun
  obtain ⟨t, hfirst, hrest⟩ := hrun.of_append
  generalize hlabels : [l] = labels at hfirst
  cases hfirst with
  | nil => simp at hlabels
  | snoc hbefore hlast =>
      rw [← List.nil_append [l]] at hlabels
      obtain ⟨rfl, hlabel⟩ := List.append_inj' hlabels rfl
      obtain rfl := List.singleton_injective hlabel
      generalize hempty : ([] : List Label) = none at hbefore
      cases hbefore with
      | nil => exact ⟨t, hlast, hrest⟩
      | snoc => simp at hempty

theorem Run.invariant_of_labels {step : State → Label → State → Prop} {inv : State → Prop}
    {allowed : Label → Prop} (hstep : ∀ s l t, inv s → allowed l → step s l t → inv t)
    {s t : State} {ls : List Label} (hrun : Run step s ls t) (hls : ∀ l ∈ ls, allowed l)
    (hs : inv s) : inv t := by
  induction hrun with
  | nil => exact hs
  | snoc _ hlast ih =>
      have hbefore := ih fun l hl => hls l (List.mem_append_left _ hl)
      exact hstep _ _ _ hbefore (hls _ (by simp)) hlast

theorem Run.map {State' : Type*} {Label' : Type*} {step : State → Label → State → Prop}
    {step' : State' → Label' → State' → Prop} {view : State → State'} {relabel : Label → Label'}
    {inv : State → Prop} (hinv : ∀ s l t, inv s → step s l t → inv t)
    (hstep : ∀ s l t, inv s → step s l t → step' (view s) (relabel l) (view t))
    {s t : State} {ls : List Label} (hrun : Run step s ls t) (hs : inv s) :
    Run step' (view s) (ls.map relabel) (view t) := by
  induction hrun with
  | nil => exact .nil _
  | snoc hbefore hlast ih =>
      rw [List.map_append]
      exact .snoc ih (hstep _ _ _ (hbefore.invariant hinv hs) hlast)

section Functions

variable {next : State → Label → State}

/-- A condition on every step that a list of labels takes. -/
def Along (next : State → Label → State) (P : State → Label → Prop) : List Label → State → Prop
  | [], _ => True
  | l :: ls, s => P s l ∧ Along next P ls (next s l)

/-- Two conditions that agree on a step where an invariant holds, and of which the second keeps the
invariant, agree on every list of steps. -/
theorem along_iff {inv : State → Prop} {guard P Q : State → Label → Prop}
    (hiff : ∀ s l, inv s → guard s l → (P s l ↔ Q s l))
    (hinv : ∀ s l, inv s → guard s l → Q s l → inv (next s l)) {ls : List Label} {s : State}
    (hs : inv s) (hguard : Along next guard ls s) : Along next P ls s ↔ Along next Q ls s := by
  induction ls generalizing s with
  | nil => exact Iff.rfl
  | cons l ls ih =>
      rw [Along, Along, hiff s l hs hguard.1]
      exact and_congr_right fun hl => ih (hinv s l hs hguard.1 hl) hguard.2

theorem along_of_forall {P : State → Label → Prop} {ls : List Label} (hls : ∀ l ∈ ls, ∀ s, P s l)
    (s : State) : Along next P ls s := by
  induction ls generalizing s with
  | nil => trivial
  | cons l ls ih =>
      rw [List.forall_mem_cons] at hls
      exact ⟨hls.1 s, ih hls.2 _⟩

theorem along_states {P : State → Prop} {ls : List Label} {s : State} (hs : P s) :
    Along next (fun s l => P (next s l)) ls s ↔ ∀ before, before <+: ls → P (before.foldl next s) := by
  induction ls generalizing s with
  | nil => simpa [Along] using hs
  | cons l ls ih =>
      rw [Along]
      constructor
      · rintro ⟨hl, hrest⟩ before hbefore
        rcases List.prefix_cons_iff.mp hbefore with rfl | ⟨after, rfl, hafter⟩
        · exact hs
        · exact (ih hl).mp hrest after hafter
      · intro hall
        have hl : P (next s l) := hall [l] (by simp)
        refine ⟨hl, (ih hl).mpr fun before hbefore => ?_⟩
        exact hall (l :: before) (List.cons_prefix_cons.mpr ⟨rfl, hbefore⟩)

theorem along_view {State' : Type*} {next' : State' → Label → State'} (view : State → State')
    (hview : ∀ s l, view (next s l) = next' (view s) l) (P : State' → Label → Prop)
    (ls : List Label) (s : State) :
    Along next (fun s l => P (view s) l) ls s ↔ Along next' P ls (view s) := by
  induction ls generalizing s with
  | nil => exact Iff.rfl
  | cons l ls ih => rw [Along, Along, ih, hview]

end Functions

end Magnos.Framework
