import Mathlib.Data.List.Basic
import Mathlib.Order.Basic
import Mathlib.Tactic

/-!
# Partitions of an address space into half-open spans

Two lists of spans partition the same set, gap-free and without overlap, when every point is
covered by as many spans of the one as of the other and by at most one of either.  Counting
makes cutting a span, joining two neighbours and reordering a list simple equations.
-/

namespace Magnos.Framework

universe u

variable {Point : Type u} [LinearOrder Point]

/-- The half-open span from `lo` to `hi`. -/
structure Span (Point : Type u) where
  lo : Point
  hi : Point

/-- The points of a span. -/
def Span.Holds (s : Span Point) (a : Point) : Prop := s.lo ≤ a ∧ a < s.hi

instance (s : Span Point) (a : Point) : Decidable (s.Holds a) :=
  inferInstanceAs (Decidable (_ ∧ _))

def Span.Apart (s t : Span Point) : Prop := s.hi ≤ t.lo ∨ t.hi ≤ s.lo

/-- How many of the spans cover a point. -/
def coverCount (spans : List (Span Point)) (a : Point) : Nat :=
  spans.countP fun s => decide (s.Holds a)

theorem coverCount_cons (s : Span Point) (spans : List (Span Point)) (a : Point) :
    coverCount (s :: spans) a = coverCount spans a + if s.Holds a then 1 else 0 := by
  simp [coverCount, List.countP_cons]

@[simp]
theorem coverCount_append (left right : List (Span Point)) (a : Point) :
    coverCount (left ++ right) a = coverCount left a + coverCount right a := by
  simp [coverCount]

theorem coverCount_perm {left right : List (Span Point)} (hperm : left.Perm right)
    (a : Point) : coverCount left a = coverCount right a :=
  hperm.countP_eq _

theorem coverCount_pos {spans : List (Span Point)} {a : Point} :
    0 < coverCount spans a ↔ ∃ s ∈ spans, s.Holds a := by
  simp [coverCount]

theorem coverCount_cut (lo mid hi : Point) (hlo : lo ≤ mid) (hhi : mid ≤ hi)
    (spans : List (Span Point)) (a : Point) :
    coverCount (⟨lo, mid⟩ :: ⟨mid, hi⟩ :: spans) a = coverCount (⟨lo, hi⟩ :: spans) a := by
  simp only [coverCount_cons, Span.Holds, Nat.add_assoc]
  congr 1
  by_cases hmid : a < mid
  · have hnot : ¬ mid ≤ a := not_le.mpr hmid
    have hlt : a < hi := lt_of_lt_of_le hmid hhi
    simp [hmid, hnot, hlt]
  · have hge : mid ≤ a := not_lt.mp hmid
    have hle : lo ≤ a := le_trans hlo hge
    simp [hmid, hge, hle]

/-- Points covered at most once separate the spans that cover them. -/
theorem apart_of_coverCount_le_one (spans : List (Span Point))
    (hone : ∀ a, coverCount spans a ≤ 1) (hnonempty : ∀ s ∈ spans, s.lo < s.hi) :
    spans.Pairwise Span.Apart := by
  induction spans with
  | nil => exact List.Pairwise.nil
  | cons s spans ih =>
      have htail : ∀ a, coverCount spans a ≤ 1 := by
        intro a
        have hall := hone a
        rw [coverCount_cons] at hall
        omega
      refine List.Pairwise.cons ?_ (ih htail fun t ht => hnonempty t (by simp [ht]))
      intro t ht
      by_contra hoverlap
      simp only [Span.Apart, not_or, not_le] at hoverlap
      have hs := hnonempty s (by simp)
      have hsub := hnonempty t (by simp [ht])
      have hboth : s.Holds (max s.lo t.lo) ∧ t.Holds (max s.lo t.lo) := by
        refine ⟨⟨le_max_left _ _, ?_⟩, ⟨le_max_right _ _, ?_⟩⟩
        · exact max_lt hs hoverlap.1
        · exact max_lt hoverlap.2 hsub
      have hcount := hone (max s.lo t.lo)
      have hpos : 0 < coverCount spans (max s.lo t.lo) := coverCount_pos.mpr ⟨t, ht, hboth.2⟩
      rw [coverCount_cons, if_pos hboth.1] at hcount
      omega

theorem coverCount_le_one_of_apart (spans : List (Span Point))
    (hapart : spans.Pairwise Span.Apart) (a : Point) : coverCount spans a ≤ 1 := by
  induction spans with
  | nil => simp [coverCount]
  | cons s spans ih =>
      obtain ⟨hhead, htail⟩ := List.pairwise_cons.mp hapart
      rw [coverCount_cons]
      by_cases hs : s.Holds a
      · rw [if_pos hs]
        have hzero : ¬ 0 < coverCount spans a := by
          rw [coverCount_pos]
          rintro ⟨t, ht, hta⟩
          rcases hhead t ht with hle | hle
          · exact absurd (lt_of_lt_of_le hs.2 hle) (not_lt.mpr hta.1)
          · exact absurd (lt_of_lt_of_le hta.2 hle) (not_lt.mpr hs.1)
        omega
      · rw [if_neg hs]
        exact ih htail

end Magnos.Framework
