import Mathlib.Data.List.Basic
import Mathlib.Tactic

/-!
# Singly linked lists in a store

A `NodeLayout` says where the nodes of a list live in a store and how a cell points to the
next one.  `Linked cell head stop l` says that following the pointers from `head` visits the
nodes `l` in order and then arrives at `stop`.  The lemmas change one link of such a list at
a time.
-/

namespace Magnos.Framework

universe u v w

/-- Nodes of type `Item` stored in cells: the address of a node, the pointer a cell holds,
the null address, and what the cell of a node has to contain besides the pointer. -/
structure NodeLayout (Addr : Type u) (Cell : Type v) (Item : Type w) where
  addr : Item → Addr
  next : Cell → Addr
  null : Addr
  Holds : Item → Cell → Prop

variable {Addr : Type u} {Cell : Type v} {Item : Type w}

namespace NodeLayout

def Linked (L : NodeLayout Addr Cell Item) (cell : Addr → Cell) :
    Addr → Addr → List Item → Prop
  | head, stop, [] => head = stop
  | head, stop, a :: l =>
      head = L.addr a ∧ L.addr a ≠ L.null ∧ L.Holds a (cell (L.addr a)) ∧
        L.Linked cell (L.next (cell (L.addr a))) stop l

variable {L : NodeLayout Addr Cell Item} {cell cell' : Addr → Cell} {head stop : Addr}
  {l l₁ l₂ l₃ : List Item} {a : Item}

@[simp]
theorem linked_nil : L.Linked cell head stop [] ↔ head = stop := Iff.rfl

theorem linked_cons : L.Linked cell head stop (a :: l) ↔
    head = L.addr a ∧ L.addr a ≠ L.null ∧ L.Holds a (cell (L.addr a)) ∧
      L.Linked cell (L.next (cell (L.addr a))) stop l := Iff.rfl

theorem Linked.frame (hlinked : L.Linked cell head stop l)
    (hsame : ∀ a ∈ l, cell' (L.addr a) = cell (L.addr a)) : L.Linked cell' head stop l := by
  induction l generalizing head with
  | nil => exact hlinked
  | cons a l ih =>
      obtain ⟨hhead, hne, hholds, htail⟩ := hlinked
      have ha := hsame a (by simp)
      refine ⟨hhead, hne, ha ▸ hholds, ?_⟩
      rw [ha]
      exact ih htail fun b hb => hsame b (by simp [hb])

theorem linked_append : L.Linked cell head stop (l₁ ++ l₂) ↔
    ∃ mid, L.Linked cell head mid l₁ ∧ L.Linked cell mid stop l₂ := by
  induction l₁ generalizing head with
  | nil => simp
  | cons a l₁ ih =>
      rw [List.cons_append, linked_cons, ih]
      simp only [linked_cons]
      exact ⟨fun ⟨h1, h2, h3, mid, h4, h5⟩ => ⟨mid, ⟨h1, h2, h3, h4⟩, h5⟩,
        fun ⟨mid, ⟨h1, h2, h3, h4⟩, h5⟩ => ⟨h1, h2, h3, mid, h4, h5⟩⟩

theorem Linked.holds (hlinked : L.Linked cell head stop l) (ha : a ∈ l) :
    L.addr a ≠ L.null ∧ L.Holds a (cell (L.addr a)) := by
  induction l generalizing head with
  | nil => simp at ha
  | cons b l ih =>
      obtain ⟨-, hne, hholds, htail⟩ := hlinked
      rcases List.mem_cons.mp ha with rfl | ha
      · exact ⟨hne, hholds⟩
      · exact ih htail ha

theorem Linked.after (l₁ : List Item) (hlinked : L.Linked cell head stop (l₁ ++ a :: l₂)) :
    L.Linked cell (L.next (cell (L.addr a))) stop l₂ := by
  obtain ⟨mid, -, hrest⟩ := linked_append.mp hlinked
  exact hrest.2.2.2

theorem Linked.splice (hlinked : L.Linked cell head stop (l₁ ++ a :: l₂))
    (hsame : ∀ b ∈ l₁, cell' (L.addr b) = cell (L.addr b))
    (hholds : L.Holds a (cell' (L.addr a)))
    (hrest : L.Linked cell' (L.next (cell' (L.addr a))) stop l₃) :
    L.Linked cell' head stop (l₁ ++ a :: l₃) := by
  obtain ⟨mid, hinit, hmid, hne, -⟩ := linked_append.mp hlinked
  exact linked_append.mpr ⟨mid, hinit.frame hsame, hmid, hne, hholds, hrest⟩

/-- A null-terminated list is determined by its head, if each cell determines its node. -/
theorem Linked.unique (hnode : ∀ a b c, L.addr a = L.addr b → L.Holds a c → L.Holds b c → a = b)
    (h₁ : L.Linked cell head L.null l₁) (h₂ : L.Linked cell head L.null l₂) : l₁ = l₂ := by
  induction l₁ generalizing head l₂ with
  | nil =>
      cases l₂ with
      | nil => rfl
      | cons b l₂ => exact absurd (h₂.1.symm.trans h₁) h₂.2.1
  | cons a l₁ ih =>
      cases l₂ with
      | nil => exact absurd (h₁.1.symm.trans h₂) h₁.2.1
      | cons b l₂ =>
          have haddr : L.addr a = L.addr b := h₁.1.symm.trans h₂.1
          have hholds := h₂.2.2.1
          have htail := h₂.2.2.2
          rw [← haddr] at hholds htail
          rw [hnode a b _ haddr h₁.2.2.1 hholds, ih h₁.2.2.2 htail]

end NodeLayout

end Magnos.Framework
