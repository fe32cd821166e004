import Mathlib.Tactic
import Magnos.Framework.Search

/-!
# Physical memory manager

The bitmap of `pmm.c`: one bit a page, set when the page is used.  The operations keep the
byte arithmetic of the source; `PageFree` reads them as a set of free page numbers.
-/

namespace Magnos

open Framework

def pageSize : Nat := 4096

def totalMemory : Nat := 16 * 1024 * 1024

def totalPages : Nat := totalMemory / pageSize

theorem totalPages_eq : totalPages = 4096 := rfl

/-- The static `bitmap`, by byte index. -/
abbrev Bitmap := Nat → BitVec 8

def bitmapSet (bitmap : Bitmap) (p : Nat) : Bitmap :=
  Function.update bitmap (p / 8) (bitmap (p / 8) ||| 1#8 <<< (p % 8))

def bitmapClear (bitmap : Bitmap) (p : Nat) : Bitmap :=
  Function.update bitmap (p / 8) (bitmap (p / 8) &&& ~~~(1#8 <<< (p % 8)))

def bitmapTest (bitmap : Bitmap) (p : Nat) : BitVec 8 :=
  bitmap (p / 8) &&& 1#8 <<< (p % 8)

/-- `pmm_init`, with the address of the linker symbol `_kernel_end` as its argument. -/
@[irreducible]
def pmmInit (kernelEnd : Nat) : Bitmap :=
  let used : Bitmap := fun _ => 0xFF#8
  let kendPage := (kernelEnd + pageSize - 1) % 2 ^ 32 / pageSize
  let low := (List.range' kendPage (0x1F0000 / pageSize - kendPage)).foldl
    (fun bitmap p =>
      if p ≥ 0xA0000 / pageSize ∧ p ≤ 0xFFFFF / pageSize then bitmap else bitmapClear bitmap p)
    used
  (List.range' (0x300000 / pageSize) (totalPages - 0x300000 / pageSize)).foldl bitmapClear low

/-- The nested search of `pmm_alloc`: the first byte that is not full and its first clear bit. -/
@[irreducible]
def pmmFirstFree (bitmap : Bitmap) : Option (Nat × Nat) :=
  (List.range (totalPages / 8)).findSome? fun i =>
    if bitmap i = 0xFF#8 then none
    else (List.range 8).findSome? fun bit =>
      if bitmap i &&& 1#8 <<< bit = 0#8 then some (i, bit) else none

def pmmAlloc (bitmap : Bitmap) : Nat × Bitmap :=
  match pmmFirstFree bitmap with
  | some (i, bit) =>
      ((i * 8 + bit) * pageSize, Function.update bitmap i (bitmap i ||| 1#8 <<< bit))
  | none => (0, bitmap)

def pmmFree (bitmap : Bitmap) (addr : Nat) : Bitmap :=
  let page := addr / pageSize
  if page > 0 ∧ page < totalPages then bitmapClear bitmap page else bitmap

def pmmGetFreeCount (bitmap : Bitmap) : Nat :=
  (List.range (totalPages / 8)).foldl
    (fun count i => (List.range 8).foldl
      (fun count bit => if bitmap i &&& 1#8 <<< bit = 0#8 then count + 1 else count) count) 0

def pmmGetTotalCount : Nat := totalPages

/-- A page number the bitmap marks free. -/
def PageFree (bitmap : Bitmap) (p : Nat) : Prop :=
  p < totalPages ∧ bitmapTest bitmap p = 0#8

instance (bitmap : Bitmap) (p : Nat) : Decidable (PageFree bitmap p) :=
  inferInstanceAs (Decidable (_ ∧ _))

private theorem and_bit_eq_zero (x : BitVec 8) (k : Nat) (hk : k < 8) :
    x &&& 1#8 <<< k = 0#8 ↔ x.getLsbD k = false := by
  rw [← BitVec.twoPow_eq, BitVec.and_twoPow]
  cases hbit : x.getLsbD k with
  | false => simp
  | true =>
      simp only [if_true, Bool.true_eq_false, iff_false]
      intro hzero
      have hself := congrArg (fun y => BitVec.getLsbD y k) hzero
      simp [hk] at hself

theorem pageFree_iff (bitmap : Bitmap) (p : Nat) :
    PageFree bitmap p ↔ p < totalPages ∧ (bitmap (p / 8)).getLsbD (p % 8) = false := by
  unfold PageFree bitmapTest
  rw [and_bit_eq_zero _ _ (Nat.mod_lt _ (by decide))]

private theorem shifted_bit (k j : Nat) (hk : k < 8) :
    (1#8 <<< k).getLsbD j = decide (k = j) := by
  rw [← BitVec.twoPow_eq, BitVec.getLsbD_twoPow]
  simp [hk]

@[simp]
theorem pageFree_bitmapSet (bitmap : Bitmap) (p q : Nat) :
    PageFree (bitmapSet bitmap p) q ↔ q ≠ p ∧ PageFree bitmap q := by
  simp only [pageFree_iff, bitmapSet]
  by_cases hbyte : q / 8 = p / 8
  · rw [hbyte, Function.update_self, BitVec.getLsbD_or,
      shifted_bit _ _ (Nat.mod_lt _ (by decide))]
    have hbit : p % 8 = q % 8 ↔ q = p := by omega
    simp only [hbit, Bool.or_eq_false_iff, decide_eq_false_iff_not]
    tauto
  · have hne : q ≠ p := by intro h; exact hbyte (by rw [h])
    rw [Function.update_of_ne hbyte]
    tauto

@[simp]
theorem pageFree_bitmapClear (bitmap : Bitmap) (p q : Nat) (hp : p < totalPages) :
    PageFree (bitmapClear bitmap p) q ↔ q = p ∨ PageFree bitmap q := by
  simp only [pageFree_iff, bitmapClear]
  have hlow : q % 8 < 8 := Nat.mod_lt _ (by decide)
  by_cases hbyte : q / 8 = p / 8
  · rw [hbyte, Function.update_self, BitVec.getLsbD_and, BitVec.getLsbD_not,
      shifted_bit _ _ (Nat.mod_lt _ (by decide))]
    have hbit : p % 8 = q % 8 ↔ q = p := by omega
    by_cases heq : q = p
    · subst q
      simp [hp]
    · simp [hbit, heq, hlow]
  · have hne : q ≠ p := by intro h; exact hbyte (by rw [h])
    rw [Function.update_of_ne hbyte]
    tauto

private theorem full_byte_bit (k : Nat) (hk : k < 8) : 0xFF#8 &&& 1#8 <<< k ≠ 0#8 := by
  interval_cases k <;> decide

private theorem search_byte_none (bitmap : Bitmap) (i : Nat) :
    (if bitmap i = 0xFF#8 then none
      else (List.range 8).findSome? fun bit =>
        if bitmap i &&& 1#8 <<< bit = 0#8 then some (i, bit) else none) = none ↔
      ∀ bit, bit < 8 → bitmap i &&& 1#8 <<< bit ≠ 0#8 := by
  by_cases hfull : bitmap i = 0xFF#8
  · rw [if_pos hfull, hfull]
    simp only [true_iff]
    exact full_byte_bit
  · rw [if_neg hfull, findSome?_range_eq_none]
    simp

theorem bitmapTest_index (bitmap : Bitmap) (i bit : Nat) (hbit : bit < 8) :
    bitmapTest bitmap (i * 8 + bit) = bitmap i &&& 1#8 <<< bit := by
  have hdiv : (i * 8 + bit) / 8 = i := by omega
  have hmod : (i * 8 + bit) % 8 = bit := by omega
  rw [bitmapTest, hdiv, hmod]

private theorem pmmFirstFree_some (bitmap : Bitmap) (i bit : Nat)
    (hfound : pmmFirstFree bitmap = some (i, bit)) :
    bit < 8 ∧ PageFree bitmap (i * 8 + bit) ∧
      ∀ q, q < i * 8 + bit → ¬ PageFree bitmap q := by
  unfold pmmFirstFree at hfound
  obtain ⟨byte, hbyte, hstop, hbefore⟩ := (findSome?_range_eq_some _ _ _).mp hfound
  have hpartial : bitmap byte ≠ 0xFF#8 := by
    intro hfull
    rw [if_pos hfull] at hstop
    cases hstop
  rw [if_neg hpartial] at hstop
  obtain ⟨low, hlow, hclear, hbelow⟩ := (findSome?_range_eq_some _ _ _).mp hstop
  have hzero : bitmap byte &&& 1#8 <<< low = 0#8 := by
    by_contra hset
    rw [if_neg hset] at hclear
    cases hclear
  rw [if_pos hzero, Option.some.injEq, Prod.mk.injEq] at hclear
  obtain ⟨rfl, rfl⟩ := hclear
  have hrange : byte * 8 + low < totalPages := by
    rw [totalPages_eq] at *
    omega
  refine ⟨hlow, ⟨hrange, by rw [bitmapTest_index _ _ _ hlow, hzero]⟩, ?_⟩
  intro q hq hfree
  have hq8 : q % 8 < 8 := Nat.mod_lt _ (by decide)
  have hclearq := hfree.2
  rw [bitmapTest] at hclearq
  by_cases hsame : q / 8 = byte
  · have hnone := hbelow (q % 8) (by omega)
    rw [hsame] at hclearq
    rw [if_pos hclearq] at hnone
    cases hnone
  · have hnone := (search_byte_none bitmap (q / 8)).mp (hbefore (q / 8) (by omega))
    exact hnone (q % 8) hq8 hclearq

private theorem pmmFirstFree_none (bitmap : Bitmap) (hnone : pmmFirstFree bitmap = none)
    (p : Nat) : ¬ PageFree bitmap p := by
  intro hfree
  unfold pmmFirstFree at hnone
  have hbound : p / 8 < totalPages / 8 := by
    have hlt := hfree.1
    rw [totalPages_eq] at *
    omega
  have hbyte := (findSome?_range_eq_none _ _).mp hnone (p / 8) hbound
  exact (search_byte_none bitmap (p / 8)).mp hbyte (p % 8) (Nat.mod_lt _ (by decide)) hfree.2

/-- The lowest page the bitmap marks free. -/
def LowestFree (bitmap : Bitmap) (p : Nat) : Prop :=
  PageFree bitmap p ∧ ∀ q, q < p → ¬ PageFree bitmap q

theorem LowestFree.unique {bitmap : Bitmap} {p q : Nat}
    (hp : LowestFree bitmap p) (hq : LowestFree bitmap q) : p = q := by
  rcases Nat.lt_trichotomy p q with hlt | heq | hgt
  · exact (hq.2 p hlt hp.1).elim
  · exact heq
  · exact (hp.2 q hgt hq.1).elim

theorem pmmAlloc_cases (bitmap : Bitmap) :
    (∃ p, LowestFree bitmap p ∧ pmmAlloc bitmap = (p * pageSize, bitmapSet bitmap p)) ∨
      ((∀ p, ¬ PageFree bitmap p) ∧ pmmAlloc bitmap = (0, bitmap)) := by
  cases hfound : pmmFirstFree bitmap with
  | none =>
      right
      constructor
      · exact pmmFirstFree_none bitmap hfound
      · rw [pmmAlloc, hfound]
  | some result =>
      obtain ⟨i, bit⟩ := result
      obtain ⟨hbit, hfree, hbelow⟩ := pmmFirstFree_some bitmap i bit hfound
      have hdiv : (i * 8 + bit) / 8 = i := by omega
      have hmod : (i * 8 + bit) % 8 = bit := by omega
      left
      refine ⟨i * 8 + bit, ⟨hfree, hbelow⟩, ?_⟩
      rw [pmmAlloc, hfound, bitmapSet, hdiv, hmod]

theorem pageFree_pmmFree (bitmap : Bitmap) (addr q : Nat) :
    PageFree (pmmFree bitmap addr) q ↔
      (q = addr / pageSize ∧ 0 < q ∧ q < totalPages) ∨ PageFree bitmap q := by
  unfold pmmFree
  by_cases hrange : addr / pageSize > 0 ∧ addr / pageSize < totalPages
  · rw [if_pos hrange, pageFree_bitmapClear _ _ _ hrange.2]
    constructor
    · rintro (rfl | hfree)
      · exact Or.inl ⟨rfl, hrange.1, hrange.2⟩
      · exact Or.inr hfree
    · rintro (⟨rfl, -, -⟩ | hfree)
      · exact Or.inl rfl
      · exact Or.inr hfree
  · rw [if_neg hrange]
    constructor
    · exact Or.inr
    · rintro (⟨rfl, hpos, hlt⟩ | hfree)
      · exact (hrange ⟨hpos, hlt⟩).elim
      · exact hfree

private theorem pageFree_foldl_clear (keep : Nat → Prop) [DecidablePred keep]
    (pages : List Nat) (hpages : ∀ p ∈ pages, p < totalPages) (bitmap : Bitmap) (q : Nat) :
    PageFree (pages.foldl (fun b p => if keep p then b else bitmapClear b p) bitmap) q ↔
      (q ∈ pages ∧ ¬ keep q) ∨ PageFree bitmap q := by
  induction pages generalizing bitmap with
  | nil => simp
  | cons p pages ih =>
      rw [List.foldl_cons, ih (fun r hr => hpages r (by simp [hr]))]
      by_cases hkeep : keep p
      · rw [if_pos hkeep]
        have hne : q = p → ¬¬ keep q := by rintro rfl; exact not_not_intro hkeep
        simp only [List.mem_cons]
        tauto
      · rw [if_neg hkeep, pageFree_bitmapClear _ _ _ (hpages p (by simp))]
        have hnot : q = p → ¬ keep q := by rintro rfl; exact hkeep
        simp only [List.mem_cons]
        tauto

/-- The first page after the kernel image, as `pmm_init` rounds it. -/
def kernelEndPage (kernelEnd : Nat) : Nat := (kernelEnd + pageSize - 1) % 2 ^ 32 / pageSize

/-- The pages `pmm_init` hands to the allocator. -/
theorem pageFree_pmmInit (kernelEnd q : Nat) :
    PageFree (pmmInit kernelEnd) q ↔
      (kernelEndPage kernelEnd ≤ q ∧ q < 0x1F0 ∧ ¬ (0xA0 ≤ q ∧ q ≤ 0xFF)) ∨
        (0x300 ≤ q ∧ q < totalPages) := by
  have htotal := totalPages_eq
  have hused : ¬ PageFree (fun _ => 0xFF#8) q := by
    intro hfree
    exact full_byte_bit _ (Nat.mod_lt _ (by decide)) hfree.2
  have hhigh := pageFree_foldl_clear (fun _ => False)
    (List.range' (0x300000 / pageSize) (totalPages - 0x300000 / pageSize))
    (by intro p hp; rw [List.mem_range'_1] at hp; simp only [pageSize] at hp; omega)
  simp only [if_false, not_false_eq_true, and_true] at hhigh
  unfold pmmInit
  simp only [hhigh]
  rw [pageFree_foldl_clear (fun p => p ≥ 0xA0000 / pageSize ∧ p ≤ 0xFFFFF / pageSize)
    _ (by intro p hp; rw [List.mem_range'_1] at hp; simp only [pageSize] at hp; omega)]
  simp only [List.mem_range'_1, hused, or_false, kernelEndPage, htotal, pageSize]
  omega

end Magnos
