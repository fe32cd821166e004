import Mathlib.Data.List.TakeWhile
import Magnos.Fat32.Directory

/-!
# 8.3 names

`fat32_name_to_string` and `fat32_string_to_name` are inverse to each other on legal names,
and the comparison of `fat32_open` is equality of the eleven stored bytes.
-/

namespace Magnos

open Framework

/-- A character that may stand in a stored name. -/
def NameChar (c : UInt8) : Prop := c ≠ 0 ∧ c ≠ 0x20 ∧ c ≠ 0x2E

instance (c : UInt8) : Decidable (NameChar c) := inferInstanceAs (Decidable (_ ∧ _))

/-- The stored form of a base name and an extension. -/
def storedName (base ext : List UInt8) : List UInt8 :=
  base ++ List.replicate (8 - base.length) 0x20 ++ (ext ++ List.replicate (3 - ext.length) 0x20)

/-- The written form. -/
def writtenName (base ext : List UInt8) : List UInt8 :=
  if ext = [] then base else base ++ 0x2E :: ext

/-- A non-empty base and an extension that fit, with spaces only as their padding. -/
structure LegalParts (base ext : List UInt8) : Prop where
  base_pos : base ≠ []
  base_le : base.length ≤ 8
  ext_le : ext.length ≤ 3
  chars : ∀ c ∈ base ++ ext, NameChar c

/-- A legal stored name in upper case. -/
def LegalName (name : List UInt8) : Prop :=
  (∃ base ext, LegalParts base ext ∧ name = storedName base ext) ∧
    ∀ c ∈ name, ¬ (0x61 ≤ c ∧ c ≤ 0x7A)

theorem takeWhile_append_stop {p : UInt8 → Bool} (l r : List UInt8) (hl : ∀ c ∈ l, p c = true)
    (hr : ∀ c ∈ r.head?, p c = false) : (l ++ r).takeWhile p = l := by
  rw [List.takeWhile_append_of_pos hl]
  cases r with
  | nil => simp
  | cons c r =>
      have hc := hr c rfl
      simp [hc]

theorem takeWhile_padding (l : List UInt8) (n : Nat) :
    (l ++ List.replicate n 0x20).takeWhile (· ≠ 0x20) = l.takeWhile (· ≠ 0x20) := by
  induction l with
  | nil => cases n <;> simp [List.replicate_succ]
  | cons c l ih => simp only [List.cons_append, List.takeWhile_cons, ih]

theorem fat32NameToString_stored {base ext : List UInt8} (hbase : base.length ≤ 8)
    (hext : ext.length ≤ 3) :
    fat32NameToString (storedName base ext) =
      writtenName (base.takeWhile (· ≠ 0x20)) (ext.takeWhile (· ≠ 0x20)) := by
  have hlen : (base ++ List.replicate (8 - base.length) (0x20 : UInt8)).length = 8 := by
    rw [List.length_append, List.length_replicate]
    omega
  have hfirst : (storedName base ext).take 8 = base ++ List.replicate (8 - base.length) 0x20 :=
    List.take_left' hlen
  have hsecond : (storedName base ext).drop 8 = ext ++ List.replicate (3 - ext.length) 0x20 :=
    List.drop_left' hlen
  have heighth : (storedName base ext).getD 8 0 =
      (ext ++ List.replicate (3 - ext.length) 0x20).getD 0 0 := by
    rw [← hsecond, List.getD_eq_getElem?_getD, List.getD_eq_getElem?_getD, List.getElem?_drop]
  rw [fat32NameToString, hfirst, hsecond, takeWhile_padding, takeWhile_padding, heighth, writtenName]
  cases ext with
  | nil => simp
  | cons c ext =>
      by_cases hc : c = 0x20
      · simp [hc]
      · simp [hc]

/-- A base and an extension that fit, the base without dots and both without spaces. -/
structure ShortParts (base ext : List UInt8) : Prop where
  base_le : base.length ≤ 8
  ext_le : ext.length ≤ 3
  base_char : ∀ c ∈ base, c ≠ 0x20 ∧ c ≠ 0x2E
  ext_char : ∀ c ∈ ext, c ≠ 0x20

namespace ShortParts

variable {base ext : List UInt8}

theorem nameToString (hshort : ShortParts base ext) :
    fat32NameToString (storedName base ext) = writtenName base ext := by
  have hbase : base.takeWhile (· ≠ 0x20) = base := by
    rw [List.takeWhile_eq_self_iff]
    intro c hc
    simpa using (hshort.base_char c hc).1
  have hext : ext.takeWhile (· ≠ 0x20) = ext := by
    rw [List.takeWhile_eq_self_iff]
    intro c hc
    simpa using hshort.ext_char c hc
  rw [fat32NameToString_stored hshort.base_le hshort.ext_le, hbase, hext]

theorem dotted (hshort : ShortParts base ext) :
    fat32StringToName (base ++ 0x2E :: ext) = storedName base ext := by
  have hdot : ∀ c ∈ base, (decide (c ≠ 0x2E)) = true := by
    intro c hc
    simpa using (hshort.base_char c hc).2
  have htake : ((base ++ 0x2E :: ext).take 8).takeWhile (fun c => decide (c ≠ 0x2E)) = base := by
    rw [List.take_append, List.take_of_length_le hshort.base_le]
    apply takeWhile_append_stop _ _ hdot
    cases h : 8 - base.length <;> simp
  have hdrop : (base ++ 0x2E :: ext).dropWhile (fun c => decide (c ≠ 0x2E)) = 0x2E :: ext := by
    rw [List.dropWhile_append_of_pos hdot]
    simp
  simp only [fat32StringToName, htake, hdrop, List.drop_succ_cons, List.drop_zero,
    List.take_of_length_le hshort.ext_le, storedName]

theorem stringToName (hshort : ShortParts base ext) :
    fat32StringToName (writtenName base ext) = storedName base ext := by
  by_cases hext : ext = []
  · subst hext
    have hdot : ∀ c ∈ base, (decide (c ≠ 0x2E)) = true := by
      intro c hc
      simpa using (hshort.base_char c hc).2
    have htake : base.take 8 = base := List.take_of_length_le hshort.base_le
    have hwhile : base.takeWhile (fun c => decide (c ≠ 0x2E)) = base := by
      simpa using takeWhile_append_stop base [] hdot (by simp)
    have hdrop : base.dropWhile (fun c => decide (c ≠ 0x2E)) = [] := by
      have h : (base ++ []).dropWhile (fun c => decide (c ≠ 0x2E)) = List.dropWhile _ [] :=
        List.dropWhile_append_of_pos hdot
      simpa only [List.append_nil, List.dropWhile_nil] using h
    simp only [fat32StringToName, writtenName, if_true, htake, hwhile, hdrop, storedName]
    simp
  · rw [writtenName, if_neg hext, hshort.dotted]

end ShortParts

theorem LegalParts.short {base ext : List UInt8} (hlegal : LegalParts base ext) :
    ShortParts base ext where
  base_le := hlegal.base_le
  ext_le := hlegal.ext_le
  base_char c hc := (hlegal.chars c (List.mem_append_left _ hc)).2
  ext_char c hc := (hlegal.chars c (List.mem_append_right _ hc)).2.1

/-- A file name that is stored as it is written: a base and, behind a dot, its extension if there
is one. -/
def ShortName (name : List UInt8) : Prop :=
  ∃ base ext, ShortParts base ext ∧ name = writtenName base ext

theorem ShortName.length_le {name : List UInt8} (hname : ShortName name) : name.length ≤ 12 := by
  obtain ⟨base, ext, hshort, rfl⟩ := hname
  have hbase := hshort.base_le
  have hext := hshort.ext_le
  unfold writtenName
  split
  · omega
  · simp only [List.length_append, List.length_cons]
    omega

/-- The parts that `fat32_string_to_name` finds. -/
def nameBase (input : List UInt8) : List UInt8 := (input.take 8).takeWhile (· ≠ 0x2E)

def nameExt (input : List UInt8) : List UInt8 := ((input.dropWhile (· ≠ 0x2E)).drop 1).take 3

theorem fat32StringToName_stored (input : List UInt8) :
    fat32StringToName input = storedName (nameBase input) (nameExt input) := rfl

theorem nameBase_length (input : List UInt8) : (nameBase input).length ≤ 8 :=
  (List.takeWhile_sublist _).length_le.trans (List.length_take_le _ _)

theorem nameExt_length (input : List UInt8) : (nameExt input).length ≤ 3 := List.length_take_le _ _

/-- Whatever is looked up, the stored name reads as a short one. -/
theorem fat32NameToString_short (input : List UInt8) :
    ShortName (fat32NameToString (fat32StringToName input)) := by
  rw [fat32StringToName_stored, fat32NameToString_stored (nameBase_length input)
    (nameExt_length input)]
  refine ⟨_, _, ⟨?_, ?_, ?_, ?_⟩, rfl⟩
  · exact (List.takeWhile_sublist _).length_le.trans (nameBase_length input)
  · exact (List.takeWhile_sublist _).length_le.trans (nameExt_length input)
  · intro c hc
    have hdot := List.mem_takeWhile_imp ((List.takeWhile_sublist _).subset hc)
    have hspace := List.mem_takeWhile_imp hc
    exact ⟨by simpa using hspace, by simpa using hdot⟩
  · intro c hc
    simpa using List.mem_takeWhile_imp hc

theorem fat32NameToString_stringToName_iff (input : List UInt8) :
    fat32NameToString (fat32StringToName input) = input ↔ ShortName input := by
  constructor
  · intro heq
    rw [← heq]
    exact fat32NameToString_short input
  · rintro ⟨base, ext, hshort, rfl⟩
    rw [hshort.stringToName, hshort.nameToString]

theorem fat32NameToString_length (name : List UInt8) (hname : name.length = 11) :
    (fat32NameToString name).length ≤ 12 := by
  have hbase : ((name.take 8).takeWhile (· ≠ 0x20)).length ≤ 8 :=
    (List.takeWhile_sublist _).length_le.trans (List.length_take_le _ _)
  have hext : ((name.drop 8).takeWhile (· ≠ 0x20)).length ≤ 3 := by
    apply (List.takeWhile_sublist _).length_le.trans
    rw [List.length_drop, hname]
  rw [fat32NameToString]
  split
  · rw [List.length_append, List.length_cons]
    omega
  · omega

/-- The conversions are inverse to each other on legal names, apart from a dot with nothing behind
it, which is not stored. -/
theorem nameConversions_inverse (base ext : List UInt8) (hlegal : LegalParts base ext) :
    fat32StringToName (fat32NameToString (storedName base ext)) = storedName base ext ∧
      fat32NameToString (fat32StringToName base) = base ∧
      (fat32NameToString (fat32StringToName (base ++ 0x2E :: ext)) = base ++ 0x2E :: ext ↔
        ext ≠ []) ∧
      ∀ name, name.length = 11 → (fat32NameToString name).length + 1 ≤ 13 := by
  have hshort := hlegal.short
  have hbare : ShortParts base [] := ⟨hshort.base_le, Nat.zero_le 3, hshort.base_char, by simp⟩
  refine ⟨?_, ?_, ?_, ?_⟩
  · rw [hshort.nameToString, hshort.stringToName]
  · apply (fat32NameToString_stringToName_iff base).mpr
    exact ⟨base, [], hbare, rfl⟩
  · rw [hshort.dotted, hshort.nameToString, writtenName]
    by_cases hext : ext = []
    · simp [hext]
    · simp [hext]
  · intro name hname
    exact Nat.succ_le_succ (fat32NameToString_length name hname)

/-- `README.TXT`. -/
theorem nameConversions_inverse_readme :
    LegalParts [0x52, 0x45, 0x41, 0x44, 0x4D, 0x45] [0x54, 0x58, 0x54] ∧
      fat32NameToString (fat32StringToName
          [0x52, 0x45, 0x41, 0x44, 0x4D, 0x45, 0x2E, 0x54, 0x58, 0x54]) =
        [0x52, 0x45, 0x41, 0x44, 0x4D, 0x45, 0x2E, 0x54, 0x58, 0x54] := by
  have hlegal : LegalParts [0x52, 0x45, 0x41, 0x44, 0x4D, 0x45] [0x54, 0x58, 0x54] :=
    ⟨by decide, by decide, by decide, by simp [NameChar]⟩
  exact ⟨hlegal, (nameConversions_inverse _ _ hlegal).2.2.1.mpr (by decide)⟩

/-- `A.` comes back as `A`. -/
theorem nameConversions_lose_dot :
    ¬ ∀ base ext, LegalParts base ext → ∀ s, s = base ∨ s = base ++ 0x2E :: ext →
      fat32NameToString (fat32StringToName s) = s := by
  intro hclaim
  have hlegal : LegalParts [0x41] [] := ⟨by decide, by decide, by decide, by simp [NameChar]⟩
  have hback := hclaim [0x41] [] hlegal [0x41, 0x2E] (.inr rfl)
  revert hback
  decide

theorem strncmp_eq_zero (a b : List UInt8) (hlen : a.length = b.length) (hb : (0 : UInt8) ∉ b) :
    strncmp a b = 0 ↔ a = b := by
  induction a generalizing b with
  | nil =>
      cases b with
      | nil => simp [strncmp]
      | cons y b => simp at hlen
  | cons x a ih =>
      cases b with
      | nil => simp at hlen
      | cons y b =>
          simp only [List.length_cons, Nat.add_right_cancel_iff] at hlen
          simp only [List.mem_cons, not_or] at hb
          by_cases hxy : x = y
          · subst hxy
            rw [strncmp, if_pos ⟨Ne.symm hb.1, rfl⟩, ih b hlen hb.2]
            simp
          · have hne : x.toNat ≠ y.toNat := fun h => hxy (UInt8.toNat_inj.mp h)
            rw [strncmp, if_neg fun h => hxy h.2]
            simp only [List.cons.injEq, hxy, false_and, iff_false]
            omega

theorem fat32StringToName_length (input : List UInt8) : (fat32StringToName input).length = 11 := by
  have hbase := nameBase_length input
  have hext := nameExt_length input
  simp only [fat32StringToName_stored, storedName, List.length_append, List.length_replicate]
  omega

theorem fat32StringToName_noNul (input : List UInt8) (hinput : (0 : UInt8) ∉ input) :
    (0 : UInt8) ∉ fat32StringToName input := by
  have hbase : (0 : UInt8) ∉ (input.take 8).takeWhile (fun c => decide (c ≠ 0x2E)) := by
    intro hmem
    exact hinput ((List.takeWhile_sublist _).trans (List.take_sublist _ _) |>.subset hmem)
  have hext : (0 : UInt8) ∉ ((input.dropWhile (fun c => decide (c ≠ 0x2E))).drop 1).take 3 := by
    intro hmem
    exact hinput (((List.take_sublist _ _).trans (List.drop_sublist _ _)).trans
      (List.dropWhile_sublist _) |>.subset hmem)
  simp only [fat32StringToName, List.mem_append, List.mem_replicate, not_or]
  exact ⟨⟨hbase, by simp⟩, hext, by simp⟩

end Magnos
