import Magnos.Syscall.Files

/-!
# Words of a command line

A word is a maximal run of characters other than the space.  The loops of `parse_command_line` stop
in a word when the buffer for it is full and go on from there: what is left of the word is found
again as the next argument.
-/

namespace Magnos

open Framework

/-- The words of a line. -/
def wordsOf (line : List UInt8) : List (List UInt8) := (line.splitOn 0x20).filter (· ≠ [])

/-- For each argument of the loop of `parse_command_line`, whether the loop has skipped no space
since the argument or program name before it, so that both belong to one word. -/
def continuesWord : (room : Nat) → List UInt8 → List Bool
  | 0, _ => []
  | room + 1, line =>
      let rest := line.dropWhile (· = 0x20)
      if rest = [] then []
      else
        decide (line.head? ≠ some 0x20) :: continuesWord room (rest.drop (takeWord rest).length)

/-- The end of a word: the line is over or goes on with a space. -/
def AtSpace (line : List UInt8) : Prop := ∀ c ∈ line.head?, c = 0x20

theorem wordsOf_space (line : List UInt8) : wordsOf (0x20 :: line) = wordsOf line := by
  have hsplit := List.splitOn_append_cons_self (a := (0x20 : UInt8)) [] line
  simp only [wordsOf, List.nil_append] at hsplit ⊢
  rw [hsplit]
  simp

theorem wordsOf_dropWhile (line : List UInt8) :
    wordsOf (line.dropWhile (· = 0x20)) = wordsOf line := by
  induction line with
  | nil => rfl
  | cons c line ih =>
      by_cases hc : c = 0x20
      · rw [List.dropWhile_cons_of_pos (by simpa using hc), ih, hc, wordsOf_space]
      · rw [List.dropWhile_cons_of_neg (by simpa using hc)]

theorem wordsOf_append {word tail : List UInt8} (hne : word ≠ []) (hword : 0x20 ∉ word)
    (htail : AtSpace tail) : wordsOf (word ++ tail) = word :: wordsOf tail := by
  cases tail with
  | nil => simp [wordsOf, List.splitOn_eq_singleton hword, hne]
  | cons c tail =>
      obtain rfl : c = 0x20 := htail c rfl
      rw [wordsOf_space]
      simp [wordsOf, List.splitOn_append_cons_self, List.splitOn_eq_singleton hword, hne]

/-- A line that starts with `word`, after spaces. -/
structure FirstWord (line word tail : List UInt8) : Prop where
  split : line.dropWhile (· = 0x20) = word ++ tail
  ne_nil : word ≠ []
  no_space : 0x20 ∉ word
  ends : AtSpace tail

theorem exists_firstWord {line : List UInt8} (hne : line.dropWhile (· = 0x20) ≠ []) :
    ∃ word tail, FirstWord line word tail := by
  generalize hrest : line.dropWhile (· = 0x20) = rest at hne
  refine ⟨rest.takeWhile (· ≠ 0x20), rest.dropWhile (· ≠ 0x20), ?_, ?_, ?_, ?_⟩
  · rw [hrest, List.takeWhile_append_dropWhile]
  · cases rest with
    | nil => exact absurd rfl hne
    | cons c rest =>
        have hc : c ≠ 0x20 := by
          have hhead := List.head?_dropWhile_not (fun x : UInt8 => x = 0x20) line
          rw [hrest] at hhead
          simpa using hhead
        simp [hc]
  · intro hmem
    have hnot := List.all_eq_true.mp List.all_takeWhile 0x20 hmem
    simp at hnot
  · intro c hc
    have hhead := List.head?_dropWhile_not (fun x : UInt8 => x ≠ 0x20) rest
    rw [hc] at hhead
    simpa using hhead

namespace FirstWord

variable {line word tail : List UInt8}

theorem wordsOf_eq (h : FirstWord line word tail) : wordsOf line = word :: wordsOf tail := by
  rw [← wordsOf_dropWhile, h.split, wordsOf_append h.ne_nil h.no_space h.ends]

theorem rest_ne_nil (h : FirstWord line word tail) : line.dropWhile (· = 0x20) ≠ [] := by
  simp [h.split, h.ne_nil]

theorem takeWord_eq (h : FirstWord line word tail) :
    takeWord (line.dropWhile (· = 0x20)) = word.take (maxArgLen - 1) := by
  have hword : (word ++ tail).takeWhile (· ≠ 0x20) = word := by
    rw [List.takeWhile_append_of_pos]
    · cases tail with
      | nil => simp
      | cons c tail => simp [h.ends c rfl]
    · intro c hc
      simpa using fun heq : c = 0x20 => h.no_space (heq ▸ hc)
  rw [takeWord, h.split, hword]

theorem drop_eq (h : FirstWord line word tail) :
    (line.dropWhile (· = 0x20)).drop (takeWord (line.dropWhile (· = 0x20))).length =
      word.drop (maxArgLen - 1) ++ tail := by
  rw [h.takeWord_eq, h.split, List.length_take]
  by_cases hshort : word.length ≤ maxArgLen - 1
  · simp [Nat.min_eq_right hshort, List.drop_eq_nil_of_le hshort]
  · rw [Nat.min_eq_left (by omega), List.drop_append_of_le_length (by omega)]

theorem parseWords_succ (h : FirstWord line word tail) (room : Nat) :
    parseWords (room + 1) line =
      word.take (maxArgLen - 1) :: parseWords room (word.drop (maxArgLen - 1) ++ tail) := by
  simp only [parseWords, h.rest_ne_nil, if_false, h.drop_eq]
  rw [h.takeWord_eq]

theorem continuesWord_succ (h : FirstWord line word tail) (room : Nat) :
    continuesWord (room + 1) line =
      decide (line.head? ≠ some 0x20) ::
        continuesWord room (word.drop (maxArgLen - 1) ++ tail) := by
  simp only [continuesWord, h.rest_ne_nil, if_false, h.drop_eq]

theorem continues_long (h : FirstWord line word tail) (hlong : ¬ word.length ≤ maxArgLen - 1)
    (room : Nat) : true ∈ continuesWord (room + 1) (word.drop (maxArgLen - 1) ++ tail) := by
  have hlt : maxArgLen - 1 < word.length := by omega
  have hspace : word[maxArgLen - 1] ≠ 0x20 := fun heq => h.no_space (heq ▸ List.getElem_mem hlt)
  rw [List.drop_eq_getElem_cons hlt, List.cons_append, continuesWord]
  simp [hspace]

end FirstWord

theorem wordsOf_blank {line : List UInt8} (hblank : line.dropWhile (· = 0x20) = []) :
    wordsOf line = [] := by
  rw [← wordsOf_dropWhile, hblank]
  rfl

theorem parseWords_eq {room : Nat} {line : List UInt8}
    (hshort : ∀ w ∈ (wordsOf line).take (room - 1), w.length ≤ maxArgLen - 1) :
    parseWords room line = ((wordsOf line).take room).map (·.take (maxArgLen - 1)) := by
  induction room generalizing line with
  | zero => simp [parseWords]
  | succ room ih =>
      by_cases hblank : line.dropWhile (· = 0x20) = []
      · simp [parseWords, wordsOf_blank hblank, hblank]
      · obtain ⟨word, tail, h⟩ := exists_firstWord hblank
        rw [h.wordsOf_eq] at hshort ⊢
        rw [h.parseWords_succ, List.take_succ_cons, List.map_cons]
        cases room with
        | zero => simp [parseWords]
        | succ room =>
            simp only [Nat.add_sub_cancel, List.take_succ_cons, List.forall_mem_cons] at hshort
            rw [List.drop_eq_nil_of_le hshort.1, List.nil_append, ih hshort.2]

/-- After a whole word, an argument continues a word exactly if a word before it is too long. -/
theorem continuesWord_iff {room : Nat} {line : List UInt8} (hline : AtSpace line) :
    true ∉ continuesWord room line ↔
      ∀ w ∈ (wordsOf line).take (room - 1), w.length ≤ maxArgLen - 1 := by
  induction room generalizing line with
  | zero => simp [continuesWord]
  | succ room ih =>
      by_cases hblank : line.dropWhile (· = 0x20) = []
      · simp [continuesWord, wordsOf_blank hblank, hblank]
      · obtain ⟨word, tail, h⟩ := exists_firstWord hblank
        have hspace : line.head? = some 0x20 := by
          cases line with
          | nil => simp at hblank
          | cons c line => rw [List.head?_cons, hline c rfl]
        rw [h.wordsOf_eq, h.continuesWord_succ]
        cases room with
        | zero => simp [continuesWord, hspace]
        | succ room =>
            by_cases hshort : word.length ≤ maxArgLen - 1
            · have htail := ih h.ends
              rw [List.drop_eq_nil_of_le hshort, List.nil_append]
              simpa [hspace, hshort] using htail
            · simp [h.continues_long hshort, hshort]

/-- What `parse_command_line` should make of a line: its words, and for `SYSCALL_GET_ARGS` what
fits the buffer. -/
structure ParsesWords (cmdline : CString) : Prop where
  program : (parseCommandLine cmdline).1 = ((wordsOf cmdline.chars).headD []).take (maxArgLen - 1)
  count : (parseCommandLine cmdline).2.words.length =
    min maxArgs ((wordsOf cmdline.chars).length - 1)
  args : ∀ k < (parseCommandLine cmdline).2.words.length,
    (parseCommandLine cmdline).2.words.getD k [] =
      ((wordsOf cmdline.chars).getD (k + 1) []).take (maxArgLen - 1)
  getArgs : ∀ k : Kernel, k.args = (parseCommandLine cmdline).2 → ∀ index buffer size : UInt32,
    index.toNat < k.args.words.length → buffer ≠ 0 → size ≠ 0 →
    (sysGetArgs k index buffer size).ret = some 0 ∧
      (sysGetArgs k index buffer size).stores =
        storesAt buffer ((k.args.words.getD index.toNat []).take (size.toNat - 1) ++ [0])
  oneArgument : true ∉ continuesWord maxArgs cmdline.afterProgram

theorem sysGetArgs_stores (k : Kernel) {index buffer size : UInt32}
    (hindex : index.toNat < k.args.words.length) (hbuffer : buffer ≠ 0) (hsize : size ≠ 0) :
    (sysGetArgs k index buffer size).ret = some 0 ∧
      (sysGetArgs k index buffer size).stores =
        storesAt buffer ((k.args.words.getD index.toNat []).take (size.toNat - 1) ++ [0]) := by
  have hcount := k.args.count_le
  have hint : toInt32 index.toNat = index.toNat := by
    rw [toInt32, if_pos]
    simp only [maxArgs] at hcount
    omega
  have hvalid : ¬ ((index.toNat : Int) < 0 ∨ (index.toNat : Int) ≥ k.args.words.length) := by omega
  have hnone : (index.toNat : Int) ≠ -1 := by omega
  have hgiven : ¬ (buffer = 0 ∨ size = 0) := by simp [hbuffer, hsize]
  simp only [sysGetArgs, hint, if_neg hnone, if_neg hgiven, if_neg hvalid, Int.toNat_natCast, argBytes,
    and_self]

theorem program_args_eq {cmdline : CString}
    (hshort : ∀ w ∈ (wordsOf cmdline.chars).take maxArgs, w.length ≤ maxArgLen - 1) :
    cmdline.program = ((wordsOf cmdline.chars).headD []).take (maxArgLen - 1) ∧
      parseWords maxArgs cmdline.afterProgram =
        (((wordsOf cmdline.chars).drop 1).take maxArgs).map (·.take (maxArgLen - 1)) ∧
      true ∉ continuesWord maxArgs cmdline.afterProgram := by
  by_cases hblank : cmdline.chars.dropWhile (· = 0x20) = []
  · have hafter : cmdline.afterProgram = [] := by simp [CString.afterProgram, hblank]
    simp [wordsOf_blank hblank, CString.program, hafter, hblank, takeWord, parseWords, continuesWord,
      maxArgs]
  · obtain ⟨word, tail, h⟩ := exists_firstWord hblank
    rw [h.wordsOf_eq] at hshort ⊢
    simp only [maxArgs, List.take_succ_cons, List.forall_mem_cons] at hshort
    have hafter : cmdline.afterProgram = tail := by
      have hdrop := h.drop_eq
      rwa [List.drop_eq_nil_of_le hshort.1, List.nil_append] at hdrop
    rw [hafter]
    exact ⟨h.takeWord_eq, parseWords_eq hshort.2, (continuesWord_iff h.ends).mpr hshort.2⟩

theorem short_of_oneArgument {cmdline : CString}
    (hone : true ∉ continuesWord maxArgs cmdline.afterProgram) :
    ∀ w ∈ (wordsOf cmdline.chars).take maxArgs, w.length ≤ maxArgLen - 1 := by
  by_cases hblank : cmdline.chars.dropWhile (· = 0x20) = []
  · simp [wordsOf_blank hblank]
  · obtain ⟨word, tail, h⟩ := exists_firstWord hblank
    have hafter : cmdline.afterProgram = word.drop (maxArgLen - 1) ++ tail := h.drop_eq
    rw [hafter] at hone
    by_cases hword : word.length ≤ maxArgLen - 1
    · rw [List.drop_eq_nil_of_le hword, List.nil_append, continuesWord_iff h.ends] at hone
      rw [h.wordsOf_eq]
      simp only [maxArgs, List.take_succ_cons, List.forall_mem_cons]
      exact ⟨hword, hone⟩
    · exact absurd (h.continues_long hword _) hone

/-- A line is split at its spaces exactly if none of its first sixteen words is too long. -/
theorem parseCommandLine_iff (cmdline : CString) :
    ParsesWords cmdline ↔ ∀ w ∈ (wordsOf cmdline.chars).take maxArgs, w.length ≤ maxArgLen - 1 := by
  constructor
  · intro hparses
    exact short_of_oneArgument hparses.oneArgument
  · intro hshort
    obtain ⟨hprogram, hargs, hone⟩ := program_args_eq hshort
    have hwords : (parseCommandLine cmdline).2.words =
        (((wordsOf cmdline.chars).drop 1).take maxArgs).map (·.take (maxArgLen - 1)) := hargs
    refine ⟨hprogram, by simp [hwords], ?_, ?_, hone⟩
    · intro k hk
      rw [hwords] at hk ⊢
      simp only [List.length_map, List.length_take, List.length_drop] at hk
      have hmax : k < maxArgs := by omega
      have hlt : k + 1 < (wordsOf cmdline.chars).length := by omega
      simp [List.getD_eq_getElem?_getD, List.getElem?_take_of_lt hmax,
        List.getElem?_eq_getElem hlt]
    · intro k _ index buffer size hindex hbuffer hsize
      exact sysGetArgs_stores k hindex hbuffer hsize

def longWord : CString where
  chars := List.replicate 64 0x61
  noNul := by decide

/-- A word of 64 characters leaves its last one as an argument. -/
theorem parseCommandLine_splits : ¬ ∀ cmdline : CString, ParsesWords cmdline := by
  intro hclaim
  have hcount := (hclaim longWord).count
  revert hcount
  decide +kernel

end Magnos
