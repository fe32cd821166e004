import Magnos.Syscall.OpenListed
import Magnos.Program.Machine

/-!
# From a name to a directory entry

`SYSCALL_FILE_OPEN` looks up the whole name that it is given, `SYSCALL_EXEC` the first eleven
characters of the command line's first word.  `fat32_string_to_name` then keeps eight characters of
what stands before the first dot and three of what stands behind it, so a name that is too long for
that is looked up as another one.
-/

namespace Magnos

open Framework

/-- The slot that `SYSCALL_FILE_OPEN` opens. -/
def sysOpenEntry (dev : Device) (clusters : Nat) (k : Kernel) (filename : UInt32) : Option DirEntry :=
  if filename = 0 then none
  else fat32OpenEntry dev clusters k.closeCurrent.fat (openName k.closeCurrent.mem filename)

/-- The slot that `SYSCALL_EXEC` reads a program from. -/
def sysExecEntry (dev : Device) (clusters : Nat) (k : Kernel) (cmd : UInt32) : Option DirEntry :=
  if cmd = 0 then none
  else fat32OpenEntry dev clusters k.fat (programFile (parseCommandLine (commandLine k.mem cmd)).1)

section Entries

variable (dev : Device) (clusters : Nat) (k : Kernel)

theorem sysFileOpen_entry (filename : UInt32) :
    ((sysFileOpen dev clusters k filename).ret = some 0 ↔
        sysOpenEntry dev clusters k filename ≠ none) ∧
      ∀ e, sysOpenEntry dev clusters k filename = some e →
        (sysFileOpen dev clusters k filename).kernel.fat.file = e.handle := by
  have hentry := fat32Open_entry dev clusters k.closeCurrent.fat
    (openName k.closeCurrent.mem filename)
  unfold sysOpenEntry sysFileOpen
  by_cases hptr : filename = 0
  · simp [hptr, Kernel.refuse]
  · rw [if_neg hptr, if_neg hptr]
    rcases hopen : fat32Open dev clusters k.closeCurrent.fat (openName k.closeCurrent.mem filename)
      with ⟨found, t⟩
    rw [hopen] at hentry
    rw [← hentry.1]
    refine ⟨?_, ?_⟩
    · cases found with
      | none => simp [hopen]
      | some found => cases found <;> simp [hopen]
    · intro e he
      have htrue : found = some true := hentry.1.mpr (by rw [he]; simp)
      subst htrue
      simp only [hopen]
      exact hentry.2 e he

theorem fat32OpenEntry_closeCurrent (filename : List UInt8) :
    fat32OpenEntry dev clusters k.closeCurrent.fat filename =
      fat32OpenEntry dev clusters k.fat filename := by
  unfold Kernel.closeCurrent
  split
  · exact fat32OpenEntry_withFile dev _ clusters k.fat filename
  · rfl

theorem sysOpenEntry_eq {filename : UInt32} (hptr : filename ≠ 0) :
    sysOpenEntry dev clusters k filename =
      fat32OpenEntry dev clusters k.fat (openName k.mem filename) := by
  rw [sysOpenEntry, if_neg hptr, k.closeCurrent_mem, fat32OpenEntry_closeCurrent]

end Entries

theorem Machine.fetch_entry (p : Platform) (m : Machine) {cmd : UInt32} (hcmd : cmd ≠ 0) :
    (sysExecEntry p.dev p.clusters m.kernel cmd = none →
      (m.fetch p cmd).1 = .hangs ∨ (m.fetch p cmd).1 = .failed (-1)) ∧
    ∀ e, sysExecEntry p.dev p.clusters m.kernel cmd = some e → ∃ fat : Fat32, fat.file = e.handle ∧
      m.fetch p cmd =
        let k := { m.kernel with args := (parseCommandLine (commandLine m.kernel.mem cmd)).2, fat := fat }
        if fat.file.size.toNat > 65536 then (.failed (-2), { k with fat := fat32Close fat })
        else readProgram p.dev p.execBuffer k := by
  have hentry := fat32Open_entry p.dev p.clusters m.kernel.fat
    (programFile (parseCommandLine (commandLine m.kernel.mem cmd)).1)
  unfold sysExecEntry Machine.fetch fetchProgram
  rw [if_neg hcmd]
  dsimp only
  rcases hopen : fat32Open p.dev p.clusters m.kernel.fat
    (programFile (parseCommandLine (commandLine m.kernel.mem cmd)).1) with ⟨found, t⟩
  rw [hopen] at hentry
  refine ⟨?_, ?_⟩
  · intro hnone
    have hfalse : found ≠ some true := fun h => hentry.1.mp h hnone
    cases found with
    | none => exact .inl rfl
    | some found =>
        cases found with
        | true => exact absurd rfl hfalse
        | false => exact .inr rfl
  · intro e he
    have htrue : found = some true := hentry.1.mpr (by rw [he]; simp)
    subst htrue
    refine ⟨t, hentry.2 e he, ?_⟩
    simp

theorem cString_take (mem : Memory) (ptr : UInt32) (n m : Nat) :
    cString mem ptr n = (cString mem ptr (n + m)).take n := by
  induction n generalizing ptr with
  | zero => rfl
  | succ n ih =>
      rw [Nat.succ_add, cString, cString]
      split
      · rfl
      · rw [List.take_succ_cons, ← ih]

theorem openName_eq_take (mem : Memory) (filename : UInt32) :
    openName mem filename = ((cString mem filename (2 ^ 32)).map toUpper).take 255 := by
  have hsplit : 2 ^ 32 = 255 + (2 ^ 32 - 255) := by omega
  rw [openName, cString_take mem filename 255 (2 ^ 32 - 255), ← hsplit, List.map_take]

theorem noNul_map_toUpper {chars : List UInt8} (hnul : (0 : UInt8) ∉ chars) :
    (0 : UInt8) ∉ chars.map toUpper := by
  intro hmem
  obtain ⟨c, hc, hzero⟩ := List.mem_map.mp hmem
  rw [toUpper_eq_zero hzero] at hc
  exact hnul hc

theorem noNul_take {chars : List UInt8} (hnul : (0 : UInt8) ∉ chars) (n : Nat) :
    (0 : UInt8) ∉ chars.take n := fun hmem => hnul ((List.take_sublist n chars).subset hmem)

theorem fat32StringToName_head (input : List UInt8) {c : UInt8} (hc : c ≠ 0x20) (hdot : c ≠ 0x2E) :
    (fat32StringToName input).head? = some c ↔ input.head? = some c := by
  cases input with
  | nil => simp [fat32StringToName, List.replicate_succ, Ne.symm hc]
  | cons d input =>
      by_cases hd : d = 0x2E
      · simp [fat32StringToName, hd, List.replicate_succ, Ne.symm hc, Ne.symm hdot]
      · simp [fat32StringToName, hd]

theorem fat32OpenEntry_deleted {dev : Device} {clusters : Nat} {s : Fat32} {filename : List UInt8}
    (hnul : (0 : UInt8) ∉ filename) (hfirst : filename.head? = some 0xE5) :
    fat32OpenEntry dev clusters s filename = none := by
  rw [Option.eq_none_iff_forall_ne_some]
  intro e he
  obtain ⟨hnamed, hname⟩ := fat32OpenEntry_name hnul he
  apply hnamed.1
  rw [DirEntry.Deleted, hname, fat32StringToName_head _ (by decide) (by decide), hfirst]

section OneEntry

/-- A root directory with one entry. -/
def nameDisk (name : List UInt8) (lba : Nat) : Sector := fun i =>
  if lba = 2 ∧ i < 11 then name.getD i 0 else if lba = 2 ∧ i = 11 then 0x20 else 0

def nameDevice (name : List UInt8) : Device := fun _ lba => some (nameDisk name lba)

variable {name : List UInt8} (hlen : name.length = 11)
include hlen

theorem nameDisk_name : (dirEntry (nameDisk name 2) 0).name = name := by
  apply List.ext_getElem
  · rw [dirEntry_name_length, hlen]
  · intro i hi hi'
    rw [hlen] at hi'
    simp [dirEntry, nameDisk, hi', hlen]

theorem nameDevice_opens (hnul : (0 : UInt8) ∉ name) (hdeleted : name.head? ≠ some 0xE5) (s : Fat32)
    (hfs : s.fs = sampleFat32.fs) {filename : List UInt8} (hname : fat32StringToName filename = name) :
    fat32OpenEntry (nameDevice name) 1 s filename = some (dirEntry (nameDisk name 2) 0) := by
  have hdev : (nameDevice name).Serves (nameDisk name) := fun _ _ => rfl
  have hend : ¬ (dirEntry (nameDisk name 2) 0).IsEnd := by
    rw [DirEntry.IsEnd, nameDisk_name hlen]
    exact fun hhead => hnul (List.mem_of_mem_head? hhead)
  have hnamed : (dirEntry (nameDisk name 2) 0).Named := by
    refine ⟨?_, ?_⟩
    · rw [DirEntry.Deleted, nameDisk_name hlen]
      exact hdeleted
    · have hattr : (dirEntry (nameDisk name 2) 0).attr = 0x20 := by simp [dirEntry, nameDisk]
      rw [DirEntry.LongName, hattr]
      decide
  have hvisit := openScan_visit name none (dirEntry (nameDisk name 2) 0) hnul
    (by rw [nameDisk_name hlen])
  rw [if_neg hend, if_pos ⟨hnamed, nameDisk_name hlen⟩] at hvisit
  have hsectors : clusterSectors sampleFat32.fs 2 = [2] := by decide
  have hslots : clusterSlots (nameDisk name) s.fs 2 = dirEntry (nameDisk name 2) 0 ::
      (List.range' 1 15).map (dirEntry (nameDisk name 2)) := by
    rw [clusterSlots, hfs, hsectors]
    rfl
  have hstop : (openScan name).entries (clusterSlots (nameDisk name) s.fs 2) none =
      (true, some (dirEntry (nameDisk name 2) 0)) := by
    rw [hslots]
    exact Scan.entries_cons_stop _ _ rfl hvisit
  obtain ⟨t, -, hchain⟩ := (openScan name).chain_stop hdev 0 ⟨by decide, rfl⟩ hstop
  have hroot : s.fs.rootDirCluster.toNat = 2 := by rw [hfs]; rfl
  rw [fat32OpenEntry, if_neg (by rw [hfs]; decide), hname, hroot, hchain]

end OneEntry

theorem sysOpenEntry_nameDevice (mem : Memory) {filename : UInt32} (hptr : filename ≠ 0)
    (hdeleted : (openName mem filename).head? ≠ some 0xE5) :
    sysOpenEntry (nameDevice (fat32StringToName (openName mem filename))) 1
        { sampleKernel with mem := mem } filename =
      some (dirEntry (nameDisk (fat32StringToName (openName mem filename)) 2) 0) := by
  have hnul := noNul_map_toUpper (cString_noNul mem filename 255)
  rw [sysOpenEntry_eq _ _ _ hptr]
  apply nameDevice_opens (fat32StringToName_length _) (fat32StringToName_noNul _ hnul) _ _ rfl rfl
  rwa [ne_eq, fat32StringToName_head _ (by decide) (by decide)]

/-- `SYSCALL_FILE_OPEN` opens only files that bear the name it was given exactly if that name, in
upper case, is short, or if nothing can bear it. -/
theorem sysFileOpen_named_iff (mem : Memory) (filename : UInt32) :
    (∀ (dev : Device) (clusters : Nat) (k : Kernel), k.mem = mem →
      (sysFileOpen dev clusters k filename).ret = some 0 →
        ∃ e, sysOpenEntry dev clusters k filename = some e ∧
          (sysFileOpen dev clusters k filename).kernel.fat.file = e.handle ∧
          fat32NameToString e.name = (cString mem filename (2 ^ 32)).map toUpper) ↔
      filename = 0 ∨ ((cString mem filename (2 ^ 32)).map toUpper).head? = some 0xE5 ∨
        ShortName ((cString mem filename (2 ^ 32)).map toUpper) := by
  have hcut := openName_eq_take mem filename
  have hnul : (0 : UInt8) ∉ openName mem filename :=
    noNul_map_toUpper (cString_noNul mem filename 255)
  generalize (cString mem filename (2 ^ 32)).map toUpper = full at hcut ⊢
  have hhead : (openName mem filename).head? = full.head? := by rw [hcut, List.head?_take]; simp
  constructor
  · intro hnamed
    by_contra hcond
    obtain ⟨hptr, hfirst, hlong⟩ : filename ≠ 0 ∧ full.head? ≠ some 0xE5 ∧ ¬ ShortName full := by
      simpa only [not_or] using hcond
    have hentry := sysOpenEntry_nameDevice mem hptr (by rw [hhead]; exact hfirst)
    have hopened := (sysFileOpen_entry (nameDevice (fat32StringToName (openName mem filename))) 1
      { sampleKernel with mem := mem } filename).1.mpr (by rw [hentry]; simp)
    obtain ⟨e, he, -, hname⟩ := hnamed _ _ _ rfl hopened
    rw [hentry] at he
    cases he
    rw [nameDisk_name (fat32StringToName_length _)] at hname
    apply hlong
    rw [← hname]
    exact fat32NameToString_short _
  · intro hcond dev clusters k hmem hret
    obtain ⟨hiff, hhandle⟩ := sysFileOpen_entry dev clusters k filename
    obtain ⟨e, he⟩ := Option.ne_none_iff_exists'.mp (hiff.mp hret)
    refine ⟨e, he, hhandle e he, ?_⟩
    rcases hcond with rfl | hcond
    · simp [sysOpenEntry] at he
    · have hptr : filename ≠ 0 := by
        rintro rfl
        simp [sysOpenEntry] at he
      rw [sysOpenEntry_eq _ _ _ hptr, hmem] at he
      rcases hcond with hfirst | hshort
      · rw [fat32OpenEntry_deleted hnul (hhead.trans hfirst)] at he
        cases he
      · have hlen := hshort.length_le
        rw [(fat32OpenEntry_name hnul he).2, hcut, List.take_of_length_le (by omega),
          (fat32NameToString_stringToName_iff full).mpr hshort]

/-- The name `ABCDEFGHI`, one character longer than a base may be. -/
def nineLetters : CString := ⟨[0x41, 0x42, 0x43, 0x44, 0x45, 0x46, 0x47, 0x48, 0x49], by decide⟩

theorem cString_at {chars : List UInt8} (hnul : (0 : UInt8) ∉ chars) (hlen : chars.length < 2 ^ 32) :
    cString (Memory.ofBytes 0x200000 chars) 0x200000 (2 ^ 32) = chars := by
  have hstring := cString_ofBytes 0x200000 chars hnul (2 ^ 32) 0 (by omega) hlen (Nat.zero_le _)
  rwa [List.drop_zero, show (UInt32.ofNat 0) = 0 from rfl, UInt32.add_zero] at hstring

/-- It opens the file `ABCDEFGH`. -/
theorem sysFileOpen_nineLetters :
    cString (Memory.ofBytes 0x200000 nineLetters.chars) 0x200000 (2 ^ 32) = nineLetters.chars ∧
      ∃ (dev : Device) (k : Kernel) (e : DirEntry),
        k.mem = Memory.ofBytes 0x200000 nineLetters.chars ∧
        (sysFileOpen dev 1 k 0x200000).ret = some 0 ∧ sysOpenEntry dev 1 k 0x200000 = some e ∧
        fat32NameToString e.name = nineLetters.chars.take 8 := by
  have hstring := cString_at nineLetters.noNul (by decide)
  have hopenName : openName (Memory.ofBytes 0x200000 nineLetters.chars) 0x200000 =
      nineLetters.chars := by
    rw [openName_eq_take, hstring]
    decide
  have hentry := sysOpenEntry_nameDevice (Memory.ofBytes 0x200000 nineLetters.chars)
    (show (0x200000 : UInt32) ≠ 0 by decide) (by rw [hopenName]; decide)
  refine ⟨hstring, _, _, _, rfl, ?_, hentry, ?_⟩
  · exact (sysFileOpen_entry _ _ _ _).1.mpr (by rw [hentry]; simp)
  · rw [nameDisk_name (fat32StringToName_length _), hopenName]
    decide

section ShortBuffer

theorem ne_dot {chars : List UInt8} (hdot : (0x2E : UInt8) ∉ chars) :
    ∀ c ∈ chars, decide (c ≠ 0x2E) = true := by
  intro c hc
  rw [decide_eq_true_eq]
  rintro rfl
  exact hdot hc

theorem nameExt_append (base ext : List UInt8) (hbase : (0x2E : UInt8) ∉ base) :
    nameExt (base ++ 0x2E :: ext) = ext.take 3 := by
  rw [nameExt, List.dropWhile_append_of_pos (ne_dot hbase)]
  simp

theorem nameExt_of_noDot {name : List UInt8} (hdot : (0x2E : UInt8) ∉ name) : nameExt name = [] := by
  rw [nameExt, List.dropWhile_eq_nil_iff.mpr (ne_dot hdot)]
  rfl

theorem nameExt_take (base ext : List UInt8) (hbase : (0x2E : UInt8) ∉ base) :
    nameExt ((base ++ 0x2E :: ext).take 11) = (ext.take (10 - base.length)).take 3 := by
  by_cases hlong : 11 ≤ base.length
  · have hzero : 10 - base.length = 0 := by omega
    rw [List.take_append_of_le_length hlong, hzero,
      nameExt_of_noDot fun h => hbase ((List.take_sublist _ _).subset h)]
    rfl
  · have hrest : 11 - base.length = 10 - base.length + 1 := by omega
    rw [List.take_append, List.take_of_length_le (by omega), hrest, List.take_succ_cons,
      nameExt_append base _ hbase]

theorem nameExt_subset (name : List UInt8) : nameExt name ⊆ name :=
  (((List.take_sublist _ _).trans (List.drop_sublist _ _)).trans (List.dropWhile_sublist _)).subset

theorem storedName_inj {base ext ext' : List UInt8} (hbase : base.length ≤ 8)
    (hext : (0x20 : UInt8) ∉ ext) (hext' : (0x20 : UInt8) ∉ ext') :
    storedName base ext = storedName base ext' ↔ ext = ext' := by
  have htrim : ∀ l : List UInt8, (0x20 : UInt8) ∉ l →
      ((storedName base l).drop 8).takeWhile (· ≠ 0x20) = l := by
    intro l hl
    have hlen : (base ++ List.replicate (8 - base.length) (0x20 : UInt8)).length = 8 := by
      rw [List.length_append, List.length_replicate]
      omega
    rw [storedName, List.drop_left' hlen, takeWhile_padding, List.takeWhile_eq_self_iff]
    intro c hc
    rw [decide_eq_true_eq]
    rintro rfl
    exact hl hc
  constructor
  · intro heq
    rw [← htrim ext hext, heq, htrim ext' hext']
  · rintro rfl
    rfl

theorem stringToName_take_iff (name : List UInt8) (hspace : (0x20 : UInt8) ∉ name) :
    fat32StringToName (name.take 11) = fat32StringToName name ↔
      name.length ≤ 11 ∨ (name.takeWhile (· ≠ 0x2E)).length ≤ 7 ∨
        name.length ≤ (name.takeWhile (· ≠ 0x2E)).length + 1 := by
  have hbase : nameBase (name.take 11) = nameBase name := by
    rw [nameBase, List.take_take]
    rfl
  have hstored : fat32StringToName (name.take 11) = fat32StringToName name ↔
      nameExt (name.take 11) = nameExt name := by
    rw [fat32StringToName_stored, fat32StringToName_stored, hbase]
    apply storedName_inj (nameBase_length name)
    · exact fun h => hspace ((List.take_sublist _ _).subset (nameExt_subset _ h))
    · exact fun h => hspace (nameExt_subset _ h)
  have hsplit := List.takeWhile_append_dropWhile (p := fun c => decide (c ≠ 0x2E)) (l := name)
  have hdot : (0x2E : UInt8) ∉ name.takeWhile (· ≠ 0x2E) := by
    intro hmem
    simpa using List.mem_takeWhile_imp hmem
  rw [hstored]
  cases hrest : name.dropWhile (fun c => decide (c ≠ 0x2E)) with
  | nil =>
      rw [hrest, List.append_nil] at hsplit
      rw [hsplit] at hdot ⊢
      rw [nameExt_of_noDot hdot, nameExt_of_noDot fun h => hdot ((List.take_sublist _ _).subset h)]
      simp
  | cons c ext =>
      obtain rfl : c = 0x2E := by
        have hfalse := List.head?_dropWhile_not (fun c => decide (c ≠ 0x2E)) name
        rw [hrest] at hfalse
        simpa using hfalse
      rw [hrest] at hsplit
      have hlen := congrArg List.length hsplit
      rw [List.length_append, List.length_cons] at hlen
      generalize name.takeWhile (fun c => decide (c ≠ 0x2E)) = base at hsplit hdot hlen ⊢
      rw [← hsplit, nameExt_take base ext hdot, nameExt_append base ext hdot, List.take_take,
        List.take_eq_take_iff, hsplit]
      omega

end ShortBuffer

theorem toUpper_eq_iff {d : UInt8} (hd : ¬ (0x41 ≤ d ∧ d ≤ 0x5A)) (hd' : ¬ (0x61 ≤ d ∧ d ≤ 0x7A))
    (c : UInt8) : toUpper c = d ↔ c = d := by
  unfold toUpper
  split
  · next hlower =>
      refine iff_of_false ?_ ?_
      · rintro rfl
        grind
      · rintro rfl
        exact hd' hlower
  · exact Iff.rfl

theorem mem_map_toUpper {d : UInt8} (hd : ¬ (0x41 ≤ d ∧ d ≤ 0x5A)) (hd' : ¬ (0x61 ≤ d ∧ d ≤ 0x7A))
    (chars : List UInt8) : d ∈ chars.map toUpper ↔ d ∈ chars := by
  simp only [List.mem_map, toUpper_eq_iff hd hd', exists_eq_right]

theorem takeWhile_map_toUpper (chars : List UInt8) :
    (chars.map toUpper).takeWhile (· ≠ 0x2E) = (chars.takeWhile (· ≠ 0x2E)).map toUpper := by
  have hdot : ((fun c => decide (c ≠ 0x2E)) ∘ toUpper) = fun c => decide (c ≠ 0x2E) := by
    funext c
    simp only [Function.comp_apply, ne_eq, toUpper_eq_iff (d := 0x2E) (by decide) (by decide)]
  rw [List.takeWhile_map, hdot]

theorem head?_map_toUpper (chars : List UInt8) :
    (chars.map toUpper).head? = some 0xE5 ↔ chars.head? = some 0xE5 := by
  cases chars with
  | nil => simp
  | cons c chars =>
      simp only [List.map_cons, List.head?_cons, Option.some.injEq]
      exact toUpper_eq_iff (by decide) (by decide) c

theorem program_word {w : List UInt8} (hspace : (0x20 : UInt8) ∉ w) (hlen : w.length ≤ 63)
    {cmdline : CString} (hline : cmdline.chars = w) : cmdline.program = w := by
  have hdrop : w.dropWhile (· = 0x20) = w := by
    cases w with
    | nil => rfl
    | cons c w =>
        rw [List.mem_cons, not_or] at hspace
        simp [Ne.symm hspace.1]
  have htake : w.takeWhile (· ≠ 0x20) = w := by
    rw [List.takeWhile_eq_self_iff]
    intro c hc
    rw [decide_eq_true_eq]
    rintro rfl
    exact hspace hc
  rw [CString.program, hline, hdrop, takeWord, htake]
  exact List.take_of_length_le hlen

theorem sysExecEntry_name {dev : Device} {clusters : Nat} {k : Kernel} {cmd : UInt32} {w : List UInt8}
    (hprogram : (commandLine k.mem cmd).program = w) {e : DirEntry}
    (hexec : sysExecEntry dev clusters k cmd = some e) :
    e.name = fat32StringToName (programFile w) := by
  unfold sysExecEntry at hexec
  split at hexec
  · cases hexec
  · rw [← hprogram]
    exact (fat32OpenEntry_name (commandLine k.mem cmd).programFile_noNul hexec).2

/-- `SYSCALL_EXEC` and `SYSCALL_FILE_OPEN` find the same entry for a word in every directory exactly
if the word has at most eleven characters, has its first dot among the first eight, has no extension,
or names nothing. -/
theorem execOpen_sameEntry_iff (w : List UInt8) (hlen : w.length ≤ 63) (hspace : (0x20 : UInt8) ∉ w)
    (hnul : (0 : UInt8) ∉ w) :
    (∀ (dev : Device) (clusters : Nat) (k : Kernel) (cmd filename : UInt32), cmd ≠ 0 →
      filename ≠ 0 → (commandLine k.mem cmd).program = w → cString k.mem filename (2 ^ 32) = w →
        sysExecEntry dev clusters k cmd = sysOpenEntry dev clusters k filename) ↔
      w.head? = some 0xE5 ∨ w.length ≤ 11 ∨ (w.takeWhile (· ≠ 0x2E)).length ≤ 7 ∨
        w.length ≤ (w.takeWhile (· ≠ 0x2E)).length + 1 := by
  have hsame : fat32StringToName (programFile w) = fat32StringToName (w.map toUpper) ↔
      w.length ≤ 11 ∨ (w.takeWhile (· ≠ 0x2E)).length ≤ 7 ∨
        w.length ≤ (w.takeWhile (· ≠ 0x2E)).length + 1 := by
    rw [programFile, List.map_take, stringToName_take_iff _
      (mt (mem_map_toUpper (by decide) (by decide) w).mp hspace), takeWhile_map_toUpper,
      List.length_map, List.length_map]
  have hopenName : ∀ (mem : Memory) (filename : UInt32), cString mem filename (2 ^ 32) = w →
      openName mem filename = w.map toUpper := by
    intro mem filename hstring
    rw [openName_eq_take, hstring, List.take_of_length_le]
    rw [List.length_map]
    omega
  have hnul' := noNul_map_toUpper hnul
  rw [← hsame]
  constructor
  · intro halike
    by_contra hcond
    obtain ⟨hfirst, hdiffer⟩ := not_or.mp hcond
    have hstring := cString_at hnul (by omega)
    have hname := hopenName _ _ hstring
    have hptr : (0x200000 : UInt32) ≠ 0 := by decide
    have hentry := sysOpenEntry_nameDevice (Memory.ofBytes 0x200000 w) hptr (by
      rwa [hname, ne_eq, head?_map_toUpper])
    have hprogram : (commandLine (Memory.ofBytes 0x200000 w) 0x200000).program = w :=
      program_word hspace hlen hstring
    have hexec := (halike _ _ _ _ _ hptr hptr hprogram hstring).trans hentry
    have hfile := sysExecEntry_name hprogram hexec
    rw [nameDisk_name (fat32StringToName_length _), hname] at hfile
    exact hdiffer hfile.symm
  · intro hcond dev clusters k cmd filename hcmd hptr hprogram hstring
    have hparse : (parseCommandLine (commandLine k.mem cmd)).1 = w := hprogram
    rw [sysOpenEntry_eq _ _ _ hptr, hopenName _ _ hstring, sysExecEntry, if_neg hcmd, hparse]
    rcases hcond with hfirst | hequal
    · have hfirst' := (head?_map_toUpper w).mpr hfirst
      rw [fat32OpenEntry_deleted hnul' hfirst', programFile, List.map_take,
        fat32OpenEntry_deleted (noNul_take hnul' 11) (by rw [List.head?_take]; simpa using hfirst')]
    · rw [fat32OpenEntry, hequal, fat32OpenEntry]

theorem execOpen_sameEntry_iff_word :
    [0x4C, 0x53].length ≤ 63 ∧
      ∀ (dev : Device) (clusters : Nat) (k : Kernel) (cmd filename : UInt32), cmd ≠ 0 →
        filename ≠ 0 → (commandLine k.mem cmd).program = [0x4C, 0x53] →
        cString k.mem filename (2 ^ 32) = [0x4C, 0x53] →
          sysExecEntry dev clusters k cmd = sysOpenEntry dev clusters k filename :=
  ⟨by decide, (execOpen_sameEntry_iff [0x4C, 0x53] (by decide) (by decide) (by decide)).mpr
    (.inr (.inl (by decide)))⟩

/-- The file name `ABCDEFGH.EXE`. -/
def twelveLetters : CString :=
  ⟨[0x41, 0x42, 0x43, 0x44, 0x45, 0x46, 0x47, 0x48, 0x2E, 0x45, 0x58, 0x45], by decide⟩

/-- The file of that name is opened, and as a program it is not found. -/
theorem execOpen_twelveLetters :
    ∃ (dev : Device) (k : Kernel) (e : DirEntry),
      (commandLine k.mem 0x200000).program = twelveLetters.chars ∧
      cString k.mem 0x200000 (2 ^ 32) = twelveLetters.chars ∧
      sysOpenEntry dev 1 k 0x200000 = some e ∧ fat32NameToString e.name = twelveLetters.chars ∧
      sysExecEntry dev 1 k 0x200000 ≠ some e := by
  have hstring := cString_at twelveLetters.noNul (by decide)
  have hname : openName (Memory.ofBytes 0x200000 twelveLetters.chars) 0x200000 =
      twelveLetters.chars := by
    rw [openName_eq_take, hstring]
    decide
  have hprogram : (commandLine (Memory.ofBytes 0x200000 twelveLetters.chars) 0x200000).program =
      twelveLetters.chars := program_word (by decide) (by decide) hstring
  have hptr : (0x200000 : UInt32) ≠ 0 := by decide
  have hentry := sysOpenEntry_nameDevice (Memory.ofBytes 0x200000 twelveLetters.chars) hptr
    (by rw [hname]; decide)
  refine ⟨_, _, _, hprogram, hstring, hentry, ?_, ?_⟩
  · rw [nameDisk_name (fat32StringToName_length _), hname]
    decide
  · intro hexec
    have hfile := sysExecEntry_name hprogram hexec
    rw [nameDisk_name (fat32StringToName_length _), hname] at hfile
    exact absurd hfile (by decide)

end Magnos
