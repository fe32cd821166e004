import Magnos.Fat32.Lookup
import Magnos.Fat32.Session
import Magnos.Syscall.Files

/-!
# Opening what a listing reports

`fat32_list_dir` passes over volume labels and `fat32_open` does not.  A reported entry is
therefore opened by its reported name exactly if no volume label of the same name stands
before it.
-/

namespace Magnos

open Framework

theorem cString_ofBytes (base : UInt32) (chars : List UInt8) (hnul : (0 : UInt8) ∉ chars)
    (limit i : Nat) (hlimit : chars.length < i + limit) (hlen : chars.length < 2 ^ 32)
    (hi : i ≤ chars.length) :
    cString (Memory.ofBytes base chars) (base + .ofNat i) limit = chars.drop i := by
  induction limit generalizing i with
  | zero => omega
  | succ limit ih =>
      rw [cString, Memory.ofBytes_add base chars i (by omega)]
      by_cases hend : i = chars.length
      · subst hend
        simp
      · have hlt : i < chars.length := by omega
        have hchar : chars.getD i 0 = chars[i] := by
          rw [List.getD_eq_getElem?_getD, List.getElem?_eq_getElem hlt, Option.getD_some]
        have hne : chars[i] ≠ 0 := fun h => hnul (h ▸ List.getElem_mem hlt)
        have hnext : base + .ofNat i + 1 = base + .ofNat (i + 1) := by
          rw [UInt32.ofNat_add, UInt32.add_assoc]
          rfl
        rw [hchar, if_neg hne, hnext, ih (i + 1) (by omega) (by omega)]
        exact List.getElem_cons_drop hlt

theorem toUpper_eq_self {c : UInt8} (hc : ¬ (0x61 ≤ c ∧ c ≤ 0x7A)) : toUpper c = c := if_neg hc

theorem LegalName.written {name : List UInt8} (hlegal : LegalName name) :
    fat32StringToName (fat32NameToString name) = name ∧
      (0 : UInt8) ∉ fat32NameToString name ∧
      (fat32NameToString name).length ≤ 12 ∧
      (fat32NameToString name).map toUpper = fat32NameToString name := by
  obtain ⟨⟨base, ext, hparts, rfl⟩, hupper⟩ := hlegal
  have hbase := hparts.base_le
  have hext := hparts.ext_le
  have hmem : ∀ c ∈ writtenName base ext, c = 0x2E ∨ c ∈ base ++ ext := by
    intro c hc
    unfold writtenName at hc
    split at hc
    · exact .inr (List.mem_append_left _ hc)
    · simpa [or_left_comm] using hc
  have hstored : ∀ c ∈ base ++ ext, c ∈ storedName base ext := by
    intro c hc
    simp only [storedName, List.mem_append] at hc ⊢
    exact hc.imp .inl .inl
  rw [hparts.short.nameToString]
  refine ⟨hparts.short.stringToName, ?_, ?_, ?_⟩
  · intro hnul
    rcases hmem 0 hnul with h | h
    · exact absurd h (by decide)
    · exact (hparts.chars 0 h).1 rfl
  · unfold writtenName
    split
    · omega
    · simp only [List.length_append, List.length_cons]
      omega
  · conv_rhs => rw [← List.map_id (writtenName base ext)]
    apply List.map_congr_left
    intro c hc
    apply toUpper_eq_self
    rcases hmem c hc with rfl | h
    · decide
    · exact hupper c (hstored c h)

/-- The entry can be opened by its reported name, written anywhere in memory and in any
letter case, and the handle is that entry's. -/
def OpensAsListed (dev : Device) (clusters : Nat) (k : Kernel) (e : DirEntry) : Prop :=
  ∀ (mem : Memory) (filename : UInt32), filename ≠ 0 →
    (cString mem filename 255).map toUpper = e.info.name →
    let served := sysFileOpen dev clusters { k with mem := mem } filename
    served.ret = some 0 ∧ served.kernel.currentFile = true ∧
      served.kernel.fat.file.size = .ofNat e.fileSize ∧
      served.kernel.fat.file.firstCluster = e.firstCluster ∧
      served.kernel.fat.file.attr = e.attr

/-- No volume label of the same name stands before the entry. -/
def NoLabelBefore (slots : List DirEntry) (e : DirEntry) : Prop :=
  ∀ before after, liveSlots slots = before ++ e :: after →
    ∀ v ∈ before, v.Named → v.VolumeLabel → v.name ≠ e.name

theorem sysFileOpen_serves {dev : Device} {disk : Nat → Sector} (hdev : dev.Serves disk)
    {clusters : Nat} {slots : List DirEntry} (k : Kernel)
    (hslots : chainSlots disk k.fat.fs clusters k.fat.fs.rootDirCluster.toNat = some slots)
    (hinit : k.fat.fs.initialized = true) (filename : UInt32) (hptr : filename ≠ 0)
    (hname : (0 : UInt8) ∉ openName k.mem filename) :
    match lookupSlot slots (fat32StringToName (openName k.mem filename)) with
    | none => (sysFileOpen dev clusters k filename).ret = some (-1)
    | some e => (sysFileOpen dev clusters k filename).ret = some 0 ∧
        (sysFileOpen dev clusters k filename).kernel.currentFile = true ∧
        (sysFileOpen dev clusters k filename).kernel.fat.file = e.handle := by
  have hfs := k.closeCurrent_fs
  obtain ⟨t, -, hopen⟩ := fat32Open_serves hdev k.closeCurrent.fat (by rw [hfs]; exact hinit)
    (by rw [hfs]; exact hslots) (openName k.mem filename) hname
  simp only [sysFileOpen, if_neg hptr, k.closeCurrent_mem, hopen]
  cases lookupSlot slots (fat32StringToName (openName k.mem filename)) with
  | none => rfl
  | some e => exact ⟨rfl, rfl, rfl⟩

section Shadowing

variable {slots : List DirEntry} {e : DirEntry}

/-- The first slot with a visible entry's name is the entry itself or a volume label. -/
theorem lookupSlot_before {before after : List DirEntry}
    (hlive : liveSlots slots = before ++ e :: after) (hvisible : e.Visible)
    (hdistinct : ((visibleSlots slots).map DirEntry.name).Nodup) :
    (NoLabelBefore slots e → lookupSlot slots e.name = some e) ∧
      ∀ v ∈ before, v.Named → v.VolumeLabel → v.name = e.name →
        ∃ x, lookupSlot slots e.name = some x ∧ x.VolumeLabel := by
  have hsplit : visibleSlots slots =
      before.filter (fun x => x.Visible) ++ e :: after.filter (fun x => x.Visible) := by
    rw [visibleSlots, hlive, List.filter_append, List.filter_cons_of_pos (by simpa using hvisible)]
  have hfresh : ∀ x ∈ before, x.Visible → x.name ≠ e.name := by
    intro x hx hxv heq
    rw [hsplit, List.map_append, List.map_cons, List.nodup_append] at hdistinct
    have hmem : x.name ∈ (before.filter (fun x => x.Visible)).map DirEntry.name :=
      List.mem_map_of_mem (List.mem_filter.mpr ⟨hx, by simpa using hxv⟩)
    exact hdistinct.2.2 _ hmem _ List.mem_cons_self heq
  refine ⟨?_, ?_⟩
  · intro hclear
    have hnone : before.find? (fun x => decide (x.Named ∧ x.name = e.name)) = none := by
      rw [List.find?_eq_none]
      intro x hx hmatch
      obtain ⟨hnamed, hname⟩ : x.Named ∧ x.name = e.name := by simpa using hmatch
      by_cases hlabel : x.VolumeLabel
      · exact hclear before after hlive x hx hnamed hlabel hname
      · exact hfresh x hx ⟨hnamed, hlabel⟩ hname
    rw [lookupSlot, hlive, List.find?_append, hnone, Option.none_or,
      List.find?_cons_of_pos (by simpa using hvisible.1)]
  · intro v hv hnamed hlabel hname
    have hsome : (before.find? (fun x => decide (x.Named ∧ x.name = e.name))).isSome := by
      rw [List.find?_isSome]
      exact ⟨v, hv, by simpa using ⟨hnamed, hname⟩⟩
    obtain ⟨x, hx⟩ := Option.isSome_iff_exists.mp hsome
    have hmatch : x.Named ∧ x.name = e.name := by simpa using List.find?_some hx
    refine ⟨x, by rw [lookupSlot, hlive, List.find?_append, hx, Option.some_or], ?_⟩
    by_contra hother
    exact hfresh x (List.mem_of_find?_eq_some hx) ⟨hmatch.1, hother⟩ hmatch.2

end Shadowing

theorem opensAsListed_iff {dev : Device} {disk : Nat → Sector} (hdev : dev.Serves disk)
    {clusters : Nat} {slots : List DirEntry} (k : Kernel)
    (hslots : chainSlots disk k.fat.fs clusters k.fat.fs.rootDirCluster.toNat = some slots)
    (hinit : k.fat.fs.initialized = true)
    (hdistinct : ((visibleSlots slots).map DirEntry.name).Nodup) (e : DirEntry)
    (he : e ∈ visibleSlots slots) (hlegal : LegalName e.name) :
    OpensAsListed dev clusters k e ↔ NoLabelBefore slots e := by
  obtain ⟨hback, hnul, hlen, hupper⟩ := hlegal.written
  obtain ⟨hlive, hvisible⟩ := List.mem_filter.mp he
  replace hvisible : e.Visible := by simpa using hvisible
  have hopen : ∀ (mem : Memory) (filename : UInt32), filename ≠ 0 →
      (cString mem filename 255).map toUpper = e.info.name →
      match lookupSlot slots e.name with
      | none => (sysFileOpen dev clusters { k with mem := mem } filename).ret = some (-1)
      | some x => (sysFileOpen dev clusters { k with mem := mem } filename).ret = some 0 ∧
          (sysFileOpen dev clusters { k with mem := mem } filename).kernel.currentFile = true ∧
          (sysFileOpen dev clusters { k with mem := mem } filename).kernel.fat.file = x.handle := by
    intro mem filename hptr hstring
    have hname : openName mem filename = fat32NameToString e.name := hstring
    have hserved := sysFileOpen_serves hdev { k with mem := mem } hslots hinit filename hptr
      (by rw [hname]; exact hnul)
    rw [hname, hback] at hserved
    exact hserved
  refine ⟨?_, ?_⟩
  · intro hall before after hsplit v hv hnamed hlabel hname
    obtain ⟨x, hx, hxlabel⟩ :=
      (lookupSlot_before hsplit hvisible hdistinct).2 v hv hnamed hlabel hname
    have hstring : cString (Memory.ofBytes 0x200000 (fat32NameToString e.name)) 0x200000 255 =
        fat32NameToString e.name := by
      have h := cString_ofBytes 0x200000 (fat32NameToString e.name) hnul 255 0 (by omega)
        (by omega) (Nat.zero_le _)
      simpa using h
    have hcase : (cString (Memory.ofBytes 0x200000 (fat32NameToString e.name)) 0x200000 255).map
        toUpper = e.info.name := by
      rw [hstring]
      exact hupper
    have hserved := hopen _ 0x200000 (by decide) hcase
    have hlisted := hall _ 0x200000 (by decide) hcase
    rw [hx] at hserved
    have hattr : x.attr = e.attr := by
      have h := hlisted.2.2.2.2
      rw [hserved.2.2] at h
      exact h
    exact hvisible.2 (by unfold DirEntry.VolumeLabel at *; rwa [← hattr])
  · intro hclear mem filename hptr hstring
    obtain ⟨before, after, hsplit⟩ := List.append_of_mem hlive
    have hfound := (lookupSlot_before hsplit hvisible hdistinct).1 hclear
    have hserved := hopen mem filename hptr hstring
    rw [hfound] at hserved
    refine ⟨hserved.1, hserved.2.1, ?_, ?_, ?_⟩ <;> rw [hserved.2.2] <;> rfl

/-- The slots whose entries a listing reports. -/
def reportedSlots (slots : List DirEntry) (maxEntries : Int) : List DirEntry :=
  (visibleSlots slots).take maxEntries.toNat

/-- The entries that a listing reports can all be opened by their reported names exactly if
none of them stands behind a volume label of the same name. -/
theorem listedEntries_open_iff (dev : Device) (disk : Nat → Sector) (hdev : dev.Serves disk)
    (clusters : Nat) (slots : List DirEntry) (k : Kernel)
    (hslots : chainSlots disk k.fat.fs clusters k.fat.fs.rootDirCluster.toNat = some slots)
    (hinit : k.fat.fs.initialized = true)
    (hlegal : ∀ e ∈ visibleSlots slots, LegalName e.name)
    (hdistinct : ((visibleSlots slots).map DirEntry.name).Nodup)
    (maxEntries : Int) (hmax : 0 < maxEntries) :
    (fat32ListDir dev clusters k.fat true maxEntries).1.filled =
        (reportedSlots slots maxEntries).map DirEntry.info ∧
      ((∀ e ∈ reportedSlots slots maxEntries, OpensAsListed dev clusters k e) ↔
        ∀ e ∈ reportedSlots slots maxEntries, NoLabelBefore slots e) := by
  have hsub : reportedSlots slots maxEntries ⊆ visibleSlots slots := (List.take_sublist _ _).subset
  refine ⟨congrArg Listing.filled (fat32ListDir_serves hdev k.fat hinit hslots maxEntries hmax), ?_⟩
  have hone : ∀ e ∈ reportedSlots slots maxEntries,
      (OpensAsListed dev clusters k e ↔ NoLabelBefore slots e) := fun e he =>
    opensAsListed_iff hdev k hslots hinit hdistinct e (hsub he) (hlegal e (hsub he))
  exact ⟨fun h e he => (hone e he).mp (h e he), fun h e he => (hone e he).mpr (h e he)⟩

theorem chainSlots_one {disk : Nat → Sector} {fs : Volume} {cluster : Nat}
    (hcluster : cluster < clusterEoc) (hnext : nextCluster disk fs cluster = clusterEoc) :
    chainSlots disk fs 2 cluster = some (clusterSlots disk fs cluster) := by
  rw [chainSlots, if_pos hcluster, hnext, chainSlots, if_neg (Nat.lt_irrefl _), Option.map_some,
    List.append_nil]

/-- No file is open and memory is empty. -/
def sampleKernel : Kernel := ⟨fun _ => 0, sampleFat32, false, noArgs⟩

theorem legalName_singleLetter (c : UInt8) (hc : c = 0x41 ∨ c = 0x42) :
    LegalName (c :: List.replicate 10 0x20) := by
  refine ⟨⟨[c], [], ⟨by simp, by simp, by simp, ?_⟩, rfl⟩, ?_⟩
  · intro b hb
    rw [List.append_nil, List.mem_singleton] at hb
    rw [hb]
    rcases hc with rfl | rfl <;> decide
  · intro b hb
    rcases List.mem_cons.mp hb with rfl | hb
    · rcases hc with rfl | rfl <;> decide
    · rw [List.eq_of_mem_replicate hb]
      decide

/-- A root directory with the files `A` and `B`, one byte each in the clusters 3 and 4. -/
def pairDisk (lba : Nat) : Sector := fun i =>
  if lba = 2 ∧ i = 32 then 0x42
  else if lba = 2 ∧ i = 58 then 4
  else if lba = 2 ∧ 32 ≤ i ∧ i < 64 then sampleDisk 2 (i - 32)
  else sampleDisk lba i

def pairDevice : Device := fun _ lba => some (pairDisk lba)

theorem listedEntries_open_sample :
    (fat32ListDir pairDevice 2 sampleFat32 true 4).1.filled =
        [⟨[0x41], 1, false⟩, ⟨[0x42], 1, false⟩] ∧
      OpensAsListed pairDevice 2 sampleKernel (dirEntry (pairDisk 2) 0) ∧
      OpensAsListed pairDevice 2 sampleKernel (dirEntry (pairDisk 2) 1) := by
  have hslots : chainSlots pairDisk sampleFat32.fs 2 2 =
      some (clusterSlots pairDisk sampleFat32.fs 2) :=
    chainSlots_one (by decide) (by decide)
  have hlive : liveSlots (clusterSlots pairDisk sampleFat32.fs 2) =
      [dirEntry (pairDisk 2) 0, dirEntry (pairDisk 2) 1] := by decide
  have hvisible : visibleSlots (clusterSlots pairDisk sampleFat32.fs 2) =
      [dirEntry (pairDisk 2) 0, dirEntry (pairDisk 2) 1] := by
    rw [visibleSlots, hlive]
    decide
  have hfirst : (dirEntry (pairDisk 2) 0).name = 0x41 :: List.replicate 10 0x20 := by decide
  have hsecond : (dirEntry (pairDisk 2) 1).name = 0x42 :: List.replicate 10 0x20 := by decide
  have hlegal : ∀ e ∈ visibleSlots (clusterSlots pairDisk sampleFat32.fs 2), LegalName e.name := by
    rw [hvisible]
    intro e he
    rcases List.mem_pair.mp he with rfl | rfl
    · exact hfirst ▸ legalName_singleLetter 0x41 (.inl rfl)
    · exact hsecond ▸ legalName_singleLetter 0x42 (.inr rfl)
  have hreported : reportedSlots (clusterSlots pairDisk sampleFat32.fs 2) 4 =
      [dirEntry (pairDisk 2) 0, dirEntry (pairDisk 2) 1] := by
    rw [reportedSlots, hvisible]
    rfl
  obtain ⟨hlisted, hiff⟩ := listedEntries_open_iff pairDevice pairDisk (fun _ _ => rfl) 2 _
    sampleKernel hslots rfl hlegal (by rw [hvisible]; decide) 4 (by decide)
  have hopens := hiff.mpr fun e _ before after hsplit v hv _ hlabel => by
    have hmem : v ∈ liveSlots (clusterSlots pairDisk sampleFat32.fs 2) := by
      rw [hsplit]
      exact List.mem_append_left _ hv
    rw [hlive] at hmem
    rcases List.mem_pair.mp hmem with rfl | rfl <;> exact absurd hlabel (by decide)
  rw [hreported] at hlisted hopens
  exact ⟨hlisted.trans (by decide), hopens _ List.mem_cons_self,
    hopens _ (List.mem_cons_of_mem _ List.mem_cons_self)⟩

/-- A root directory with the label `A` and, behind it, the file `A`. -/
def labelDisk (lba : Nat) : Sector := fun i =>
  if lba = 2 ∧ i = 11 then 0x08
  else if lba = 2 ∧ 32 ≤ i ∧ i < 64 then sampleDisk 2 (i - 32)
  else sampleDisk lba i

/-- The file behind the label is listed, and its name opens the label. -/
theorem listedEntries_behindLabel :
    ¬ ∀ (dev : Device) (disk : Nat → Sector), dev.Serves disk →
      ∀ (clusters : Nat) (slots : List DirEntry) (k : Kernel),
        chainSlots disk k.fat.fs clusters k.fat.fs.rootDirCluster.toNat = some slots →
        k.fat.fs.initialized = true → (∀ e ∈ visibleSlots slots, LegalName e.name) →
        ((visibleSlots slots).map DirEntry.name).Nodup →
        ∀ maxEntries : Int, 0 < maxEntries →
          ∀ e ∈ reportedSlots slots maxEntries, OpensAsListed dev clusters k e := by
  intro hclaim
  have hslots : chainSlots labelDisk sampleFat32.fs 2 2 =
      some (clusterSlots labelDisk sampleFat32.fs 2) :=
    chainSlots_one (by decide) (by decide)
  have hvisible : visibleSlots (clusterSlots labelDisk sampleFat32.fs 2) =
      [dirEntry (labelDisk 2) 1] := by decide
  have hlive : liveSlots (clusterSlots labelDisk sampleFat32.fs 2) =
      [dirEntry (labelDisk 2) 0, dirEntry (labelDisk 2) 1] := by decide
  have hname : (dirEntry (labelDisk 2) 1).name = 0x41 :: List.replicate 10 0x20 := by decide
  have hlegal := legalName_singleLetter 0x41 (.inl rfl)
  have hdistinct : ((visibleSlots (clusterSlots labelDisk sampleFat32.fs 2)).map
      DirEntry.name).Nodup := by simp [hvisible]
  have hdev : Device.Serves (fun _ lba => some (labelDisk lba)) labelDisk := fun _ _ => rfl
  have hreported : dirEntry (labelDisk 2) 1 ∈
      reportedSlots (clusterSlots labelDisk sampleFat32.fs 2) 1 := by
    rw [reportedSlots, hvisible]
    exact List.mem_cons_self
  have hopens := hclaim _ labelDisk hdev 2 _ sampleKernel hslots rfl
    (by simpa [hvisible, hname] using hlegal) hdistinct 1 (by decide) _ hreported
  have hclear := (opensAsListed_iff hdev sampleKernel hslots rfl hdistinct _
    (by rw [hvisible]; exact List.mem_cons_self) (hname ▸ hlegal)).mp hopens
  exact hclear [dirEntry (labelDisk 2) 0] [] hlive _ List.mem_cons_self (by decide) (by decide)
    (by decide)

end Magnos
