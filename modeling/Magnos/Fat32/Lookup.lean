import Magnos.Fat32.Names

/-!
# The root directory as a list of slots

On a disk that is read without failures and whose root chain ends, both scans work on one
list of slots.  `fat32_list_dir` reports the visible slots before the end marker, as many as
fit, and `fat32_open` takes the first slot there that bears the searched name.
-/

namespace Magnos

open Framework

variable {Acc : Type}

def clusterSlots (disk : Nat → Sector) (fs : Volume) (cluster : Nat) : List DirEntry :=
  (clusterSectors fs cluster).flatMap fun lba => dirEntries (disk lba)

/-- The slots of a chain in order, if it ends within `clusters` steps. -/
def chainSlots (disk : Nat → Sector) (fs : Volume) :
    (clusters cluster : Nat) → Option (List DirEntry)
  | 0, _ => none
  | clusters + 1, cluster =>
      if cluster < clusterEoc then
        (chainSlots disk fs clusters (nextCluster disk fs cluster)).map
          (clusterSlots disk fs cluster ++ ·)
      else some []

/-- The slots of the first `clusters` clusters of a chain. -/
def reachedSlots (disk : Nat → Sector) (fs : Volume) : (clusters cluster : Nat) → List DirEntry
  | 0, _ => []
  | clusters + 1, cluster =>
      if cluster < clusterEoc then
        clusterSlots disk fs cluster ++ reachedSlots disk fs clusters (nextCluster disk fs cluster)
      else []

theorem reachedSlots_of_chainSlots {disk : Nat → Sector} {fs : Volume} {clusters cluster : Nat}
    {slots : List DirEntry} (hslots : chainSlots disk fs clusters cluster = some slots) :
    reachedSlots disk fs clusters cluster = slots := by
  induction clusters generalizing cluster slots with
  | zero => simp [chainSlots] at hslots
  | succ clusters ih =>
      rw [chainSlots] at hslots
      rw [reachedSlots]
      split at hslots
      · next hcluster =>
          obtain ⟨rest, hrest, rfl⟩ := Option.map_eq_some_iff.mp hslots
          rw [if_pos hcluster, ih hrest]
      · next hcluster => rw [if_neg hcluster, Option.some.inj hslots]

theorem dirEntry_name_length (s : Sector) (j : Nat) : (dirEntry s j).name.length = 11 := by
  simp [dirEntry]

theorem reachedSlots_name_length (disk : Nat → Sector) (fs : Volume) (clusters cluster : Nat)
    (e : DirEntry) (he : e ∈ reachedSlots disk fs clusters cluster) : e.name.length = 11 := by
  induction clusters generalizing cluster with
  | zero => simp [reachedSlots] at he
  | succ clusters ih =>
      rw [reachedSlots] at he
      split at he
      · rcases List.mem_append.mp he with he | he
        · obtain ⟨lba, -, he⟩ := List.mem_flatMap.mp he
          obtain ⟨j, -, rfl⟩ := List.mem_map.mp he
          exact dirEntry_name_length _ j
        · exact ih _ he
      · simp at he

section Walk

variable (scan : Scan Acc)

theorem Scan.entries_of_not_more (es : List DirEntry) (acc : Acc) (hmore : scan.more acc = false) :
    scan.entries es acc = (false, acc) := by
  cases es with
  | nil => rfl
  | cons e es => simp [Scan.entries, hmore]

theorem Scan.entries_cons_stop {e : DirEntry} {acc acc' : Acc} (es : List DirEntry)
    (hmore : scan.more acc = true) (hvisit : scan.visit acc e = (true, acc')) :
    scan.entries (e :: es) acc = (true, acc') := by
  rw [Scan.entries, if_pos hmore, hvisit]

theorem Scan.entries_cons_next {e : DirEntry} {acc acc' : Acc} (es : List DirEntry)
    (hmore : scan.more acc = true) (hvisit : scan.visit acc e = (false, acc')) :
    scan.entries (e :: es) acc = scan.entries es acc' := by
  rw [Scan.entries, if_pos hmore, hvisit]

theorem Scan.entries_append (es fs : List DirEntry) (acc : Acc) :
    scan.entries (es ++ fs) acc =
      match scan.entries es acc with
      | (true, acc) => (true, acc)
      | (false, acc) => scan.entries fs acc := by
  induction es generalizing acc with
  | nil => rfl
  | cons e es ih =>
      rw [List.cons_append]
      cases hmore : scan.more acc with
      | false =>
          simp only [scan.entries_of_not_more _ acc hmore]
      | true =>
          cases hvisit : scan.visit acc e with
          | mk stop acc' =>
              cases stop with
              | true => simp only [scan.entries_cons_stop _ hmore hvisit]
              | false =>
                  simp only [scan.entries_cons_next _ hmore hvisit]
                  exact ih acc'

theorem Scan.sectors_serves {dev : Device} {disk : Nat → Sector} (hdev : dev.Serves disk)
    (lbas : List Nat) (s : Fat32) (acc : Acc) :
    ∃ t, s.SameFile t ∧
      scan.sectors dev lbas s acc =
        match scan.entries (lbas.flatMap fun lba => dirEntries (disk lba)) acc with
        | (true, acc) => (some .done, acc, t)
        | (false, acc) => (none, acc, t) := by
  induction lbas generalizing s acc with
  | nil => exact ⟨s, .refl s, rfl⟩
  | cons lba lbas ih =>
      rw [Scan.sectors, ideRead_serves hdev, List.flatMap_cons, scan.entries_append]
      cases hfirst : scan.entries (dirEntries (disk lba)) acc with
      | mk stop acc' =>
          cases stop with
          | true =>
              refine ⟨{ s with sectorBuffer := disk lba, time := s.time + 1 }, ⟨rfl, rfl⟩, ?_⟩
              simp only [hfirst]
          | false =>
              obtain ⟨t, hsame, hsectors⟩ :=
                ih { s with sectorBuffer := disk lba, time := s.time + 1 } acc'
              exact ⟨t, ⟨hsame.fs, hsame.file⟩, by simp only [hfirst, hsectors]⟩

theorem Scan.chain_stop {dev : Device} {disk : Nat → Sector} (hdev : dev.Serves disk)
    (clusters : Nat) {cluster : Nat} {s : Fat32} {acc acc' : Acc}
    (hgo : cluster < clusterEoc ∧ scan.more acc = true)
    (hstop : scan.entries (clusterSlots disk s.fs cluster) acc = (true, acc')) :
    ∃ t, s.SameFile t ∧ scan.chain dev (clusters + 1) cluster s acc = (.done, acc', t) := by
  obtain ⟨t, hsame, hsectors⟩ := scan.sectors_serves hdev (clusterSectors s.fs cluster) s acc
  rw [← clusterSlots, hstop] at hsectors
  refine ⟨t, hsame, ?_⟩
  rw [Scan.chain, if_pos hgo, hsectors]

theorem Scan.chain_next {dev : Device} {disk : Nat → Sector} (hdev : dev.Serves disk)
    (clusters : Nat) {cluster : Nat} {s : Fat32} {acc acc' : Acc}
    (hgo : cluster < clusterEoc ∧ scan.more acc = true)
    (hnext : scan.entries (clusterSlots disk s.fs cluster) acc = (false, acc')) :
    ∃ t, s.SameFile t ∧ scan.chain dev (clusters + 1) cluster s acc =
      scan.chain dev clusters (nextCluster disk s.fs cluster) t acc' := by
  obtain ⟨t, hsame, hsectors⟩ := scan.sectors_serves hdev (clusterSectors s.fs cluster) s acc
  rw [← clusterSlots, hnext] at hsectors
  have hlink := fat32GetNextCluster_fst hdev t cluster
  refine ⟨(fat32GetNextCluster dev t cluster).2,
    hsame.trans (fat32GetNextCluster_sameFile dev t cluster), ?_⟩
  rw [Scan.chain, if_pos hgo, hsectors, ← hsame.fs, ← hlink]

theorem Scan.chain_reached {dev : Device} {disk : Nat → Sector} (hdev : dev.Serves disk)
    (fs : Volume) (clusters cluster : Nat) (acc : Acc) :
    ∃ status : WalkStatus,
      (status = .done ∨ status = .running ∧ chainSlots disk fs clusters cluster = none ∧
        (scan.entries (reachedSlots disk fs clusters cluster) acc).1 = false) ∧
      ∀ s : Fat32, s.fs = fs → ∃ t, s.SameFile t ∧ scan.chain dev clusters cluster s acc =
        (status, (scan.entries (reachedSlots disk fs clusters cluster) acc).2, t) := by
  induction clusters generalizing cluster acc with
  | zero => exact ⟨.running, .inr ⟨rfl, rfl, rfl⟩, fun s _ => ⟨s, .refl s, rfl⟩⟩
  | succ clusters ih =>
      by_cases hgo : cluster < clusterEoc ∧ scan.more acc = true
      · rw [chainSlots, if_pos hgo.1, reachedSlots, if_pos hgo.1, scan.entries_append]
        cases hfirst : scan.entries (clusterSlots disk fs cluster) acc with
        | mk stop acc' =>
            cases stop with
            | true =>
                refine ⟨.done, .inl rfl, ?_⟩
                intro s hs
                exact scan.chain_stop hdev clusters hgo (by rw [hs]; exact hfirst)
            | false =>
                obtain ⟨status, hstatus, hrest⟩ := ih (nextCluster disk fs cluster) acc'
                refine ⟨status, ?_, ?_⟩
                · rcases hstatus with hdone | ⟨hrunning, hslots, hstop⟩
                  · exact .inl hdone
                  · exact .inr ⟨hrunning, by rw [hslots]; rfl, hstop⟩
                · intro s hs
                  obtain ⟨t, hsame, hnext⟩ :=
                    scan.chain_next hdev clusters hgo (by rw [hs]; exact hfirst)
                  obtain ⟨u, hu, hchain⟩ := hrest t (hsame.fs.trans hs)
                  refine ⟨u, hsame.trans hu, ?_⟩
                  rw [hnext, hs]
                  exact hchain
      · have hentries :
            (scan.entries (reachedSlots disk fs (clusters + 1) cluster) acc).2 = acc := by
          by_cases hcluster : cluster < clusterEoc
          · rw [scan.entries_of_not_more _ acc (by simpa [hcluster] using hgo)]
          · rw [reachedSlots, if_neg hcluster]
            rfl
        refine ⟨.done, .inl rfl, fun s _ => ⟨s, .refl s, ?_⟩⟩
        rw [Scan.chain, if_neg hgo, hentries]

end Walk

/-- The slots before the end marker. -/
def liveSlots (slots : List DirEntry) : List DirEntry := slots.takeWhile fun e => ¬ e.IsEnd

/-- A slot that `fat32_open` compares: neither deleted nor part of a long name. -/
def DirEntry.Named (e : DirEntry) : Prop := ¬ e.Deleted ∧ ¬ e.LongName

/-- A file or directory entry. -/
def DirEntry.Visible (e : DirEntry) : Prop := e.Named ∧ ¬ e.VolumeLabel

instance (e : DirEntry) : Decidable e.Named := inferInstanceAs (Decidable (_ ∧ _))

instance (e : DirEntry) : Decidable e.Visible := inferInstanceAs (Decidable (_ ∧ _))

/-- The file and directory entries of a directory. -/
def visibleSlots (slots : List DirEntry) : List DirEntry :=
  (liveSlots slots).filter fun e => e.Visible

theorem visibleSlots_skip {e : DirEntry} (slots : List DirEntry) (hend : ¬ e.IsEnd)
    (hvisible : ¬ e.Visible) : visibleSlots (e :: slots) = visibleSlots slots := by
  simp [visibleSlots, liveSlots, hend, hvisible]

theorem visibleSlots_keep {e : DirEntry} (slots : List DirEntry) (hend : ¬ e.IsEnd)
    (hvisible : e.Visible) : visibleSlots (e :: slots) = e :: visibleSlots slots := by
  simp [visibleSlots, liveSlots, hend, hvisible]

theorem listScan_visit (maxEntries : Nat) (filled : List DirInfo) (e : DirEntry) :
    (listScan maxEntries).visit filled e =
      if e.IsEnd then (true, filled)
      else if e.Visible then (false, filled ++ [e.info])
      else (false, filled) := by
  simp only [listScan, DirEntry.Visible, DirEntry.Named]
  grind

theorem listScan_entries (maxEntries : Nat) (slots : List DirEntry) (filled : List DirInfo)
    (hfilled : filled.length ≤ maxEntries) :
    ((listScan maxEntries).entries slots filled).2 =
      filled ++ ((visibleSlots slots).take (maxEntries - filled.length)).map DirEntry.info := by
  induction slots generalizing filled with
  | nil => simp [Scan.entries, visibleSlots, liveSlots]
  | cons e slots ih =>
      by_cases hroom : filled.length < maxEntries
      · have hmore : (listScan maxEntries).more filled = true := by simpa [listScan] using hroom
        have hvisit := listScan_visit maxEntries filled e
        by_cases hend : e.IsEnd
        · rw [if_pos hend] at hvisit
          rw [Scan.entries_cons_stop _ _ hmore hvisit]
          simp [visibleSlots, liveSlots, hend]
        rw [if_neg hend] at hvisit
        by_cases hvisible : e.Visible
        · rw [if_pos hvisible] at hvisit
          have hleft : maxEntries - filled.length = maxEntries - (filled.length + 1) + 1 := by omega
          have hrest := ih (filled ++ [e.info]) (by simpa using hroom)
          rw [Scan.entries_cons_next _ _ hmore hvisit, hrest, visibleSlots_keep slots hend hvisible,
            hleft]
          simp
        · rw [if_neg hvisible] at hvisit
          rw [Scan.entries_cons_next _ _ hmore hvisit, visibleSlots_skip slots hend hvisible]
          exact ih filled hfilled
      · have hfull : maxEntries - filled.length = 0 := by omega
        rw [Scan.entries_of_not_more _ _ _ (by simpa [listScan] using hroom), hfull]
        simp

/-- The slot that `fat32_open` takes for a stored name. -/
def lookupSlot (slots : List DirEntry) (name : List UInt8) : Option DirEntry :=
  (liveSlots slots).find? fun e => e.Named ∧ e.name = name

theorem openScan_visit (name : List UInt8) (found : Option DirEntry) (e : DirEntry)
    (hname : (0 : UInt8) ∉ name) (hlen : e.name.length = name.length) :
    (openScan name).visit found e =
      if e.IsEnd then (true, found)
      else if e.Named ∧ e.name = name then (true, some e)
      else (false, found) := by
  have hcmp := strncmp_eq_zero e.name name hlen hname
  simp only [openScan, DirEntry.Named, hcmp]
  grind

theorem openScan_spec (slots : List DirEntry) (name : List UInt8) (hname : (0 : UInt8) ∉ name)
    (hlen : ∀ e ∈ slots, e.name.length = name.length) :
    ((openScan name).entries slots none).2 = lookupSlot slots name ∧
      (((openScan name).entries slots none).1 = true ↔
        (∃ e ∈ slots, e.IsEnd) ∨ lookupSlot slots name ≠ none) := by
  induction slots with
  | nil => simp [Scan.entries, lookupSlot, liveSlots]
  | cons e slots ih =>
      have hrest := ih fun f hf => hlen f (List.mem_cons_of_mem _ hf)
      have hvisit := openScan_visit name none e hname (hlen e List.mem_cons_self)
      rw [List.exists_mem_cons_iff]
      by_cases hend : e.IsEnd
      · rw [if_pos hend] at hvisit
        rw [Scan.entries_cons_stop _ _ rfl hvisit]
        simp [lookupSlot, liveSlots, hend]
      rw [if_neg hend] at hvisit
      by_cases hmatch : e.Named ∧ e.name = name
      · rw [if_pos hmatch] at hvisit
        rw [Scan.entries_cons_stop _ _ rfl hvisit]
        simp [lookupSlot, liveSlots, hend, hmatch]
      · rw [if_neg hmatch] at hvisit
        rw [Scan.entries_cons_next _ _ rfl hvisit, hrest.1, hrest.2, or_iff_right hend]
        simp [lookupSlot, liveSlots, hend, hmatch]

theorem openScan_reached (disk : Nat → Sector) (fs : Volume) (clusters cluster : Nat)
    {filename : List UInt8} (hname : (0 : UInt8) ∉ filename) :
    ((openScan (fat32StringToName filename)).entries (reachedSlots disk fs clusters cluster) none).2 =
        lookupSlot (reachedSlots disk fs clusters cluster) (fat32StringToName filename) ∧
      (((openScan (fat32StringToName filename)).entries (reachedSlots disk fs clusters cluster)
          none).1 = true ↔
        (∃ e ∈ reachedSlots disk fs clusters cluster, e.IsEnd) ∨
          lookupSlot (reachedSlots disk fs clusters cluster) (fat32StringToName filename) ≠ none) := by
  apply openScan_spec
  · exact fat32StringToName_noNul filename hname
  · intro e he
    rw [reachedSlots_name_length _ _ _ _ e he, fat32StringToName_length]

theorem openScan_stop (slots : List DirEntry) (name : List UInt8) {e : DirEntry}
    (hfound : ((openScan name).entries slots none).2 = some e) :
    ((openScan name).entries slots none).1 = true := by
  induction slots with
  | nil => simp [Scan.entries] at hfound
  | cons f slots ih =>
      rcases hvisit : (openScan name).visit none f with ⟨stop, acc⟩
      cases stop with
      | true => rw [Scan.entries_cons_stop _ _ rfl hvisit]
      | false =>
          have hacc : acc = none := by
            simp only [openScan] at hvisit
            grind
          subst hacc
          rw [Scan.entries_cons_next _ _ rfl hvisit] at hfound ⊢
          exact ih hfound

theorem fat32ListDir_congr {dev : Device} {disk : Nat → Sector} (hdev : dev.Serves disk)
    {s t : Fat32} (hsame : s.SameFile t) (clusters : Nat) (present : Bool) (maxEntries : Int) :
    (fat32ListDir dev clusters t present maxEntries).1 =
      (fat32ListDir dev clusters s present maxEntries).1 := by
  obtain ⟨status, -, hchain⟩ := (listScan maxEntries.toNat).chain_reached hdev s.fs clusters
    s.fs.rootDirCluster.toNat []
  obtain ⟨s', -, hs⟩ := hchain s rfl
  obtain ⟨t', -, ht⟩ := hchain t hsame.fs
  unfold fat32ListDir
  rw [hsame.fs]
  split
  · rfl
  · rw [hs, ht]
    cases status <;> rfl

section Calls

variable {dev : Device} {disk : Nat → Sector} (hdev : dev.Serves disk) (clusters : Nat)
  (s : Fat32) (hinit : s.fs.initialized = true)
include hdev hinit

/-- `fat32_open` takes the first slot with the searched name among those it reaches. -/
theorem fat32Open_reached (filename : List UInt8) (hname : (0 : UInt8) ∉ filename) :
    ∃ t, s.SameFile t ∧
      match lookupSlot (reachedSlots disk s.fs clusters s.fs.rootDirCluster.toNat)
        (fat32StringToName filename) with
      | none => fat32Open dev clusters s filename = (some false, t) ∨
          fat32Open dev clusters s filename = (none, t) ∧
            chainSlots disk s.fs clusters s.fs.rootDirCluster.toNat = none
      | some e => fat32Open dev clusters s filename = (some true, { t with file := e.handle }) := by
  have hfound := (openScan_reached disk s.fs clusters s.fs.rootDirCluster.toNat hname).1
  obtain ⟨status, hstatus, hchain⟩ := (openScan (fat32StringToName filename)).chain_reached hdev
    s.fs clusters s.fs.rootDirCluster.toNat none
  obtain ⟨t, hsame, hchain⟩ := hchain s rfl
  rw [hfound] at hchain
  refine ⟨t, hsame, ?_⟩
  rw [fat32Open, if_neg (by rw [hinit]; exact Bool.noConfusion), hchain]
  cases hlookup : lookupSlot (reachedSlots disk s.fs clusters s.fs.rootDirCluster.toNat)
    (fat32StringToName filename) with
  | none =>
      rcases hstatus with rfl | ⟨rfl, hslots, -⟩
      · exact .inl rfl
      · exact .inr ⟨rfl, hslots⟩
  | some e =>
      rcases hstatus with rfl | ⟨-, -, hrunning⟩
      · rfl
      · rw [openScan_stop _ _ (hfound.trans hlookup)] at hrunning
        cases hrunning

variable {clusters} {slots : List DirEntry}
  (hslots : chainSlots disk s.fs clusters s.fs.rootDirCluster.toNat = some slots)
include hslots

/-- `fat32_list_dir` reports the visible slots, as many as fit, and returns their number. -/
theorem fat32ListDir_serves (maxEntries : Int) (hmax : 0 < maxEntries) :
    (fat32ListDir dev clusters s true maxEntries).1 =
      ⟨((visibleSlots slots).take maxEntries.toNat).map DirEntry.info,
        some (min maxEntries (visibleSlots slots).length)⟩ := by
  obtain ⟨status, hstatus, hchain⟩ := (listScan maxEntries.toNat).chain_reached hdev s.fs clusters
    s.fs.rootDirCluster.toNat []
  obtain ⟨t, -, hchain⟩ := hchain s rfl
  have hfilled := listScan_entries maxEntries.toNat slots [] (Nat.zero_le _)
  rw [reachedSlots_of_chainSlots hslots, hfilled] at hchain
  rw [fat32ListDir, if_neg (by simpa [hinit] using hmax), hchain]
  rcases hstatus with rfl | ⟨-, hnone, -⟩
  · simp
    omega
  · rw [hslots] at hnone
    cases hnone

theorem fat32Open_serves (filename : List UInt8) (hname : (0 : UInt8) ∉ filename) :
    ∃ t, s.SameFile t ∧ fat32Open dev clusters s filename =
      match lookupSlot slots (fat32StringToName filename) with
      | none => (some false, t)
      | some e => (some true, { t with file := e.handle }) := by
  obtain ⟨t, hsame, hopen⟩ := fat32Open_reached hdev clusters s hinit filename hname
  refine ⟨t, hsame, ?_⟩
  rw [reachedSlots_of_chainSlots hslots] at hopen
  cases hlookup : lookupSlot slots (fat32StringToName filename) with
  | none =>
      rw [hlookup] at hopen
      rcases hopen with hfailed | ⟨-, hnone⟩
      · exact hfailed
      · rw [hslots] at hnone
        cases hnone
  | some e =>
      rw [hlookup] at hopen
      exact hopen

end Calls

/-- The slot that `fat32_open` makes its handle of. -/
def fat32OpenEntry (dev : Device) (clusters : Nat) (s : Fat32) (filename : List UInt8) :
    Option DirEntry :=
  if s.fs.initialized = false then none
  else
    match (openScan (fat32StringToName filename)).chain dev clusters s.fs.rootDirCluster.toNat s
      none with
    | (.running, _, _) => none
    | (_, found, _) => found

theorem fat32Open_entry (dev : Device) (clusters : Nat) (s : Fat32) (filename : List UInt8) :
    ((fat32Open dev clusters s filename).1 = some true ↔
        fat32OpenEntry dev clusters s filename ≠ none) ∧
      ∀ e, fat32OpenEntry dev clusters s filename = some e →
        (fat32Open dev clusters s filename).2.file = e.handle := by
  unfold fat32OpenEntry fat32Open
  by_cases hinit : s.fs.initialized = false
  · simp [hinit]
  · rw [if_neg hinit, if_neg hinit]
    rcases (openScan (fat32StringToName filename)).chain dev clusters s.fs.rootDirCluster.toNat s
      none with ⟨status, found, t⟩
    cases status <;> cases found <;> simp

/-- What has been found bears a name and is in use. -/
def FoundNamed (name : List UInt8) (found : Option DirEntry) : Prop :=
  ∀ e, found = some e → e.Named ∧ e.name = name

theorem openScan_foundNamed {name : List UInt8} (hname : (0 : UInt8) ∉ name)
    (hlen : name.length = 11) (found : Option DirEntry) (sector : Sector) (j : Nat)
    (hfound : FoundNamed name found) (_ : (openScan name).more found = true) :
    FoundNamed name ((openScan name).visit found (dirEntry sector j)).2 := by
  rw [openScan_visit name found _ hname ((dirEntry_name_length sector j).trans hlen.symm)]
  split
  · exact hfound
  · split
    · next hmatch =>
        intro e he
        rwa [← Option.some.inj he]
    · exact hfound

theorem fat32OpenEntry_name {dev : Device} {clusters : Nat} {s : Fat32} {filename : List UInt8}
    (hname : (0 : UInt8) ∉ filename) {e : DirEntry}
    (hopen : fat32OpenEntry dev clusters s filename = some e) :
    e.Named ∧ e.name = fat32StringToName filename := by
  have hnone : FoundNamed (fat32StringToName filename) none := by
    intro e he
    cases he
  have hfound := Scan.chain_invariant (openScan_foundNamed (fat32StringToName_noNul filename hname)
    (fat32StringToName_length filename)) dev clusters s.fs.rootDirCluster.toNat s none hnone
  unfold fat32OpenEntry at hopen
  split at hopen
  · cases hopen
  · split at hopen
    · cases hopen
    · next heq =>
        rw [heq] at hfound
        exact hfound e hopen

section OtherFile

variable (dev : Device) (file : FileHandle)

theorem ideRead_withFile (s : Fat32) (lba : Nat) :
    ideRead dev { s with file := file } lba =
      ((ideRead dev s lba).1, { (ideRead dev s lba).2 with file := file }) := by
  unfold ideRead
  dsimp only
  split <;> rfl

theorem fat32GetNextCluster_withFile (s : Fat32) (cluster : Nat) :
    fat32GetNextCluster dev { s with file := file } cluster =
      ((fat32GetNextCluster dev s cluster).1,
        { (fat32GetNextCluster dev s cluster).2 with file := file }) := by
  unfold fat32GetNextCluster
  dsimp only
  split
  · rfl
  · rw [ideRead_withFile]
    rcases ideRead dev s (fatSector s.fs cluster) with ⟨ok, t⟩
    cases ok <;> rfl

theorem Scan.sectors_withFile (scan : Scan Acc) (lbas : List Nat) (s : Fat32) (acc : Acc) :
    scan.sectors dev lbas { s with file := file } acc =
      ((scan.sectors dev lbas s acc).1, (scan.sectors dev lbas s acc).2.1,
        { (scan.sectors dev lbas s acc).2.2 with file := file }) := by
  induction lbas generalizing s acc with
  | nil => rfl
  | cons lba lbas ih =>
      rw [Scan.sectors, Scan.sectors, ideRead_withFile]
      rcases ideRead dev s lba with ⟨ok, t⟩
      cases ok with
      | false => rfl
      | true =>
          dsimp only
          rcases scan.entries (dirEntries t.sectorBuffer) acc with ⟨stop, acc'⟩
          cases stop with
          | true => rfl
          | false => exact ih t acc'

theorem Scan.chain_withFile (scan : Scan Acc) (clusters cluster : Nat) (s : Fat32) (acc : Acc) :
    scan.chain dev clusters cluster { s with file := file } acc =
      ((scan.chain dev clusters cluster s acc).1, (scan.chain dev clusters cluster s acc).2.1,
        { (scan.chain dev clusters cluster s acc).2.2 with file := file }) := by
  induction clusters generalizing cluster s acc with
  | zero => rfl
  | succ clusters ih =>
      rw [Scan.chain, Scan.chain]
      split
      · dsimp only
        rw [scan.sectors_withFile]
        rcases scan.sectors dev (clusterSectors s.fs cluster) s acc with ⟨status, acc', t⟩
        cases status with
        | some status => rfl
        | none =>
            dsimp only
            rw [fat32GetNextCluster_withFile]
            exact ih _ _ _
      · rfl

theorem fat32OpenEntry_withFile (clusters : Nat) (s : Fat32) (filename : List UInt8) :
    fat32OpenEntry dev clusters { s with file := file } filename =
      fat32OpenEntry dev clusters s filename := by
  unfold fat32OpenEntry
  dsimp only
  rw [Scan.chain_withFile]
  rcases (openScan (fat32StringToName filename)).chain dev clusters s.fs.rootDirCluster.toNat s
    none with ⟨status, found, t⟩
  cases status <;> rfl

end OtherFile

end Magnos
