import Magnos.Fat32.Volume

/-!
# Directory scans

`fat32_list_root`, `fat32_list_dir` and `fat32_open` walk the root directory in the same way:
cluster by cluster, sector by sector and slot by slot, until a slot makes them stop.  The walk is one
definition over what is done with a slot; the number of clusters it may visit is bounded,
and a walk that has not ended by then is `running`.
-/

namespace Magnos

open Framework

/-- The fields of `fat32_direntry_t` that the driver reads. -/
structure DirEntry where
  name : List UInt8
  attr : UInt8
  firstClusterHigh : Nat
  firstClusterLow : Nat
  fileSize : Nat
deriving DecidableEq

/-- The `j`-th 32-byte slot of a sector. -/
def dirEntry (s : Sector) (j : Nat) : DirEntry where
  name := (List.range 11).map fun k => s (32 * j + k)
  attr := s (32 * j + 11)
  firstClusterHigh := le16 s (32 * j + 20)
  firstClusterLow := le16 s (32 * j + 26)
  fileSize := le32 s (32 * j + 28)

def dirEntries (s : Sector) : List DirEntry := (List.range 16).map (dirEntry s)

def attrVolumeId : UInt8 := 0x08

def attrDirectory : UInt8 := 0x10

def attrLongName : UInt8 := 0x0F

def DirEntry.IsEnd (e : DirEntry) : Prop := e.name.head? = some 0x00

def DirEntry.Deleted (e : DirEntry) : Prop := e.name.head? = some 0xE5

def DirEntry.LongName (e : DirEntry) : Prop := e.attr = attrLongName

def DirEntry.VolumeLabel (e : DirEntry) : Prop := e.attr &&& attrVolumeId ≠ 0

instance (e : DirEntry) : Decidable e.IsEnd := inferInstanceAs (Decidable (_ = _))

instance (e : DirEntry) : Decidable e.Deleted := inferInstanceAs (Decidable (_ = _))

instance (e : DirEntry) : Decidable e.LongName := inferInstanceAs (Decidable (_ = _))

instance (e : DirEntry) : Decidable e.VolumeLabel := inferInstanceAs (Decidable (_ ≠ _))

/-- How a walk ends: at a stop or the end of the chain, at a failed read, or not yet. -/
inductive WalkStatus where
  | done
  | ioError
  | running
deriving DecidableEq

variable {Acc : Type}

/-- What a scan does with a slot: `true` stops it. -/
structure Scan (Acc : Type) where
  more : Acc → Bool
  visit : Acc → DirEntry → Bool × Acc

/-- The loop over the slots of a sector. -/
def Scan.entries (scan : Scan Acc) : List DirEntry → Acc → Bool × Acc
  | [], acc => (false, acc)
  | e :: es, acc =>
      if scan.more acc then
        match scan.visit acc e with
        | (true, acc) => (true, acc)
        | (false, acc) => scan.entries es acc
      else (false, acc)

/-- The loop over the sectors of a cluster; no status means that it ran to its end. -/
def Scan.sectors (scan : Scan Acc) (dev : Device) :
    List Nat → Fat32 → Acc → Option WalkStatus × Acc × Fat32
  | [], s, acc => (none, acc, s)
  | lba :: lbas, s, acc =>
      match ideRead dev s lba with
      | (false, s) => (some .ioError, acc, s)
      | (true, s) =>
          match scan.entries (dirEntries s.sectorBuffer) acc with
          | (true, acc) => (some .done, acc, s)
          | (false, acc) => scan.sectors dev lbas s acc

/-- The sectors of a cluster. -/
def clusterSectors (fs : Volume) (cluster : Nat) : List Nat :=
  (List.range fs.sectorsPerCluster.toNat).map (dataSector fs cluster)

/-- The loop over the clusters of a chain, for at most `clusters` of them. -/
def Scan.chain (scan : Scan Acc) (dev : Device) :
    (clusters cluster : Nat) → Fat32 → Acc → WalkStatus × Acc × Fat32
  | 0, _, s, acc => (.running, acc, s)
  | clusters + 1, cluster, s, acc =>
      if cluster < clusterEoc ∧ scan.more acc then
        match scan.sectors dev (clusterSectors s.fs cluster) s acc with
        | (some status, acc, s) => (status, acc, s)
        | (none, acc, s) =>
            let (next, s) := fat32GetNextCluster dev s cluster
            scan.chain dev clusters next s acc
      else (.done, acc, s)

/-- `fat32_name_to_string`, without the terminator it adds. -/
def fat32NameToString (name : List UInt8) : List UInt8 :=
  let base := (name.take 8).takeWhile (· ≠ 0x20)
  let ext := (name.drop 8).takeWhile (· ≠ 0x20)
  if name.getD 8 0 ≠ 0x20 then base ++ 0x2E :: ext else base

/-- `fat32_dirinfo_t`; the name without its terminator. -/
structure DirInfo where
  name : List UInt8
  size : Nat
  isDirectory : Bool
deriving DecidableEq

def DirEntry.info (e : DirEntry) : DirInfo :=
  ⟨fat32NameToString e.name, e.fileSize, e.attr &&& attrDirectory ≠ 0⟩

/-- The scan of `fat32_list_dir`; the entries filled in so far, in order. -/
def listScan (maxEntries : Nat) : Scan (List DirInfo) where
  more filled := filled.length < maxEntries
  visit filled e :=
    if e.IsEnd then (true, filled)
    else if e.Deleted then (false, filled)
    else if e.LongName then (false, filled)
    else if e.VolumeLabel then (false, filled)
    else (false, filled ++ [e.info])

/-- What a listing call does: the entries it fills in or prints and its result, none while it
is running. -/
structure Listing where
  filled : List DirInfo
  ret : Option Int

/-- `fat32_list_dir`; `present` says that `entries` is not null. -/
def fat32ListDir (dev : Device) (clusters : Nat) (s : Fat32) (present : Bool) (maxEntries : Int) :
    Listing × Fat32 :=
  if s.fs.initialized = false ∨ present = false ∨ maxEntries ≤ 0 then (⟨[], some (-1)⟩, s)
  else
    match (listScan maxEntries.toNat).chain dev clusters s.fs.rootDirCluster.toNat s [] with
    | (.done, filled, s) => (⟨filled, some filled.length⟩, s)
    | (.ioError, filled, s) => (⟨filled, some (-1)⟩, s)
    | (.running, filled, s) => (⟨filled, none⟩, s)

/-- The scan of `fat32_list_root`: it treats the slots alike, but has no limit. -/
def rootScan : Scan (List DirInfo) where
  more _ := true
  visit := (listScan 0).visit

/-- `fat32_list_root`: the entries it prints, and the number of files it returns. -/
def fat32ListRoot (dev : Device) (clusters : Nat) (s : Fat32) : Listing × Fat32 :=
  if s.fs.initialized = false then (⟨[], some (-1)⟩, s)
  else
    match rootScan.chain dev clusters s.fs.rootDirCluster.toNat s [] with
    | (.done, shown, s) => (⟨shown, some (toInt32 (shown.length % 2 ^ 32))⟩, s)
    | (.ioError, shown, s) => (⟨shown, some (-1)⟩, s)
    | (.running, shown, s) => (⟨shown, none⟩, s)

/-- `fat32_string_to_name` of a string without its terminator. -/
def fat32StringToName (input : List UInt8) : List UInt8 :=
  let base := (input.take 8).takeWhile (· ≠ 0x2E)
  let ext := ((input.dropWhile (· ≠ 0x2E)).drop 1).take 3
  base ++ List.replicate (8 - base.length) 0x20 ++ (ext ++ List.replicate (3 - ext.length) 0x20)

/-- `strncmp` of two strings of the compared length. -/
def strncmp : List UInt8 → List UInt8 → Int
  | a :: as, b :: bs => if a ≠ 0 ∧ a = b then strncmp as bs else (a.toNat : Int) - b.toNat
  | _, _ => 0

/-- The scan of `fat32_open`. -/
def openScan (searchName : List UInt8) : Scan (Option DirEntry) where
  more _ := true
  visit found e :=
    if e.IsEnd then (true, found)
    else if e.Deleted then (false, found)
    else if e.LongName then (false, found)
    else if strncmp e.name searchName = 0 then (true, some e)
    else (false, found)

/-- `first_cluster` of the handle that `fat32_open` makes of a slot. -/
def DirEntry.firstCluster (e : DirEntry) : UInt32 :=
  .ofNat (e.firstClusterHigh <<< 16 ||| e.firstClusterLow)

def DirEntry.handle (e : DirEntry) : FileHandle where
  firstCluster := e.firstCluster
  currentCluster := e.firstCluster
  size := .ofNat e.fileSize
  position := 0
  attr := e.attr
  valid := true

/-- `fat32_open`: whether it returned `&file`, none while it is running. -/
def fat32Open (dev : Device) (clusters : Nat) (s : Fat32) (filename : List UInt8) :
    Option Bool × Fat32 :=
  if s.fs.initialized = false then (some false, s)
  else
    match (openScan (fat32StringToName filename)).chain dev clusters s.fs.rootDirCluster.toNat s
      none with
    | (.running, _, s) => (none, s)
    | (_, none, s) => (some false, s)
    | (_, some e, s) => (some true, { s with file := e.handle })

/-- `fat32_close` of the static `file`. -/
def fat32Close (s : Fat32) : Fat32 := { s with file := { s.file with valid := false } }

theorem Scan.sectors_sameFile (scan : Scan Acc) (dev : Device) (lbas : List Nat) (s : Fat32)
    (acc : Acc) : s.SameFile (scan.sectors dev lbas s acc).2.2 := by
  induction lbas generalizing s acc with
  | nil => exact .refl s
  | cons lba lbas ih =>
      have hread := ideRead_sameFile dev s lba
      unfold Scan.sectors
      split
      · next heq =>
          rw [heq] at hread
          exact hread
      · next t heq =>
          rw [heq] at hread
          split
          · exact hread
          · exact hread.trans (ih _ _)

theorem Scan.chain_sameFile (scan : Scan Acc) (dev : Device) (clusters cluster : Nat) (s : Fat32)
    (acc : Acc) : s.SameFile (scan.chain dev clusters cluster s acc).2.2 := by
  induction clusters generalizing cluster s acc with
  | zero => exact .refl s
  | succ clusters ih =>
      unfold Scan.chain
      split
      · have hsectors := scan.sectors_sameFile dev (clusterSectors s.fs cluster) s acc
        split
        · next heq =>
            rw [heq] at hsectors
            exact hsectors
        · next acc t heq =>
            rw [heq] at hsectors
            exact (hsectors.trans (fat32GetNextCluster_sameFile dev t cluster)).trans (ih _ _ _)
      · exact .refl s

section Invariant

variable {scan : Scan Acc} {P : Acc → Prop}
  (hvisit : ∀ acc sector j, P acc → scan.more acc = true →
    P (scan.visit acc (dirEntry sector j)).2)
include hvisit

theorem Scan.entries_invariant (sector : Sector) (js : List Nat) (acc : Acc) (hacc : P acc) :
    P (scan.entries (js.map (dirEntry sector)) acc).2 := by
  induction js generalizing acc with
  | nil => exact hacc
  | cons j js ih =>
      rw [List.map_cons, Scan.entries]
      split
      · next hmore =>
          have hnext := hvisit acc sector j hacc hmore
          split
          · next heq => rwa [heq] at hnext
          · next heq =>
              rw [heq] at hnext
              exact ih _ hnext
      · exact hacc

theorem Scan.sectors_invariant (dev : Device) (lbas : List Nat) (s : Fat32) (acc : Acc)
    (hacc : P acc) : P (scan.sectors dev lbas s acc).2.1 := by
  induction lbas generalizing s acc with
  | nil => exact hacc
  | cons lba lbas ih =>
      rw [Scan.sectors]
      split
      · exact hacc
      · next t _ =>
          have hentries := Scan.entries_invariant hvisit t.sectorBuffer (List.range 16) acc hacc
          rw [← dirEntries] at hentries
          split
          · next heq => rwa [heq] at hentries
          · next heq =>
              rw [heq] at hentries
              exact ih _ _ hentries

theorem Scan.chain_invariant (dev : Device) (clusters cluster : Nat) (s : Fat32) (acc : Acc)
    (hacc : P acc) : P (scan.chain dev clusters cluster s acc).2.1 := by
  induction clusters generalizing cluster s acc with
  | zero => exact hacc
  | succ clusters ih =>
      rw [Scan.chain]
      split
      · have hsectors := Scan.sectors_invariant hvisit dev (clusterSectors s.fs cluster) s acc hacc
        split
        · next heq => rwa [heq] at hsectors
        · next heq =>
            rw [heq] at hsectors
            exact ih _ _ _ hsectors
      · exact hacc

end Invariant

theorem fat32ListDir_scan (dev : Device) (clusters : Nat) {s : Fat32} {present : Bool}
    {maxEntries : Int}
    (hready : ¬ (s.fs.initialized = false ∨ present = false ∨ maxEntries ≤ 0)) :
    (fat32ListDir dev clusters s present maxEntries).1.filled =
      ((listScan maxEntries.toNat).chain dev clusters s.fs.rootDirCluster.toNat s []).2.1 := by
  rw [fat32ListDir, if_neg hready]
  split <;> next heq => rw [heq]

theorem fat32ListDir_sameFile (dev : Device) (clusters : Nat) (s : Fat32) (present : Bool)
    (maxEntries : Int) : s.SameFile (fat32ListDir dev clusters s present maxEntries).2 := by
  unfold fat32ListDir
  split
  · exact .refl s
  · have hchain := (listScan maxEntries.toNat).chain_sameFile dev clusters
      s.fs.rootDirCluster.toNat s []
    split <;> next heq => rw [heq] at hchain; exact hchain

theorem fat32ListRoot_sameFile (dev : Device) (clusters : Nat) (s : Fat32) :
    s.SameFile (fat32ListRoot dev clusters s).2 := by
  unfold fat32ListRoot
  split
  · exact .refl s
  · have hchain := rootScan.chain_sameFile dev clusters s.fs.rootDirCluster.toNat s []
    split <;> next heq => rw [heq] at hchain; exact hchain

theorem fat32Open_opened {dev : Device} {clusters : Nat} {s t : Fat32} {filename : List UInt8}
    (hopen : fat32Open dev clusters s filename = (some true, t)) :
    t.fs = s.fs ∧ s.fs.initialized = true ∧ ∃ e : DirEntry, t.file = e.handle := by
  unfold fat32Open at hopen
  split at hopen
  · simp at hopen
  · next hinit =>
      have hsame := (openScan (fat32StringToName filename)).chain_sameFile dev clusters
        s.fs.rootDirCluster.toNat s none
      split at hopen
      · simp at hopen
      · simp at hopen
      · next e u _ heq =>
          rw [heq] at hsame
          simp only [Prod.mk.injEq, true_and] at hopen
          rw [← hopen]
          exact ⟨hsame.fs, by simpa using hinit, e, rfl⟩

/-- A search that finds nothing leaves the open file alone. -/
theorem fat32Open_notOpened {dev : Device} {clusters : Nat} {s t : Fat32} {filename : List UInt8}
    {found : Option Bool} (hopen : fat32Open dev clusters s filename = (found, t))
    (hfound : found ≠ some true) : s.SameFile t := by
  unfold fat32Open at hopen
  split at hopen
  · rw [Prod.mk.injEq] at hopen
    rw [← hopen.2]
    exact .refl s
  · have hsame := (openScan (fat32StringToName filename)).chain_sameFile dev clusters
      s.fs.rootDirCluster.toNat s none
    split at hopen <;> rw [Prod.mk.injEq] at hopen
    · next heq =>
        rw [heq] at hsame
        rw [← hopen.2]
        exact hsame
    · next heq =>
        rw [heq] at hsame
        rw [← hopen.2]
        exact hsame
    · exact (hfound hopen.1.symm).elim

end Magnos
