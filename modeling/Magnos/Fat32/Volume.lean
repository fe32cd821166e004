import Mathlib.Tactic
import Magnos.Framework.Word32

/-!
# FAT32 volumes

The state of `fat32.c` and its access to the drive.  The drive answers each sector read of a
run with the sector or with a failure; a read that fails leaves `sector_buffer` alone.
-/

namespace Magnos

open Framework

/-- The bytes of a sector, by index below 512. -/
abbrev Sector := Nat → UInt8

/-- The drive: what the `time`-th sector read of the run returns for an address. -/
abbrev Device := (time lba : Nat) → Option Sector

def sectorSize : Nat := 512

/-- The little-endian word at a byte offset. -/
def le16 (s : Sector) (i : Nat) : Nat := (s i).toNat + (s (i + 1)).toNat * 2 ^ 8

def le32 (s : Sector) (i : Nat) : Nat := le16 s i + le16 s (i + 2) * 2 ^ 16

/-- `fat32_file_t`. -/
structure FileHandle where
  firstCluster : UInt32
  currentCluster : UInt32
  size : UInt32
  position : UInt32
  attr : UInt8
  valid : Bool
deriving DecidableEq

/-- The part of `fat32_fs_t` that the driver reads after `fat32_init`. -/
structure Volume where
  sectorsPerCluster : UInt8
  fatStartSector : UInt32
  dataStartSector : UInt32
  rootDirCluster : UInt32
  initialized : Bool
deriving DecidableEq

/-- The statics of `fat32.c`: `fs`, `sector_buffer` and the one `file` of `fat32_open`, with
the number of sector reads made. -/
structure Fat32 where
  fs : Volume
  sectorBuffer : Sector
  file : FileHandle
  time : Nat

def clusterReserved : Nat := 0x0FFFFFF0

def clusterEoc : Nat := 0x0FFFFFF8

def clusterMask : Nat := 0x0FFFFFFF

/-- `ide_read_sectors` for one sector; `true` when it returned 0. -/
def ideRead (dev : Device) (s : Fat32) (lba : Nat) : Bool × Fat32 :=
  match dev s.time lba with
  | none => (false, { s with time := s.time + 1 })
  | some sector => (true, { s with sectorBuffer := sector, time := s.time + 1 })

/-- The sector of the FAT that holds a cluster's entry. -/
def fatSector (fs : Volume) (cluster : Nat) : Nat :=
  (fs.fatStartSector.toNat + cluster * 4 % 2 ^ 32 / sectorSize) % 2 ^ 32

/-- The word of its FAT sector that `fat32_get_next_cluster` takes for a cluster. -/
def entryOffset (cluster : Nat) : Nat := cluster * 4 % 2 ^ 32 % sectorSize / 4

/-- The link a FAT sector holds for a cluster, every end-of-chain mark as `clusterEoc`. -/
def fatLink (sector : Sector) (cluster : Nat) : Nat :=
  let next := le32 sector (entryOffset cluster * 4) &&& clusterMask
  if next ≥ clusterEoc then clusterEoc else next

def fat32GetNextCluster (dev : Device) (s : Fat32) (cluster : Nat) : Nat × Fat32 :=
  if cluster < 2 ∨ cluster ≥ clusterReserved then (clusterEoc, s)
  else
    match ideRead dev s (fatSector s.fs cluster) with
    | (false, s) => (clusterEoc, s)
    | (true, s) => (fatLink s.sectorBuffer cluster, s)

def fat32ClusterToSector (fs : Volume) (cluster : Nat) : Nat :=
  if cluster < 2 then 0
  else (fs.dataStartSector.toNat + (cluster - 2) * fs.sectorsPerCluster.toNat) % 2 ^ 32

/-- Data sector `i` of a cluster. -/
def dataSector (fs : Volume) (cluster i : Nat) : Nat :=
  (fat32ClusterToSector fs cluster + i) % 2 ^ 32

/-- `fat32_init` with its result. -/
def fat32Init (dev : Device) (s : Fat32) : Int × Fat32 :=
  let s := { s with fs := { s.fs with initialized := false } }
  match ideRead dev s 0 with
  | (false, s) => (-1, s)
  | (true, s) =>
      let b := s.sectorBuffer
      let s := { s with fs := { s.fs with sectorsPerCluster := b 13 } }
      if le16 b 11 ≠ 512 then (-1, s)
      else if le16 b 22 ≠ 0 then (-1, s)
      else
        let fs : Volume :=
          { sectorsPerCluster := b 13
            fatStartSector := .ofNat (le16 b 14)
            dataStartSector := .ofNat (le16 b 14 + (b 16).toNat * le32 b 36)
            rootDirCluster := .ofNat (le32 b 44)
            initialized := true }
        (0, { s with fs := fs })

theorem le16_lt (s : Sector) (i : Nat) : le16 s i < 2 ^ 16 := by
  have h1 := (s i).toNat_lt
  have h2 := (s (i + 1)).toNat_lt
  unfold le16
  omega

theorem le32_lt (s : Sector) (i : Nat) : le32 s i < 2 ^ 32 := by
  have hlow := le16_lt s i
  have hhigh := le16_lt s (i + 2)
  unfold le32
  omega

theorem fat32Init_initialized {dev : Device} {s t : Fat32} (hinit : fat32Init dev s = (0, t)) :
    t.fs.initialized = true := by
  simp only [fat32Init] at hinit
  split at hinit
  · simp at hinit
  · split at hinit
    · simp at hinit
    · split at hinit
      · simp at hinit
      · rw [Prod.mk.injEq] at hinit
        rw [← hinit.2]

/-- A drive that never fails and whose contents do not change. -/
def Device.Serves (dev : Device) (disk : Nat → Sector) : Prop :=
  ∀ time lba, dev time lba = some (disk lba)

theorem ideRead_serves {dev : Device} {disk : Nat → Sector} (hdev : dev.Serves disk) (s : Fat32)
    (lba : Nat) :
    ideRead dev s lba = (true, { s with sectorBuffer := disk lba, time := s.time + 1 }) := by
  rw [ideRead, hdev]

/-- The volume that `fat32_init` makes of an accepted boot sector. -/
def bootVolume (b : Sector) : Volume where
  sectorsPerCluster := b 13
  fatStartSector := .ofNat (le16 b 14)
  dataStartSector := .ofNat (le16 b 14 + (b 16).toNat * le32 b 36)
  rootDirCluster := .ofNat (le32 b 44)
  initialized := true

theorem fat32Init_serves {dev : Device} {disk : Nat → Sector} (hdev : dev.Serves disk) (s : Fat32)
    (hbytes : le16 (disk 0) 11 = 512) (hfat16 : le16 (disk 0) 22 = 0) :
    fat32Init dev s = (0, { s with
      fs := bootVolume (disk 0), sectorBuffer := disk 0, time := s.time + 1 }) := by
  simp only [fat32Init, ideRead_serves hdev]
  rw [if_neg (not_not_intro hbytes), if_neg (not_not_intro hfat16), bootVolume]

/-- The driver's statics before `fat32_init`. -/
def blankFat32 : Fat32 where
  fs := ⟨0, 0, 0, 0, false⟩
  sectorBuffer _ := 0
  file := ⟨0, 0, 0, 0, 0, false⟩
  time := 0

/-- A boot sector with clusters of one sector, one FAT of one sector and the root directory in
cluster 2. -/
def sampleBootSector : Sector := fun i =>
  if i = 12 ∨ i = 44 then 2 else if i = 13 ∨ i = 14 ∨ i = 16 ∨ i = 36 then 1 else 0

theorem bootVolume_sample : bootVolume sampleBootSector = ⟨1, 1, 2, 2, true⟩ := by decide

theorem fat32Init_sample {dev : Device} {disk : Nat → Sector} (hdev : dev.Serves disk)
    (hboot : disk 0 = sampleBootSector) (s : Fat32) :
    fat32Init dev s = (0, { s with
      fs := ⟨1, 1, 2, 2, true⟩, sectorBuffer := sampleBootSector, time := s.time + 1 }) := by
  rw [fat32Init_serves hdev s (by rw [hboot]; decide) (by rw [hboot]; decide), hboot,
    bootVolume_sample]

/-- The link of a cluster on a disk. -/
def nextCluster (disk : Nat → Sector) (fs : Volume) (cluster : Nat) : Nat :=
  if cluster < 2 ∨ cluster ≥ clusterReserved then clusterEoc
  else fatLink (disk (fatSector fs cluster)) cluster

theorem fat32GetNextCluster_fst {dev : Device} {disk : Nat → Sector} (hdev : dev.Serves disk)
    (s : Fat32) (cluster : Nat) :
    (fat32GetNextCluster dev s cluster).1 = nextCluster disk s.fs cluster := by
  unfold fat32GetNextCluster nextCluster
  split
  · rfl
  · rw [ideRead_serves hdev]

/-- The driver's reads change `sector_buffer` and nothing else it uses. -/
structure Fat32.SameFile (s t : Fat32) : Prop where
  fs : t.fs = s.fs
  file : t.file = s.file

theorem Fat32.SameFile.refl (s : Fat32) : s.SameFile s := ⟨rfl, rfl⟩

theorem Fat32.SameFile.trans {s t u : Fat32} (hst : s.SameFile t) (htu : t.SameFile u) :
    s.SameFile u :=
  ⟨htu.fs.trans hst.fs, htu.file.trans hst.file⟩

theorem ideRead_sameFile (dev : Device) (s : Fat32) (lba : Nat) :
    s.SameFile (ideRead dev s lba).2 := by
  unfold ideRead
  split <;> exact ⟨rfl, rfl⟩

theorem fat32GetNextCluster_sameFile (dev : Device) (s : Fat32) (cluster : Nat) :
    s.SameFile (fat32GetNextCluster dev s cluster).2 := by
  unfold fat32GetNextCluster
  split
  · exact .refl s
  · have hsame := ideRead_sameFile dev s (fatSector s.fs cluster)
    split <;> simp_all

end Magnos
