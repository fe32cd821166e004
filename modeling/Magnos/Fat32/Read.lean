import Magnos.Framework.Chunks
import Magnos.Fat32.Volume

/-!
# Reading files

The loop of `fat32_read` and what it delivers of a file: the clusters of the file's chain,
one after the other, cut to the size its directory entry gives.
-/

namespace Magnos

open Framework

/-- `memcpy` out of `sector_buffer`. -/
def copyBytes (s : Sector) (off n : Nat) : List UInt8 := (List.range n).map fun j => s (off + j)

def clusterSize (fs : Volume) : Nat := fs.sectorsPerCluster.toNat * sectorSize

theorem clusterSize_eq_zero {fs : Volume} : clusterSize fs = 0 ↔ fs.sectorsPerCluster = 0 := by
  rw [clusterSize, Nat.mul_eq_zero, or_iff_left (by decide), ← UInt8.toNat_inj]
  rfl

/-- How much of a request one round of the loop copies. -/
def bytesInSector (clusterSize position left : Nat) : Nat :=
  let offsetInCluster := position % clusterSize
  let bytesInCluster :=
    if clusterSize - offsetInCluster > left then left else clusterSize - offsetInCluster
  let bytesInSector := sectorSize - offsetInCluster % sectorSize
  if bytesInSector > bytesInCluster then bytesInCluster else bytesInSector

/-- The sector the handle's position lies in. -/
def positionSector (s : Fat32) : Nat :=
  dataSector s.fs s.file.currentCluster.toNat
    (s.file.position.toNat % clusterSize s.fs / sectorSize)

/-- The end of a round: advance the position and, at the end of a cluster, follow the chain. -/
def advance (dev : Device) (s : Fat32) (n : Nat) : Fat32 :=
  let s := { s with file := { s.file with position := .ofNat (s.file.position.toNat + n) } }
  if s.file.position.toNat % clusterSize s.fs = 0 then
    let (next, s) := fat32GetNextCluster dev s s.file.currentCluster.toNat
    { s with file := { s.file with currentCluster := .ofNat next } }
  else s

/-- The loop of `fat32_read` with `left` bytes to go: the bytes it copies and whether it
divides by zero.  Every round copies at least one byte, so `left` rounds suffice. -/
def readLoop (dev : Device) : (rounds : Nat) → Fat32 → Nat → List UInt8 × Bool × Fat32
  | 0, s, _ => ([], false, s)
  | rounds + 1, s, left =>
      if left > 0 ∧ s.file.currentCluster.toNat < clusterEoc then
        if clusterSize s.fs = 0 then ([], true, s)
        else
          match ideRead dev s (positionSector s) with
          | (false, s) => ([], false, s)
          | (true, s) =>
              let position := s.file.position.toNat
              let n := bytesInSector (clusterSize s.fs) position left
              let chunk := copyBytes s.sectorBuffer (position % clusterSize s.fs % sectorSize) n
              let (rest, result) := readLoop dev rounds (advance dev s n) (left - n)
              (chunk ++ rest, result)
      else ([], false, s)

/-- The bytes `fat32_read` stores from its buffer on, and its result, none for a division by
zero. -/
structure ReadResult where
  bytes : List UInt8
  ret : Option Int

/-- The number of bytes `fat32_read` sets out to read. -/
def bytesToRead (file : FileHandle) (size : Nat) : Nat :=
  if (file.position.toNat + size) % 2 ^ 32 > file.size.toNat then
    sub32 file.size.toNat file.position.toNat
  else size

/-- `fat32_read` on the static `file`. -/
def fat32Read (dev : Device) (s : Fat32) (size : Nat) : ReadResult × Fat32 :=
  if s.file.valid = false ∨ s.fs.initialized = false then (⟨[], some (-1)⟩, s)
  else
    let left := bytesToRead s.file size
    let (bytes, fault, s) := readLoop dev left s left
    (⟨bytes, if fault then none else some (toInt32 bytes.length)⟩, s)

theorem bytesInSector_pos (csz position left : Nat) (hcsz : 0 < csz) (hleft : 0 < left) :
    0 < bytesInSector csz position left := by
  have hmod := Nat.mod_lt position hcsz
  have hmod' := Nat.mod_lt (position % csz) (show 0 < sectorSize by decide)
  simp only [bytesInSector]
  split <;> split <;> omega

theorem bytesInSector_le (csz position left : Nat) :
    bytesInSector csz position left ≤ left ∧
      position % csz + bytesInSector csz position left ≤ max csz (position % csz) ∧
      position % csz % sectorSize + bytesInSector csz position left ≤ sectorSize := by
  have hmod' := Nat.mod_lt (position % csz) (show 0 < sectorSize by decide)
  simp only [bytesInSector]
  split <;> split <;> omega

theorem readLoop_length_le (dev : Device) (rounds : Nat) (s : Fat32) (left : Nat) :
    (readLoop dev rounds s left).1.length ≤ left := by
  induction rounds generalizing s left with
  | zero => simp [readLoop]
  | succ rounds ih =>
      rw [readLoop]
      split
      · split
        · simp
        · split
          · simp
          · next t _ =>
              have hn := (bytesInSector_le (clusterSize t.fs) t.file.position.toNat left).1
              have hrest := ih
                (advance dev t (bytesInSector (clusterSize t.fs) t.file.position.toNat left))
                (left - bytesInSector (clusterSize t.fs) t.file.position.toNat left)
              simp only [List.length_append, copyBytes, List.length_map, List.length_range]
              omega
      · simp

theorem bytesToRead_le {file : FileHandle} (hfile : file.position.toNat ≤ file.size.toNat)
    {size : Nat} (hsize : size < 2 ^ 32) : bytesToRead file size ≤ size := by
  have hlt := file.size.toNat_lt
  unfold bytesToRead
  rw [sub32_of_le hfile hlt]
  split <;> omega

theorem fat32Read_bytes_length (dev : Device) (s : Fat32) (size : Nat) :
    (fat32Read dev s size).1.bytes.length ≤ bytesToRead s.file size := by
  unfold fat32Read
  split
  · simp
  · exact readLoop_length_le dev _ s _

/-- The entry of the FAT for a cluster. -/
def fatEntry (disk : Nat → Sector) (fs : Volume) (cluster : Nat) : Nat :=
  le32 (disk (fs.fatStartSector.toNat + cluster * 4 / sectorSize)) (cluster * 4 % sectorSize) &&&
    clusterMask

/-- A file on a disk: the clusters of its chain, as many as its size needs, at sectors whose
numbers do not wrap. -/
structure FileChain (disk : Nat → Sector) (fs : Volume) (first size : Nat) (cs : List Nat) :
    Prop where
  head : ∀ c ∈ cs.head?, first = c
  valid : ∀ c ∈ cs, 2 ≤ c ∧ c < clusterReserved
  linked : cs.IsChain fun c d => fatEntry disk fs c = d
  enough : size ≤ clusterSize fs * cs.length
  noWrap : ∀ c ∈ cs, ∀ i < fs.sectorsPerCluster.toNat,
    fs.dataStartSector.toNat + (c - 2) * fs.sectorsPerCluster.toNat + i < 2 ^ 32
  noWrapFat : ∀ c ∈ cs, fs.fatStartSector.toNat + c * 4 / sectorSize < 2 ^ 32

def sectorBytes (s : Sector) : List UInt8 := (List.range sectorSize).map s

/-- The bytes of a cluster. -/
def clusterBytes (disk : Nat → Sector) (fs : Volume) (cluster : Nat) : List UInt8 :=
  (List.range fs.sectorsPerCluster.toNat).flatMap fun i =>
    sectorBytes (disk (fs.dataStartSector.toNat + (cluster - 2) * fs.sectorsPerCluster.toNat + i))

/-- The contents of a file. -/
def fileBytes (disk : Nat → Sector) (fs : Volume) (cs : List Nat) (size : Nat) : List UInt8 :=
  (cs.flatMap (clusterBytes disk fs)).take size

theorem sectorBytes_length (s : Sector) : (sectorBytes s).length = sectorSize := by
  simp [sectorBytes]

theorem copyBytes_eq (s : Sector) (off n : Nat) (hfits : off + n ≤ sectorSize) :
    copyBytes s off n = ((sectorBytes s).drop off).take n := by
  apply List.ext_getElem
  · simp [copyBytes, sectorBytes]
    omega
  · intro i h1 h2
    simp [copyBytes, sectorBytes]

theorem clusterBytes_length (disk : Nat → Sector) (fs : Volume) (cluster : Nat) :
    (clusterBytes disk fs cluster).length = clusterSize fs := by
  rw [clusterBytes, length_flatMap_const _ fun _ _ => sectorBytes_length _, List.length_range,
    clusterSize, Nat.mul_comm]

theorem nextCluster_eq_fatEntry (disk : Nat → Sector) (fs : Volume) (c : Nat)
    (hvalid : 2 ≤ c ∧ c < clusterReserved)
    (hwrap : fs.fatStartSector.toNat + c * 4 / sectorSize < 2 ^ 32)
    (hlink : fatEntry disk fs c < clusterEoc) : nextCluster disk fs c = fatEntry disk fs c := by
  have hmul : c * 4 % 2 ^ 32 = c * 4 := by
    unfold clusterReserved at hvalid
    omega
  have hoff : c * 4 % sectorSize / 4 * 4 = c * 4 % sectorSize := by
    unfold sectorSize
    omega
  have hsector : fatSector fs c = fs.fatStartSector.toNat + c * 4 / sectorSize := by
    rw [fatSector, hmul, Nat.mod_eq_of_lt hwrap]
  have hentry : le32 (disk (fatSector fs c)) (entryOffset c * 4) &&& clusterMask =
      fatEntry disk fs c := by
    rw [entryOffset, hmul, hoff, hsector, fatEntry]
  rw [nextCluster, if_neg (by omega), fatLink]
  simp only [hentry]
  rw [if_neg (by omega)]

theorem fileBytes_slice (disk : Nat → Sector) (fs : Volume) (cs : List Nat) (size p n c : Nat)
    (hc : cs[p / clusterSize fs]? = some c) (hn : p + n ≤ size)
    (hcluster : p % clusterSize fs + n ≤ clusterSize fs)
    (hsector : p % clusterSize fs % sectorSize + n ≤ sectorSize)
    (hcsz : 0 < clusterSize fs) :
    ((fileBytes disk fs cs size).drop p).take n =
      copyBytes (disk (fs.dataStartSector.toNat + (c - 2) * fs.sectorsPerCluster.toNat +
        p % clusterSize fs / sectorSize)) (p % clusterSize fs % sectorSize) n := by
  have hindex : p % clusterSize fs / sectorSize < fs.sectorsPerCluster.toNat := by
    apply Nat.div_lt_of_lt_mul
    rw [Nat.mul_comm]
    exact Nat.mod_lt p hcsz
  have hrange : (List.range fs.sectorsPerCluster.toNat)[p % clusterSize fs / sectorSize]? =
      some (p % clusterSize fs / sectorSize) := by
    simp [hindex]
  have hfile := slice_flatMap_const cs c (p / clusterSize fs) (p % clusterSize fs) n
    (f := clusterBytes disk fs) (fun _ _ => clusterBytes_length disk fs _) hc hcluster
  have hcl := slice_flatMap_const (List.range fs.sectorsPerCluster.toNat) _
    (p % clusterSize fs / sectorSize) (p % clusterSize fs % sectorSize) n
    (f := fun i => sectorBytes (disk (fs.dataStartSector.toNat +
      (c - 2) * fs.sectorsPerCluster.toNat + i)))
    (fun _ _ => sectorBytes_length _) hrange hsector
  rw [Nat.div_add_mod] at hfile hcl
  rw [fileBytes, List.drop_take, List.take_take, Nat.min_eq_left (by omega), hfile, clusterBytes,
    hcl, copyBytes_eq _ _ _ hsector]

namespace FileChain

variable {disk : Nat → Sector} {fs : Volume} {first size : Nat} {cs : List Nat}

/-- The link from one cluster of the file to the next. -/
theorem next (hchain : FileChain disk fs first size cs) (i c d : Nat) (hc : cs[i]? = some c)
    (hd : cs[i + 1]? = some d) : nextCluster disk fs c = d := by
  obtain ⟨hi, rfl⟩ := List.getElem?_eq_some_iff.mp hc
  obtain ⟨hi', rfl⟩ := List.getElem?_eq_some_iff.mp hd
  have hlink : fatEntry disk fs cs[i] = cs[i + 1] := hchain.linked.getElem i hi'
  have hvalid := (hchain.valid cs[i + 1] (List.getElem_mem hi')).2
  have hmem := List.getElem_mem hi
  rw [← hlink]
  apply nextCluster_eq_fatEntry _ _ _ (hchain.valid _ hmem) (hchain.noWrapFat _ hmem)
  rw [hlink]
  unfold clusterReserved at hvalid
  unfold clusterEoc
  omega

end FileChain

/-- The handle stands at position `p` of the file, and on the cluster of that position if
there is something left to read. -/
structure Fat32.At (s : Fat32) (cs : List Nat) (p : Nat) : Prop where
  position : s.file.position.toNat = p
  cluster : p < s.file.size.toNat →
    cs[p / clusterSize s.fs]? = some s.file.currentCluster.toNat

/-- What a read keeps of the handle and the volume. -/
structure Fat32.SameOpen (s t : Fat32) : Prop where
  fs : t.fs = s.fs
  size : t.file.size = s.file.size
  firstCluster : t.file.firstCluster = s.file.firstCluster
  attr : t.file.attr = s.file.attr
  valid : t.file.valid = s.file.valid

theorem Fat32.SameOpen.trans {s t u : Fat32} (hst : s.SameOpen t) (htu : t.SameOpen u) :
    s.SameOpen u :=
  ⟨htu.fs.trans hst.fs, htu.size.trans hst.size, htu.firstCluster.trans hst.firstCluster,
    htu.attr.trans hst.attr, htu.valid.trans hst.valid⟩

theorem Fat32.SameFile.sameOpen {s t : Fat32} (hsame : s.SameFile t) : s.SameOpen t :=
  ⟨hsame.fs, by rw [hsame.file], by rw [hsame.file], by rw [hsame.file], by rw [hsame.file]⟩

theorem advance_sameOpen (dev : Device) (s : Fat32) (n : Nat) : s.SameOpen (advance dev s n) := by
  unfold advance
  dsimp only
  split
  · have hsame := fat32GetNextCluster_sameFile dev
      { s with file := { s.file with position := .ofNat (s.file.position.toNat + n) } }
      s.file.currentCluster.toNat
    exact ⟨hsame.fs, by rw [hsame.file], by rw [hsame.file], by rw [hsame.file],
      by rw [hsame.file]⟩
  · exact ⟨rfl, rfl, rfl, rfl, rfl⟩

theorem readLoop_sameOpen (dev : Device) (rounds : Nat) (s : Fat32) (left : Nat) :
    s.SameOpen (readLoop dev rounds s left).2.2 := by
  induction rounds generalizing s left with
  | zero => exact (Fat32.SameFile.refl s).sameOpen
  | succ rounds ih =>
      have hread := (ideRead_sameFile dev s (positionSector s)).sameOpen
      rw [readLoop]
      split
      · split
        · exact (Fat32.SameFile.refl s).sameOpen
        · split
          · next heq =>
              rw [heq] at hread
              exact hread
          · next heq =>
              rw [heq] at hread
              exact (hread.trans (advance_sameOpen dev _ _)).trans (ih _ _)
      · exact (Fat32.SameFile.refl s).sameOpen

theorem fat32Read_sameOpen (dev : Device) (s : Fat32) (size : Nat) :
    s.SameOpen (fat32Read dev s size).2 := by
  rw [fat32Read]
  split
  · exact (Fat32.SameFile.refl s).sameOpen
  · exact readLoop_sameOpen dev _ s _

section Serving

variable {dev : Device} {disk : Nat → Sector} {s : Fat32} {first : Nat} {cs : List Nat}

theorem advance_next (hdev : dev.Serves disk) (s : Fat32) (n : Nat)
    (hend : (UInt32.ofNat (s.file.position.toNat + n)).toNat % clusterSize s.fs = 0) :
    (advance dev s n).file = { s.file with
      position := .ofNat (s.file.position.toNat + n)
      currentCluster := .ofNat (nextCluster disk s.fs s.file.currentCluster.toNat) } := by
  have hfst := fat32GetNextCluster_fst hdev
    { s with file := { s.file with position := .ofNat (s.file.position.toNat + n) } }
    s.file.currentCluster.toNat
  have hfile := (fat32GetNextCluster_sameFile dev
    { s with file := { s.file with position := .ofNat (s.file.position.toNat + n) } }
    s.file.currentCluster.toNat).file
  simp only [advance]
  rw [if_pos hend, hfst, hfile]

theorem advance_at (hchain : FileChain disk s.fs first s.file.size.toNat cs)
    (hcsz : 0 < clusterSize s.fs) (p n : Nat) (hat : s.At cs p) (hp : p < s.file.size.toNat)
    (hn : p + n ≤ s.file.size.toNat) (hpos : 0 < n)
    (hcluster : p % clusterSize s.fs + n ≤ clusterSize s.fs)
    (hnext : (UInt32.ofNat (s.file.position.toNat + n)).toNat % clusterSize s.fs = 0 →
      (advance dev s n).file = { s.file with
        position := .ofNat (s.file.position.toNat + n)
        currentCluster := .ofNat (nextCluster disk s.fs s.file.currentCluster.toNat) }) :
    (advance dev s n).At cs (p + n) := by
  have hsize := s.file.size.toNat_lt
  have hcur := hat.cluster hp
  have hposition : (UInt32.ofNat (s.file.position.toNat + n)).toNat = p + n := by
    rw [hat.position]
    exact UInt32.toNat_ofNat_of_lt' (show p + n < 2 ^ 32 by omega)
  have hsame := advance_sameOpen dev s n
  by_cases hend : (p + n) % clusterSize s.fs = 0
  · have hadv := hnext (by rw [hposition]; exact hend)
    refine ⟨by rw [hadv]; exact hposition, ?_⟩
    intro hmore
    rw [hsame.size] at hmore
    rw [hsame.fs]
    have hquot := add_div_of_boundary hcsz hcluster hpos hend
    have hlen : p / clusterSize s.fs + 1 < cs.length := by
      rw [← hquot]
      apply Nat.div_lt_of_lt_mul
      exact lt_of_lt_of_le hmore hchain.enough
    have hnext : cs[p / clusterSize s.fs + 1]? = some cs[p / clusterSize s.fs + 1] :=
      List.getElem?_eq_getElem hlen
    have hlink := hchain.next _ _ _ hcur hnext
    have hvalid := (hchain.valid _ (List.getElem_mem hlen)).2
    have hsmall : cs[p / clusterSize s.fs + 1] < 2 ^ 32 := by
      unfold clusterReserved at hvalid
      omega
    rw [hquot, hnext, hadv]
    simp only [hlink]
    rw [UInt32.toNat_ofNat_of_lt' hsmall]
  · have hadv : advance dev s n =
        { s with file := { s.file with position := .ofNat (s.file.position.toNat + n) } } := by
      simp only [advance, hposition]
      rw [if_neg hend]
    rw [hadv]
    refine ⟨hposition, ?_⟩
    intro _
    show cs[(p + n) / clusterSize s.fs]? = some s.file.currentCluster.toNat
    rw [add_div_of_inside hcsz hcluster hend, hcur]

theorem positionSector_at (hchain : FileChain disk s.fs first s.file.size.toNat cs)
    (hcsz : 0 < clusterSize s.fs) {p : Nat} (hat : s.At cs p) (hp : p < s.file.size.toNat) :
    positionSector s = s.fs.dataStartSector.toNat +
      (s.file.currentCluster.toNat - 2) * s.fs.sectorsPerCluster.toNat +
      p % clusterSize s.fs / sectorSize := by
  have hmem : s.file.currentCluster.toNat ∈ cs := List.mem_of_getElem? (hat.cluster hp)
  have hvalid := hchain.valid _ hmem
  have hindex : p % clusterSize s.fs / sectorSize < s.fs.sectorsPerCluster.toNat := by
    apply Nat.div_lt_of_lt_mul
    rw [Nat.mul_comm]
    exact Nat.mod_lt p hcsz
  have hwrap := hchain.noWrap _ hmem _ hindex
  rw [positionSector, hat.position, dataSector, fat32ClusterToSector, if_neg (by omega),
    Nat.mod_eq_of_lt (Nat.lt_of_le_of_lt (Nat.le_add_right _ _) hwrap), Nat.mod_eq_of_lt hwrap]

/-- One round of the loop on a drive that does not fail. -/
theorem readLoop_round (hdev : dev.Serves disk) (rounds : Nat) (s : Fat32) (left : Nat)
    (hloop : left > 0 ∧ s.file.currentCluster.toNat < clusterEoc) (hcsz : 0 < clusterSize s.fs) :
    let n := bytesInSector (clusterSize s.fs) s.file.position.toNat left
    let t := { s with sectorBuffer := disk (positionSector s), time := s.time + 1 }
    readLoop dev (rounds + 1) s left =
      (copyBytes (disk (positionSector s))
          (s.file.position.toNat % clusterSize s.fs % sectorSize) n ++
          (readLoop dev rounds (advance dev t n) (left - n)).1,
        (readLoop dev rounds (advance dev t n) (left - n)).2) := by
  rw [readLoop, if_pos hloop, if_neg (by omega), ideRead_serves hdev]

theorem readLoop_spec (hdev : dev.Serves disk) (rounds left p : Nat)
    (hchain : FileChain disk s.fs first s.file.size.toNat cs) (hcsz : 0 < clusterSize s.fs)
    (hat : s.At cs p) (hleft : p + left ≤ s.file.size.toNat) (hrounds : left ≤ rounds) :
    (readLoop dev rounds s left).1 =
        ((fileBytes disk s.fs cs s.file.size.toNat).drop p).take left ∧
      (readLoop dev rounds s left).2.1 = false ∧
      (readLoop dev rounds s left).2.2.At cs (p + left) := by
  induction rounds generalizing s left p with
  | zero =>
      obtain rfl : left = 0 := by omega
      exact ⟨by simp [readLoop], rfl, hat⟩
  | succ rounds ih =>
      by_cases hzero : left = 0
      · subst hzero
        simp only [readLoop, Nat.lt_irrefl, gt_iff_lt, false_and, if_false, List.take_zero,
          Nat.add_zero]
        exact ⟨trivial, trivial, hat⟩
      · have hp : p < s.file.size.toNat := by omega
        have hcur := hat.cluster hp
        have hmem : s.file.currentCluster.toNat ∈ cs := List.mem_of_getElem? hcur
        have hvalid := hchain.valid _ hmem
        have hloop : left > 0 ∧ s.file.currentCluster.toNat < clusterEoc := by
          unfold clusterReserved at hvalid
          unfold clusterEoc
          omega
        have hlba := positionSector_at hchain hcsz hat hp
        obtain ⟨hnleft, hncluster, hnsector⟩ := bytesInSector_le (clusterSize s.fs) p left
        have hnpos := bytesInSector_pos (clusterSize s.fs) p left hcsz (by omega)
        have hmod := Nat.mod_lt p hcsz
        rw [Nat.max_eq_left (by omega)] at hncluster
        set n := bytesInSector (clusterSize s.fs) p left with hn
        set s₁ : Fat32 := { s with sectorBuffer := disk (positionSector s), time := s.time + 1 }
          with hs₁
        have hadv := advance_sameOpen dev s₁ n
        have hat₁ : (advance dev s₁ n).At cs (p + n) :=
          advance_at (s := s₁) hchain hcsz p n ⟨hat.position, hat.cluster⟩ hp
            (show p + n ≤ s.file.size.toNat by omega) hnpos hncluster (advance_next hdev s₁ n)
        obtain ⟨hbytes, hfault, hat₂⟩ := ih (s := advance dev s₁ n) (left - n) (p + n)
          (by rw [hadv.fs, hadv.size]; exact hchain) (by rw [hadv.fs]; exact hcsz) hat₁
          (by rw [hadv.size]; show p + n + (left - n) ≤ s.file.size.toNat; omega) (by omega)
        have hround : readLoop dev (rounds + 1) s left =
            (copyBytes (disk (positionSector s)) (p % clusterSize s.fs % sectorSize) n ++
                (readLoop dev rounds (advance dev s₁ n) (left - n)).1,
              (readLoop dev rounds (advance dev s₁ n) (left - n)).2) := by
          have h := readLoop_round hdev rounds s left hloop hcsz
          simp only [hat.position, ← hn, ← hs₁] at h
          exact h
        have hslice := fileBytes_slice disk s.fs cs s.file.size.toNat p n _ hcur (by omega) hncluster
          hnsector hcsz
        rw [hadv.fs, hadv.size] at hbytes
        rw [hround, hbytes]
        refine ⟨?_, hfault, ?_⟩
        · rw [hlba, ← hslice]
          have hsplit : left = n + (left - n) := by omega
          conv_rhs => rw [hsplit, List.take_add, List.drop_drop]
        · have hsum : p + n + (left - n) = p + left := by omega
          rwa [hsum] at hat₂

theorem advance_congr (hdev : dev.Serves disk) {s t : Fat32} (hsame : s.SameFile t) (n : Nat) :
    (advance dev s n).SameFile (advance dev t n) := by
  obtain ⟨fs, buffer, file, time⟩ := s
  obtain ⟨fs', buffer', file', time'⟩ := t
  obtain ⟨hfs, hfile⟩ := hsame
  dsimp only at hfs hfile
  subst hfs hfile
  have hs := fat32GetNextCluster_sameFile dev
    ⟨fs', buffer, { file' with position := .ofNat (file'.position.toNat + n) }, time⟩
    file'.currentCluster.toNat
  have ht := fat32GetNextCluster_sameFile dev
    ⟨fs', buffer', { file' with position := .ofNat (file'.position.toNat + n) }, time'⟩
    file'.currentCluster.toNat
  simp only [advance]
  split
  · refine ⟨ht.fs.trans hs.fs.symm, ?_⟩
    simp only [fat32GetNextCluster_fst hdev, hs.file, ht.file]
  · exact ⟨rfl, rfl⟩

theorem readLoop_congr (hdev : dev.Serves disk) {s t : Fat32} (hsame : s.SameFile t)
    (rounds left : Nat) :
    (readLoop dev rounds t left).1 = (readLoop dev rounds s left).1 ∧
      (readLoop dev rounds t left).2.1 = (readLoop dev rounds s left).2.1 ∧
      (readLoop dev rounds s left).2.2.SameFile (readLoop dev rounds t left).2.2 := by
  induction rounds generalizing s t left with
  | zero => exact ⟨rfl, rfl, hsame⟩
  | succ rounds ih =>
      by_cases hloop : left > 0 ∧ s.file.currentCluster.toNat < clusterEoc
      · have hloop' : left > 0 ∧ t.file.currentCluster.toNat < clusterEoc := by
          rw [hsame.file]
          exact hloop
        by_cases hcsz : clusterSize s.fs = 0
        · have hcsz' : clusterSize t.fs = 0 := by
            rw [hsame.fs]
            exact hcsz
          rw [readLoop, if_pos hloop', if_pos hcsz', readLoop, if_pos hloop, if_pos hcsz]
          exact ⟨rfl, rfl, hsame⟩
        · have hround := readLoop_round hdev rounds s left hloop (by omega)
          have hround' := readLoop_round hdev rounds t left hloop' (by rw [hsame.fs]; omega)
          have hsector : positionSector t = positionSector s := by
            rw [positionSector, positionSector, hsame.fs, hsame.file]
          simp only [hsector, hsame.fs, hsame.file] at hround'
          obtain ⟨hbytes, hfault, hend⟩ := ih (advance_congr hdev
            (s := { s with sectorBuffer := disk (positionSector s), time := s.time + 1 })
            (t := { s with sectorBuffer := disk (positionSector s), time := t.time + 1 }) ⟨rfl, rfl⟩
            (bytesInSector (clusterSize s.fs) s.file.position.toNat left))
            (left - bytesInSector (clusterSize s.fs) s.file.position.toNat left)
          rw [hround, hround', hbytes]
          exact ⟨rfl, hfault, hend⟩
      · have hloop' : ¬ (left > 0 ∧ t.file.currentCluster.toNat < clusterEoc) := by
          rw [hsame.file]
          exact hloop
        rw [readLoop, if_neg hloop', readLoop, if_neg hloop]
        exact ⟨rfl, rfl, hsame⟩

theorem fat32Read_congr (hdev : dev.Serves disk) {s t : Fat32} (hsame : s.SameFile t) (size : Nat) :
    (fat32Read dev t size).1 = (fat32Read dev s size).1 ∧
      (fat32Read dev s size).2.SameFile (fat32Read dev t size).2 := by
  unfold fat32Read
  rw [hsame.fs, hsame.file]
  split
  · exact ⟨rfl, hsame⟩
  · obtain ⟨hbytes, hfault, hend⟩ :=
      readLoop_congr hdev hsame (bytesToRead s.file size) (bytesToRead s.file size)
    simp only [hbytes, hfault]
    exact ⟨trivial, hend⟩

end Serving

end Magnos
