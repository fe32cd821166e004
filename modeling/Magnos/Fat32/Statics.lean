import Magnos.Framework.Stack
import Magnos.Fat32.Handles
import Magnos.Fat32.Lookup

/-!
# Buffers over the driver's own state

`fat32_read` and `fat32_list_dir` store through a pointer that their caller gives them, and nothing
keeps it away from the statics of the driver.  Here the statics have addresses: a store to one of
their bytes changes the state that the call itself goes on with.  A call whose buffer is apart from
the statics does what the driver does without addresses.
-/

namespace Magnos

open Framework

/-- Where the linker puts `fs`, `sector_buffer` and `file`. -/
structure DriverStatics where
  fs : UInt32
  sectorBuffer : UInt32
  file : UInt32

/-- An address inside the statics. -/
def DriverStatics.Holds (st : DriverStatics) (a : UInt32) : Prop :=
  Covers st.fs 108 a ∨ Covers st.sectorBuffer 512 a ∨ Covers st.file 20 a

instance (st : DriverStatics) (a : UInt32) : Decidable (st.Holds a) :=
  inferInstanceAs (Decidable (_ ∨ _))

/-- The `n` bytes from an address on are outside the statics. -/
def DriverStatics.Apart (st : DriverStatics) (buffer : UInt32) (n : Nat) : Prop :=
  ∀ i < n, ¬ st.Holds (buffer + .ofNat i)

instance (st : DriverStatics) (buffer : UInt32) (n : Nat) : Decidable (st.Apart buffer n) :=
  inferInstanceAs (Decidable (∀ i < n, _))

/-- The driver with `fs.drive`. -/
structure PlacedDriver where
  fat : Fat32
  drive : UInt8

/-- A word with one of its bytes replaced. -/
def setByte (w : UInt32) (i : Nat) (b : UInt8) : UInt32 :=
  .ofNat (w.toNat - w.toNat / 256 ^ i % 256 * 256 ^ i + b.toNat * 256 ^ i)

/-- A store to a byte of `fs`; the boot sector's bytes stand from the second one on. -/
def Volume.setByte (fs : Volume) (off : Nat) (b : UInt8) : Volume :=
  if off = 14 then { fs with sectorsPerCluster := b }
  else if 92 ≤ off ∧ off < 96 then
    { fs with fatStartSector := Magnos.setByte fs.fatStartSector (off - 92) b }
  else if 96 ≤ off ∧ off < 100 then
    { fs with dataStartSector := Magnos.setByte fs.dataStartSector (off - 96) b }
  else if 100 ≤ off ∧ off < 104 then
    { fs with rootDirCluster := Magnos.setByte fs.rootDirCluster (off - 100) b }
  else if off = 104 then { fs with initialized := b ≠ 0 }
  else fs

/-- A store to a byte of `file`. -/
def FileHandle.setByte (file : FileHandle) (off : Nat) (b : UInt8) : FileHandle :=
  if off < 4 then { file with firstCluster := Magnos.setByte file.firstCluster off b }
  else if off < 8 then { file with currentCluster := Magnos.setByte file.currentCluster (off - 4) b }
  else if off < 12 then { file with size := Magnos.setByte file.size (off - 8) b }
  else if off < 16 then { file with position := Magnos.setByte file.position (off - 12) b }
  else if off = 16 then { file with attr := b }
  else if off = 17 then { file with valid := b ≠ 0 }
  else file

/-- A byte is stored to an address. -/
def PlacedDriver.store (st : DriverStatics) (s : PlacedDriver) (a : UInt32) (b : UInt8) :
    PlacedDriver where
  fat := { s.fat with
    fs := s.fat.fs.setByte (a - st.fs).toNat b
    sectorBuffer := fun i =>
      if i = (a - st.sectorBuffer).toNat ∧ i < sectorSize then b else s.fat.sectorBuffer i
    file := s.fat.file.setByte (a - st.file).toNat b }
  drive := if (a - st.fs).toNat = 0 then b else s.drive

def PlacedDriver.storeAll (st : DriverStatics) (s : PlacedDriver)
    (stores : List (UInt32 × UInt8)) : PlacedDriver :=
  stores.foldl (fun s store => s.store st store.1 store.2) s

section Read

variable (st : DriverStatics) (drives : UInt8 → Device)

/-- `memcpy` out of `sector_buffer`, byte by byte. -/
def PlacedDriver.copyOut : (n : Nat) → PlacedDriver → (off : Nat) → (buffer : UInt32) → PlacedDriver
  | 0, s, _, _ => s
  | n + 1, s, off, buffer =>
      copyOut n (s.store st buffer (s.fat.sectorBuffer off)) (off + 1) (buffer + 1)

/-- The end of a round, with the cluster size that the round started with. -/
def PlacedDriver.advance (s : PlacedDriver) (clusterSize n : Nat) : PlacedDriver :=
  let fat := { s.fat with
    file := { s.fat.file with position := .ofNat (s.fat.file.position.toNat + n) } }
  if fat.file.position.toNat % clusterSize = 0 then
    let (next, fat) := fat32GetNextCluster (drives s.drive) fat fat.file.currentCluster.toNat
    { s with fat := { fat with file := { fat.file with currentCluster := .ofNat next } } }
  else { s with fat := fat }

/-- The loop of `fat32_read` into a buffer: the number of bytes it copies and whether it divides by
zero. -/
def readLoopTo : (rounds : Nat) → PlacedDriver → (left : Nat) → (buffer : UInt32) →
    Nat × Bool × PlacedDriver
  | 0, s, _, _ => (0, false, s)
  | rounds + 1, s, left, buffer =>
      if left > 0 ∧ s.fat.file.currentCluster.toNat < clusterEoc then
        let size := clusterSize s.fat.fs
        if size = 0 then (0, true, s)
        else
          let position := s.fat.file.position.toNat
          match ideRead (drives s.drive) s.fat (positionSector s.fat) with
          | (false, fat) => (0, false, { s with fat := fat })
          | (true, fat) =>
              let n := bytesInSector size position left
              let s := PlacedDriver.copyOut st n { s with fat := fat }
                (position % size % sectorSize) buffer
              let (count, result) := readLoopTo rounds (s.advance drives size n) (left - n)
                (buffer + .ofNat n)
              (n + count, result)
      else (0, false, s)

/-- `fat32_read` on the static `file`; no result for a division by zero. -/
def fat32ReadTo (s : PlacedDriver) (buffer : UInt32) (size : Nat) : Option Int × PlacedDriver :=
  if s.fat.file.valid = false ∨ s.fat.fs.initialized = false then (some (-1), s)
  else
    let left := bytesToRead s.fat.file size
    let (count, fault, s) := readLoopTo st drives left s left buffer
    (if fault then none else some (toInt32 count), s)

end Read

section List

variable (st : DriverStatics) (drives : UInt8 → Device)

/-- A loop of `fat32_name_to_string`: the characters up to a blank, and where the output goes on. -/
def PlacedDriver.copyName : (chars : Nat) → PlacedDriver → (src : Nat) → (output : UInt32) →
    PlacedDriver × UInt32
  | 0, s, _, output => (s, output)
  | chars + 1, s, src, output =>
      if s.fat.sectorBuffer src = 0x20 then (s, output)
      else copyName chars (s.store st output (s.fat.sectorBuffer src)) (src + 1) (output + 1)

/-- `fat32_name_to_string` of the name at an offset of `sector_buffer`. -/
def PlacedDriver.nameToString (s : PlacedDriver) (src : Nat) (output : UInt32) : PlacedDriver :=
  let (s, output) := copyName st 8 s src output
  let (s, output) :=
    if s.fat.sectorBuffer (src + 8) ≠ 0x20 then
      copyName st 3 (s.store st output 0x2E) (src + 8) (output + 1)
    else (s, output)
  s.store st output 0

/-- The `j`-th slot of the sector is written to an entry of the caller's array. -/
def PlacedDriver.fill (s : PlacedDriver) (j : Nat) (entry : UInt32) : PlacedDriver :=
  let s := s.nameToString st (32 * j) entry
  let s := s.storeAll st (storesAt (entry + 16) (leBytes (le32 s.fat.sectorBuffer (32 * j + 28))))
  s.store st (entry + 20) (if s.fat.sectorBuffer (32 * j + 11) &&& attrDirectory ≠ 0 then 1 else 0)

/-- The loop over the slots of a sector, with the number of entries filled in. -/
def slotsTo (entries : UInt32) (maxEntries : Nat) : List Nat → Nat → PlacedDriver →
    Bool × Nat × PlacedDriver
  | [], count, s => (false, count, s)
  | j :: js, count, s =>
      if count < maxEntries then
        let e := dirEntry s.fat.sectorBuffer j
        if e.IsEnd then (true, count, s)
        else if e.Deleted then slotsTo entries maxEntries js count s
        else if e.LongName then slotsTo entries maxEntries js count s
        else if e.VolumeLabel then slotsTo entries maxEntries js count s
        else slotsTo entries maxEntries js (count + 1)
          (s.fill st j (entries + .ofNat (24 * count)))
      else (false, count, s)

/-- The loop over the sectors of a cluster from the `i`-th on.  The number of sectors is read again
in every round; it is a byte, so 256 rounds suffice. -/
def sectorsTo (entries : UInt32) (maxEntries sector : Nat) : (rounds i : Nat) → Nat → PlacedDriver →
    Option WalkStatus × Nat × PlacedDriver
  | 0, _, count, s => (none, count, s)
  | rounds + 1, i, count, s =>
      if i < s.fat.fs.sectorsPerCluster.toNat then
        match ideRead (drives s.drive) s.fat ((sector + i) % 2 ^ 32) with
        | (false, fat) => (some .ioError, count, { s with fat := fat })
        | (true, fat) =>
            match slotsTo st entries maxEntries (List.range 16) count { s with fat := fat } with
            | (true, count, s) => (some .done, count, s)
            | (false, count, s) => sectorsTo entries maxEntries sector rounds (i + 1) count s
      else (none, count, s)

/-- The loop over the clusters of the root directory. -/
def chainTo (entries : UInt32) (maxEntries : Nat) : (clusters cluster : Nat) → Nat → PlacedDriver →
    WalkStatus × Nat × PlacedDriver
  | 0, _, count, s => (.running, count, s)
  | clusters + 1, cluster, count, s =>
      if cluster < clusterEoc ∧ count < maxEntries then
        match sectorsTo st drives entries maxEntries (fat32ClusterToSector s.fat.fs cluster) 256 0
          count s with
        | (some status, count, s) => (status, count, s)
        | (none, count, s) =>
            let (next, fat) := fat32GetNextCluster (drives s.drive) s.fat cluster
            chainTo entries maxEntries clusters next count { s with fat := fat }
      else (.done, count, s)

/-- `fat32_list_dir`; no result while it is running. -/
def fat32ListDirTo (clusters : Nat) (s : PlacedDriver) (entries : UInt32) (maxEntries : Int) :
    Option Int × PlacedDriver :=
  if s.fat.fs.initialized = false ∨ entries = 0 ∨ maxEntries ≤ 0 then (some (-1), s)
  else
    match chainTo st drives entries maxEntries.toNat clusters s.fat.fs.rootDirCluster.toNat 0 s with
    | (.done, count, s) => (some count, s)
    | (.ioError, _, s) => (some (-1), s)
    | (.running, _, s) => (none, s)

end List

section Stores

variable {st : DriverStatics} {a : UInt32}

theorem Volume.setByte_of_le (fs : Volume) {off : Nat} (hoff : 108 ≤ off) (b : UInt8) :
    fs.setByte off b = fs := by
  unfold Volume.setByte
  repeat rw [if_neg (by omega)]

theorem FileHandle.setByte_of_le (file : FileHandle) {off : Nat} (hoff : 20 ≤ off) (b : UInt8) :
    file.setByte off b = file := by
  unfold FileHandle.setByte
  repeat rw [if_neg (by omega)]

theorem PlacedDriver.store_outside (hout : ¬ st.Holds a) (s : PlacedDriver) (b : UInt8) :
    s.store st a b = s := by
  simp only [DriverStatics.Holds, Covers, not_or, not_lt] at hout
  obtain ⟨hfs, hbuffer, hfile⟩ := hout
  have hsector : (fun i => if i = (a - st.sectorBuffer).toNat ∧ i < sectorSize then b
      else s.fat.sectorBuffer i) = s.fat.sectorBuffer := by
    funext i
    rw [if_neg]
    rintro ⟨rfl, hlt⟩
    exact Nat.not_lt.mpr hbuffer hlt
  rw [PlacedDriver.store, Volume.setByte_of_le _ hfs, FileHandle.setByte_of_le _ hfile, hsector,
    if_neg (by omega)]

theorem PlacedDriver.storeAll_outside {stores : List (UInt32 × UInt8)}
    (hout : ∀ store ∈ stores, ¬ st.Holds store.1) (s : PlacedDriver) : s.storeAll st stores = s := by
  induction stores generalizing s with
  | nil => rfl
  | cons store stores ih =>
      have hrest := ih fun store' hstore' => hout store' (List.mem_cons_of_mem _ hstore')
      rw [PlacedDriver.storeAll, List.foldl_cons, store_outside (hout store List.mem_cons_self)]
      exact hrest s

theorem DriverStatics.Apart.shift {buffer : UInt32} {n m k : Nat} (hapart : st.Apart buffer n)
    (hfits : m + k ≤ n) : st.Apart (buffer + .ofNat m) k := by
  intro i hi
  rw [UInt32.add_assoc, ← UInt32.ofNat_add]
  exact hapart (m + i) (by omega)

theorem DriverStatics.Apart.first {buffer : UInt32} {n : Nat} (hapart : st.Apart buffer (n + 1)) :
    ¬ st.Holds buffer := by
  have hzero := hapart 0 (Nat.succ_pos n)
  rwa [show UInt32.ofNat 0 = 0 from rfl, UInt32.add_zero] at hzero

theorem DriverStatics.Apart.next {buffer : UInt32} {n : Nat} (hapart : st.Apart buffer (n + 1)) :
    st.Apart (buffer + 1) n :=
  hapart.shift (m := 1) (by omega)

theorem PlacedDriver.copyOut_apart {buffer : UInt32} {n : Nat} (hapart : st.Apart buffer n)
    (s : PlacedDriver) (off : Nat) : copyOut st n s off buffer = s := by
  induction n generalizing buffer off with
  | zero => rfl
  | succ n ih => rw [copyOut, store_outside hapart.first, ih hapart.next]

theorem PlacedDriver.copyName_apart (chars : Nat) {output : UInt32}
    (hapart : st.Apart output chars) (s : PlacedDriver) (src : Nat) :
    ∃ k ≤ chars, copyName st chars s src output = (s, output + .ofNat k) := by
  induction chars generalizing output src with
  | zero => exact ⟨0, Nat.le_refl 0, by rw [copyName]; simp⟩
  | succ chars ih =>
      rw [copyName]
      split
      · exact ⟨0, Nat.zero_le _, by simp⟩
      · obtain ⟨k, hk, heq⟩ := ih hapart.next (src + 1)
        refine ⟨k + 1, by omega, ?_⟩
        rw [store_outside hapart.first, heq, add_one_add_ofNat]

theorem PlacedDriver.nameToString_apart {output : UInt32} (hapart : st.Apart output 13)
    (s : PlacedDriver) (src : Nat) : s.nameToString st src output = s := by
  obtain ⟨k, hk, hname⟩ := copyName_apart 8 (fun i hi => hapart i (by omega)) s src
  have hrest := hapart.shift (m := k) (k := 13 - k) (by omega)
  rw [nameToString, hname]
  dsimp only
  split
  · have hdot : st.Apart (output + .ofNat k) (4 + 1) := fun i hi => hrest i (by omega)
    obtain ⟨l, hl, hext⟩ := copyName_apart 3 (fun i hi => hdot.next i (by omega)) s
      (src + 8)
    rw [store_outside hdot.first, hext]
    exact store_outside (hdot.next l (by omega)) s 0
  · have hend : st.Apart (output + .ofNat k) (0 + 1) := fun i hi => hrest i (by omega)
    exact store_outside hend.first s 0

theorem PlacedDriver.fill_apart {entry : UInt32} (hapart : st.Apart entry 24) (s : PlacedDriver)
    (j : Nat) : s.fill st j entry = s := by
  have hname := nameToString_apart (fun i hi => hapart i (by omega)) s (32 * j)
  rw [fill, hname, storeAll_outside]
  · exact store_outside (hapart 20 (by omega)) s _
  intro store hstore
  obtain ⟨i, hi, rfl⟩ := mem_storesAt.mp hstore
  have hsize := hapart.shift (m := 16) (k := 8) (by omega)
  exact hsize i (Nat.lt_of_lt_of_le hi (by simp [leBytes]))

end Stores

section Apart

variable {st : DriverStatics} (drives : UInt8 → Device) (drive : UInt8)

theorem PlacedDriver.advance_eq (fat : Fat32) (n : Nat) :
    PlacedDriver.advance drives ⟨fat, drive⟩ (clusterSize fat.fs) n =
      ⟨Magnos.advance (drives drive) fat n, drive⟩ := by
  unfold PlacedDriver.advance Magnos.advance
  dsimp only
  split <;> rfl

/-- A loop whose buffer is apart from the statics copies as many bytes as the loop without
addresses, and does the same to the driver. -/
theorem readLoopTo_apart (rounds : Nat) (fat : Fat32) (left : Nat) (buffer : UInt32)
    (hapart : st.Apart buffer left) :
    readLoopTo st drives rounds ⟨fat, drive⟩ left buffer =
      ((readLoop (drives drive) rounds fat left).1.length,
        (readLoop (drives drive) rounds fat left).2.1,
        ⟨(readLoop (drives drive) rounds fat left).2.2, drive⟩) := by
  induction rounds generalizing fat left buffer with
  | zero => rfl
  | succ rounds ih =>
      have hread := ideRead_sameFile (drives drive) fat (positionSector fat)
      rw [readLoopTo, readLoop]
      dsimp only
      split
      · split
        · rfl
        · rcases hsector : ideRead (drives drive) fat (positionSector fat) with ⟨ok, next⟩
          rw [hsector] at hread
          cases ok with
          | false => rfl
          | true =>
              have hfs : next.fs = fat.fs := hread.fs
              have hfile : next.file = fat.file := hread.file
              have hn := (bytesInSector_le (clusterSize fat.fs) fat.file.position.toNat left).1
              have hrest := hapart.shift
                (m := bytesInSector (clusterSize fat.fs) fat.file.position.toNat left)
                (k := left - bytesInSector (clusterSize fat.fs) fat.file.position.toNat left)
                (by omega)
              dsimp only
              rw [PlacedDriver.copyOut_apart (fun i hi => hapart i (by omega)), hfile, ← hfs,
                PlacedDriver.advance_eq, hfs, ih _ _ _ hrest]
              simp [copyBytes]
      · rfl

theorem fat32ReadTo_apart (fat : Fat32) (buffer : UInt32) (size : Nat)
    (hapart : st.Apart buffer (bytesToRead fat.file size)) :
    fat32ReadTo st drives ⟨fat, drive⟩ buffer size =
      ((fat32Read (drives drive) fat size).1.ret, ⟨(fat32Read (drives drive) fat size).2, drive⟩) := by
  unfold fat32ReadTo fat32Read
  dsimp only
  split
  · rfl
  · rw [readLoopTo_apart drives drive _ _ _ _ hapart]

section Listing

theorem slotsTo_cons (entries : UInt32) (maxEntries j : Nat) (js : List Nat) (count : Nat)
    (s : PlacedDriver) :
    slotsTo st entries maxEntries (j :: js) count s =
      if count < maxEntries then
        if (dirEntry s.fat.sectorBuffer j).IsEnd then (true, count, s)
        else if (dirEntry s.fat.sectorBuffer j).Visible then
          slotsTo st entries maxEntries js (count + 1)
            (s.fill st j (entries + .ofNat (24 * count)))
        else slotsTo st entries maxEntries js count s
      else (false, count, s) := by
  simp only [slotsTo, DirEntry.Visible, DirEntry.Named]
  grind

variable {entries : UInt32} {maxEntries : Nat} (hapart : st.Apart entries (24 * maxEntries))
include hapart

theorem slotsTo_apart (js : List Nat) (filled : List DirInfo) (fat : Fat32) :
    slotsTo st entries maxEntries js filled.length ⟨fat, drive⟩ =
      (((listScan maxEntries).entries (js.map (dirEntry fat.sectorBuffer)) filled).1,
        ((listScan maxEntries).entries (js.map (dirEntry fat.sectorBuffer)) filled).2.length,
        ⟨fat, drive⟩) := by
  induction js generalizing filled with
  | nil => rfl
  | cons j js ih =>
      rw [slotsTo_cons, List.map_cons, Scan.entries, listScan_visit]
      by_cases hmore : filled.length < maxEntries
      · have hfill := PlacedDriver.fill_apart (hapart.shift (m := 24 * filled.length) (k := 24)
          (by omega)) ⟨fat, drive⟩ j
        have hmore' : (listScan maxEntries).more filled = true := by simpa [listScan] using hmore
        rw [if_pos hmore, if_pos hmore', hfill]
        by_cases hend : (dirEntry fat.sectorBuffer j).IsEnd
        · rw [if_pos hend, if_pos hend]
        · rw [if_neg hend, if_neg hend]
          by_cases hvisible : (dirEntry fat.sectorBuffer j).Visible
          · have hnext := ih (filled ++ [(dirEntry fat.sectorBuffer j).info])
            rw [List.length_append, List.length_singleton] at hnext
            rw [if_pos hvisible, if_pos hvisible]
            exact hnext
          · rw [if_neg hvisible, if_neg hvisible]
            exact ih filled
      · simp [listScan, hmore]

theorem sectorsTo_apart (sector rounds i : Nat) (filled : List DirInfo) (fat : Fat32)
    (hrounds : fat.fs.sectorsPerCluster.toNat ≤ i + rounds) :
    sectorsTo st drives entries maxEntries sector rounds i filled.length ⟨fat, drive⟩ =
      (((listScan maxEntries).sectors (drives drive)
          ((List.range' i (fat.fs.sectorsPerCluster.toNat - i)).map fun i => (sector + i) % 2 ^ 32)
          fat filled).1,
        ((listScan maxEntries).sectors (drives drive)
          ((List.range' i (fat.fs.sectorsPerCluster.toNat - i)).map fun i => (sector + i) % 2 ^ 32)
          fat filled).2.1.length,
        ⟨((listScan maxEntries).sectors (drives drive)
          ((List.range' i (fat.fs.sectorsPerCluster.toNat - i)).map fun i => (sector + i) % 2 ^ 32)
          fat filled).2.2, drive⟩) := by
  induction rounds generalizing i filled fat with
  | zero =>
      rw [Nat.sub_eq_zero_of_le (by omega)]
      rfl
  | succ rounds ih =>
      have hread := ideRead_sameFile (drives drive) fat ((sector + i) % 2 ^ 32)
      rw [sectorsTo]
      by_cases hmore : i < fat.fs.sectorsPerCluster.toNat
      · obtain ⟨rest, hrest⟩ : ∃ rest, fat.fs.sectorsPerCluster.toNat - i = rest + 1 :=
          ⟨fat.fs.sectorsPerCluster.toNat - i - 1, by omega⟩
        rw [if_pos hmore, hrest, List.range'_succ, List.map_cons, Scan.sectors]
        rcases hsector : ideRead (drives drive) fat ((sector + i) % 2 ^ 32) with ⟨ok, next⟩
        rw [hsector] at hread
        have hfs : next.fs = fat.fs := hread.fs
        cases ok with
        | false => rfl
        | true =>
            dsimp only
            rw [slotsTo_apart drive hapart, ← dirEntries]
            rcases (listScan maxEntries).entries (dirEntries next.sectorBuffer) filled with
              ⟨stop, filled'⟩
            cases stop with
            | true => rfl
            | false =>
                have hlater := ih (i + 1) filled' next (by rw [hfs]; omega)
                have hcount : next.fs.sectorsPerCluster.toNat - (i + 1) = rest := by
                  rw [hfs]
                  omega
                rw [hcount] at hlater
                exact hlater
      · rw [if_neg hmore, Nat.sub_eq_zero_of_le (by omega)]
        rfl

theorem chainTo_apart (clusters cluster : Nat) (filled : List DirInfo) (fat : Fat32) :
    chainTo st drives entries maxEntries clusters cluster filled.length ⟨fat, drive⟩ =
      (((listScan maxEntries).chain (drives drive) clusters cluster fat filled).1,
        ((listScan maxEntries).chain (drives drive) clusters cluster fat filled).2.1.length,
        ⟨((listScan maxEntries).chain (drives drive) clusters cluster fat filled).2.2, drive⟩) := by
  induction clusters generalizing cluster filled fat with
  | zero => rfl
  | succ clusters ih =>
      have hbyte := fat.fs.sectorsPerCluster.toNat_lt
      have hsectors := sectorsTo_apart drives drive hapart
        (fat32ClusterToSector fat.fs cluster) 256 0 filled fat (by omega)
      have hlist : (List.range fat.fs.sectorsPerCluster.toNat).map (fun i =>
          (fat32ClusterToSector fat.fs cluster + i) % 2 ^ 32) = clusterSectors fat.fs cluster := rfl
      rw [Nat.sub_zero, ← List.range_eq_range', hlist] at hsectors
      rw [chainTo, Scan.chain]
      by_cases hmore : cluster < clusterEoc ∧ filled.length < maxEntries
      · rw [if_pos hmore, if_pos (by simpa [listScan] using hmore), hsectors]
        rcases (listScan maxEntries).sectors (drives drive) (clusterSectors fat.fs cluster) fat
          filled with ⟨status, filled', next⟩
        cases status with
        | some status => rfl
        | none => exact ih _ filled' _
      · rw [if_neg hmore, if_neg (by simpa [listScan] using hmore)]

end Listing

theorem fat32ListDirTo_apart (clusters : Nat) (fat : Fat32) (entries : UInt32) (maxEntries : Int)
    (hapart : st.Apart entries (24 * maxEntries.toNat)) :
    fat32ListDirTo st drives clusters ⟨fat, drive⟩ entries maxEntries =
      ((fat32ListDir (drives drive) clusters fat (entries ≠ 0) maxEntries).1.ret,
        ⟨(fat32ListDir (drives drive) clusters fat (entries ≠ 0) maxEntries).2, drive⟩) := by
  have hchain := chainTo_apart drives drive hapart clusters
    fat.fs.rootDirCluster.toNat [] fat
  rw [List.length_nil] at hchain
  unfold fat32ListDirTo fat32ListDir
  simp only [decide_eq_false_iff_not, not_not]
  split
  · rfl
  · rw [hchain]
    rcases (listScan maxEntries.toNat).chain (drives drive) clusters fat.fs.rootDirCluster.toNat fat
      [] with ⟨status, filled, next⟩
    cases status <;> rfl

end Apart

/-- A call with the buffer it is given. -/
inductive PlacedCall where
  | listRoot
  | listDir (entries : UInt32) (maxEntries : Int)
  | openFile (filename : List UInt8)
  | read (buffer size : UInt32)
  | close

def PlacedCall.withoutBuffer : PlacedCall → DriverCall
  | .listRoot => .listRoot
  | .listDir entries maxEntries => .listDir (entries ≠ 0) maxEntries
  | .openFile filename => .openFile filename
  | .read _ size => .read size
  | .close => .close

structure PlacedState where
  driver : PlacedDriver
  handed : Bool

def PlacedState.withoutAddresses (d : PlacedState) : DriverState := ⟨d.driver.fat, d.handed⟩

/-- Calls that return, as in `driverStep`. -/
def placedStep (st : DriverStatics) (drives : UInt8 → Device) (d : PlacedState) :
    PlacedCall → PlacedState → Prop
  | .listRoot, d' => ∃ clusters,
      (fat32ListRoot (drives d.driver.drive) clusters d.driver.fat).1.ret ≠ none ∧
        d' = { d with driver := { d.driver with
          fat := (fat32ListRoot (drives d.driver.drive) clusters d.driver.fat).2 } }
  | .listDir entries maxEntries, d' => ∃ clusters,
      (fat32ListDirTo st drives clusters d.driver entries maxEntries).1 ≠ none ∧
        d' = { d with driver := (fat32ListDirTo st drives clusters d.driver entries maxEntries).2 }
  | .openFile filename, d' => ∃ clusters found,
      fat32Open (drives d.driver.drive) clusters d.driver.fat filename =
        (some found, d'.driver.fat) ∧
      d'.driver.drive = d.driver.drive ∧ d'.handed = (d.handed || found)
  | .read buffer size, d' => d.handed = true ∧
      (fat32ReadTo st drives d.driver buffer size.toNat).1 ≠ none ∧
        d' = { d with driver := (fat32ReadTo st drives d.driver buffer size.toNat).2 }
  | .close, d' => d.handed = true ∧
      d' = { d with driver := { d.driver with fat := fat32Close d.driver.fat } }

/-- What the call may store to is apart from the statics: the bytes that a read sets out to
deliver, the entries that a listing may fill in. -/
def CallApart (st : DriverStatics) (d : PlacedState) : PlacedCall → Prop
  | .listDir entries maxEntries => st.Apart entries (24 * maxEntries.toNat)
  | .read buffer size => st.Apart buffer (bytesToRead d.driver.fat.file size.toNat)
  | _ => True

section Runs

variable {st : DriverStatics} {drives : UInt8 → Device} {d d' : PlacedState}

theorem placedStep_apart {call : PlacedCall} (hapart : CallApart st d call)
    (hstep : placedStep st drives d call d') :
    d'.driver.drive = d.driver.drive ∧
      driverStep (drives d.driver.drive) d.withoutAddresses call.withoutBuffer
        d'.withoutAddresses := by
  cases call with
  | listRoot =>
      obtain ⟨clusters, hret, rfl⟩ := hstep
      exact ⟨rfl, clusters, hret, rfl⟩
  | listDir entries maxEntries =>
      obtain ⟨clusters, hret, rfl⟩ := hstep
      have heq := fat32ListDirTo_apart drives d.driver.drive clusters d.driver.fat entries
        maxEntries hapart
      rw [heq] at hret ⊢
      exact ⟨rfl, clusters, hret, rfl⟩
  | openFile filename =>
      obtain ⟨clusters, found, hopen, hdrive, hhanded⟩ := hstep
      exact ⟨hdrive, clusters, found, hopen, hhanded⟩
  | read buffer size =>
      obtain ⟨hhanded, -, rfl⟩ := hstep
      have heq := fat32ReadTo_apart drives d.driver.drive d.driver.fat buffer size.toNat hapart
      rw [heq]
      exact ⟨rfl, hhanded, rfl⟩
  | close =>
      obtain ⟨hhanded, rfl⟩ := hstep
      exact ⟨rfl, hhanded, rfl⟩

/-- Runs whose buffers are apart from the statics are runs of the driver without addresses. -/
theorem placedRun_apart {drive : UInt8} {s₀ : Fat32} {calls : List PlacedCall}
    (hrun : Run (guarded (CallApart st) (placedStep st drives)) ⟨⟨s₀, drive⟩, false⟩ calls d) :
    Run (driverStep (drives drive)) ⟨s₀, false⟩ (calls.map PlacedCall.withoutBuffer)
      d.withoutAddresses := by
  have hdrive : ∀ d call d', d.driver.drive = drive →
      guarded (CallApart st) (placedStep st drives) d call d' → d'.driver.drive = drive :=
    fun _ _ _ hd hstep => (placedStep_apart hstep.1 hstep.2).1.trans hd
  have hstep : ∀ d call d', d.driver.drive = drive →
      guarded (CallApart st) (placedStep st drives) d call d' →
      driverStep (drives drive) d.withoutAddresses call.withoutBuffer d'.withoutAddresses := by
    rintro d call d' rfl hlast
    exact (placedStep_apart hlast.1 hlast.2).2
  exact hrun.map hdrive hstep rfl

end Runs

/-- After `fat32_init`, whatever the boot sector says, no read with a handle that `fat32_open` has
returned divides by zero, in a run of calls whose buffers are apart from the driver's statics. -/
theorem driverRun_noDivisionByZero (st : DriverStatics) (drives : UInt8 → Device) (drive : UInt8)
    (s₀ : Fat32) : (fat32Init (drives drive) s₀).1 = 0 →
      ∀ (calls : List PlacedCall) (d : PlacedState),
        Run (guarded (CallApart st) (placedStep st drives))
          ⟨⟨(fat32Init (drives drive) s₀).2, drive⟩, false⟩ calls d → d.handed = true →
        ∀ buffer size : UInt32, CallApart st d (.read buffer size) →
          (fat32ReadTo st drives d.driver buffer size.toNat).1 ≠ none := by
  intro _ calls d hrun hhanded buffer size hapart
  have hcsz : clusterSize d.driver.fat.fs ≠ 0 :=
    mt clusterSize_eq_zero.mp (driverRun_hasSectors (placedRun_apart hrun) hhanded)
  rw [fat32ReadTo_apart drives d.driver.drive d.driver.fat buffer size.toNat hapart, fat32Read]
  split
  · simp
  · simp [readLoop_fault _ _ _ hcsz]

def sampleStatics : DriverStatics := ⟨0x5000, 0x6000, 0x7000⟩

/-- The driver when it has listed the root directory of the sample volume. -/
def sampleListed : PlacedDriver :=
  (fat32ListDirTo sampleStatics (fun _ => sampleDrive) 1
    ⟨(fat32Init sampleDrive blankFat32).2, 0⟩ 0x200000 2).2

theorem driverRun_noDivisionByZero_sample :
    (fat32Init sampleDrive blankFat32).1 = 0 ∧ (fat32ReadTo sampleStatics (fun _ => sampleDrive)
      ⟨(fat32Open sampleDrive 1 sampleListed.fat [0x41]).2, 0⟩ 0x200000 100).1 ≠ none := by
  have hinit : (fat32Init sampleDrive blankFat32).1 = 0 := by rw [fat32Init_sampleDrive]
  have hlist : (fat32ListDirTo sampleStatics (fun _ => sampleDrive) 1
      ⟨(fat32Init sampleDrive blankFat32).2, 0⟩ 0x200000 2).1 = some 1 := by
    rw [fat32Init_sampleDrive]
    decide
  have hopen : (fat32Open sampleDrive 1 sampleListed.fat [0x41]).1 = some true := by
    rw [sampleListed, fat32Init_sampleDrive]
    decide
  have hfile : (fat32Open sampleDrive 1 sampleListed.fat [0x41]).2.file =
      ⟨3, 3, 1, 0, 0x20, true⟩ := by
    rw [sampleListed, fat32Init_sampleDrive]
    decide
  have hdrive : sampleListed.drive = 0 := by
    rw [sampleListed, fat32Init_sampleDrive]
    decide
  have hlisted : placedStep sampleStatics (fun _ => sampleDrive)
      ⟨⟨(fat32Init sampleDrive blankFat32).2, 0⟩, false⟩ (.listDir 0x200000 2)
      ⟨sampleListed, false⟩ := ⟨1, by rw [hlist]; simp, rfl⟩
  have hopened : placedStep sampleStatics (fun _ => sampleDrive) ⟨sampleListed, false⟩
      (.openFile [0x41]) ⟨⟨(fat32Open sampleDrive 1 sampleListed.fat [0x41]).2, 0⟩, true⟩ :=
    ⟨1, true, Prod.ext hopen rfl, hdrive.symm, rfl⟩
  have hentries : CallApart sampleStatics
      ⟨⟨(fat32Init sampleDrive blankFat32).2, 0⟩, false⟩ (.listDir 0x200000 2) := by
    show sampleStatics.Apart 0x200000 48
    decide
  have hbuffer : CallApart sampleStatics
      ⟨⟨(fat32Open sampleDrive 1 sampleListed.fat [0x41]).2, 0⟩, true⟩ (.read 0x200000 100) := by
    show sampleStatics.Apart 0x200000 (bytesToRead (fat32Open _ 1 _ _).2.file 100)
    rw [hfile]
    decide
  have hrun : Run (guarded (CallApart sampleStatics) (placedStep sampleStatics fun _ => sampleDrive))
      ⟨⟨(fat32Init sampleDrive blankFat32).2, 0⟩, false⟩ [.listDir 0x200000 2, .openFile [0x41]]
      ⟨⟨(fat32Open sampleDrive 1 sampleListed.fat [0x41]).2, 0⟩, true⟩ :=
    .snoc (.snoc (.nil _) ⟨hentries, hlisted⟩) ⟨trivial, hopened⟩
  exact ⟨hinit, driverRun_noDivisionByZero sampleStatics (fun _ => sampleDrive) 0 blankFat32 hinit
    _ _ hrun rfl 0x200000 100 hbuffer⟩

/-- The sample volume with a file of two zero bytes. -/
def zeroVolume (lba : Nat) : Sector := fun i =>
  if lba = 2 ∧ i = 28 then 2 else if lba = 3 then 0 else sampleVolume lba i

def zeroDrive : Device := fun _ lba => some (zeroVolume lba)

/-- The first byte of the file is read to `fs.bpb.sectors_per_cluster`, and the second read divides
by zero. -/
theorem driverRun_divides :
    ¬ ∀ (st : DriverStatics) (drives : UInt8 → Device) (drive : UInt8) (s₀ : Fat32),
      (fat32Init (drives drive) s₀).1 = 0 → ∀ (calls : List PlacedCall) (d : PlacedState),
        Run (placedStep st drives) ⟨⟨(fat32Init (drives drive) s₀).2, drive⟩, false⟩ calls d →
        d.handed = true → ∀ buffer size : UInt32,
          (fat32ReadTo st drives d.driver buffer size.toNat).1 ≠ none := by
  intro hclaim
  have hinit : fat32Init zeroDrive blankFat32 = (0, { blankFat32 with
      fs := ⟨1, 1, 2, 2, true⟩, sectorBuffer := sampleBootSector, time := 1 }) :=
    fat32Init_sample (show zeroDrive.Serves zeroVolume from fun _ _ => rfl) rfl blankFat32
  have hopen : (fat32Open zeroDrive 1 (fat32Init zeroDrive blankFat32).2 [0x41]).1 =
      some true := by
    rw [hinit]
    decide
  have hfirst : (fat32ReadTo sampleStatics (fun _ => zeroDrive)
      ⟨(fat32Open zeroDrive 1 (fat32Init zeroDrive blankFat32).2 [0x41]).2, 0⟩ 0x500E 1).1 =
        some 1 := by
    rw [hinit]
    decide
  have hsecond : (fat32ReadTo sampleStatics (fun _ => zeroDrive)
      (fat32ReadTo sampleStatics (fun _ => zeroDrive)
        ⟨(fat32Open zeroDrive 1 (fat32Init zeroDrive blankFat32).2 [0x41]).2, 0⟩ 0x500E 1).2
      0x200000 1).1 = none := by
    rw [hinit]
    decide
  have hopened : placedStep sampleStatics (fun _ => zeroDrive)
      ⟨⟨(fat32Init zeroDrive blankFat32).2, 0⟩, false⟩ (.openFile [0x41])
      ⟨⟨(fat32Open zeroDrive 1 (fat32Init zeroDrive blankFat32).2 [0x41]).2, 0⟩, true⟩ :=
    ⟨1, true, Prod.ext hopen rfl, rfl, rfl⟩
  have hread : placedStep sampleStatics (fun _ => zeroDrive)
      ⟨⟨(fat32Open zeroDrive 1 (fat32Init zeroDrive blankFat32).2 [0x41]).2, 0⟩, true⟩
      (.read 0x500E 1) _ := ⟨rfl, by rw [show (1 : UInt32).toNat = 1 from rfl, hfirst]; simp, rfl⟩
  exact hclaim sampleStatics (fun _ => zeroDrive) 0 blankFat32 (by rw [hinit]) _ _
    (.snoc (.snoc (.nil _) hopened) hread) rfl 0x200000 1 hsecond

end Magnos
