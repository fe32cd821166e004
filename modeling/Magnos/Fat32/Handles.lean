import Magnos.Framework.Transition
import Magnos.Fat32.Session

/-!
# Runs of file system calls

After `fat32_init` the driver is called in any order; `fat32_read` and `fat32_close` get the handle
that `fat32_open` has returned.  A volume of empty clusters never hands one out.  The end-of-file
test of a read is a 32-bit sum: while it does not wrap around, no read leaves the file.  The
buffers that the calls store to are apart from the driver's own statics here.
-/

namespace Magnos

open Framework

/-- The driver, and whether `fat32_open` has returned a handle. -/
structure DriverState where
  fat : Fat32
  handed : Bool

/-- A call without the buffer that it stores to. -/
inductive DriverCall where
  | listRoot
  | listDir (present : Bool) (maxEntries : Int)
  | openFile (filename : List UInt8)
  | read (size : UInt32)
  | close

/-- Calls that return.  A handle is used only after one was handed out. -/
def driverStep (dev : Device) (d : DriverState) : DriverCall → DriverState → Prop
  | .listRoot, d' => ∃ clusters, (fat32ListRoot dev clusters d.fat).1.ret ≠ none ∧
      d' = { d with fat := (fat32ListRoot dev clusters d.fat).2 }
  | .listDir present maxEntries, d' => ∃ clusters,
      (fat32ListDir dev clusters d.fat present maxEntries).1.ret ≠ none ∧
        d' = { d with fat := (fat32ListDir dev clusters d.fat present maxEntries).2 }
  | .openFile filename, d' => ∃ clusters found,
      fat32Open dev clusters d.fat filename = (some found, d'.fat) ∧ d'.handed = (d.handed || found)
  | .read size, d' => d.handed = true ∧ d' = { d with fat := (fat32Read dev d.fat size.toNat).2 }
  | .close, d' => d.handed = true ∧ d' = { d with fat := fat32Close d.fat }

variable {dev : Device}

section EmptyClusters

variable {Acc : Type}

theorem Scan.chain_emptyClusters (scan : Scan Acc) (dev : Device) (clusters cluster : Nat)
    (s : Fat32) (acc : Acc) (hempty : s.fs.sectorsPerCluster = 0) :
    (scan.chain dev clusters cluster s acc).2.1 = acc := by
  induction clusters generalizing cluster s with
  | zero => rfl
  | succ clusters ih =>
      have hsectors : clusterSectors s.fs cluster = [] := by simp [clusterSectors, hempty]
      have hsame := fat32GetNextCluster_sameFile dev s cluster
      rw [Scan.chain]
      split
      · rw [hsectors]
        exact ih _ (fat32GetNextCluster dev s cluster).2 (by rw [hsame.fs]; exact hempty)
      · rfl

theorem fat32Open_sectorsPerCluster {clusters : Nat} {s t : Fat32} {filename : List UInt8}
    (hopen : fat32Open dev clusters s filename = (some true, t)) :
    s.fs.sectorsPerCluster ≠ 0 := by
  intro hempty
  have hnone := (openScan (fat32StringToName filename)).chain_emptyClusters dev clusters
    s.fs.rootDirCluster.toNat s none hempty
  unfold fat32Open at hopen
  split at hopen
  · simp at hopen
  · split at hopen
    · simp at hopen
    · simp at hopen
    · next heq =>
        rw [heq] at hnone
        cases hnone

end EmptyClusters

section Loop

theorem readLoop_fault (rounds : Nat) (s : Fat32) (left : Nat) (hcsz : clusterSize s.fs ≠ 0) :
    (readLoop dev rounds s left).2.1 = false := by
  induction rounds generalizing s left with
  | zero => rfl
  | succ rounds ih =>
      have hread := ideRead_sameFile dev s (positionSector s)
      rw [readLoop, if_neg hcsz]
      split
      · split
        · rfl
        · next t heq =>
            rw [heq] at hread
            apply ih
            rw [(advance_sameOpen dev t _).fs, hread.fs]
            exact hcsz
      · rfl

theorem advance_position (s : Fat32) (n : Nat) :
    (advance dev s n).file.position = .ofNat (s.file.position.toNat + n) := by
  unfold advance
  dsimp only
  split
  · exact congrArg FileHandle.position (fat32GetNextCluster_sameFile dev
      { s with file := { s.file with position := .ofNat (s.file.position.toNat + n) } }
      s.file.currentCluster.toNat).file
  · rfl

theorem readLoop_position (rounds : Nat) (s : Fat32) (left : Nat) :
    (readLoop dev rounds s left).2.2.file.position.toNat =
      (s.file.position.toNat + (readLoop dev rounds s left).1.length) % 2 ^ 32 := by
  have hstay : s.file.position.toNat = (s.file.position.toNat + 0) % 2 ^ 32 :=
    (Nat.mod_eq_of_lt s.file.position.toNat_lt).symm
  induction rounds generalizing s left with
  | zero => exact hstay
  | succ rounds ih =>
      have hread := ideRead_sameFile dev s (positionSector s)
      rw [readLoop]
      split
      · split
        · exact hstay
        · split
          · next t heq =>
              rw [heq] at hread
              rw [hread.file]
              exact hstay
          · next t heq =>
              rw [heq] at hread
              have hrest := ih
                (advance dev t (bytesInSector (clusterSize t.fs) t.file.position.toNat left))
                (left - bytesInSector (clusterSize t.fs) t.file.position.toNat left)
                (Nat.mod_eq_of_lt (UInt32.toNat_lt _)).symm
              rw [advance_position, UInt32.toNat_ofNat'] at hrest
              simp only [List.length_append, copyBytes, List.length_map, List.length_range]
              rw [hrest, hread.file, Nat.mod_add_mod, Nat.add_assoc]
      · exact hstay

theorem readLoop_done (rounds : Nat) (s : Fat32) (left : Nat)
    (hdone : ¬ (left > 0 ∧ s.file.currentCluster.toNat < clusterEoc)) :
    readLoop dev rounds s left = ([], false, s) := by
  cases rounds with
  | zero => rfl
  | succ rounds => rw [readLoop, if_neg hdone]

end Loop

/-- A handle has been returned only on a volume whose clusters have sectors. -/
def DriverState.HasSectors (d : DriverState) : Prop :=
  d.handed = true → d.fat.fs.sectorsPerCluster ≠ 0

/-- No step changes the volume, and a handle comes from clusters with sectors. -/
theorem driverStep_volume (d d' : DriverState) (call : DriverCall) (hstep : driverStep dev d call d') :
    d'.fat.fs = d.fat.fs ∧
      (d'.handed = true → d.handed = true ∨ d.fat.fs.sectorsPerCluster ≠ 0) := by
  cases call with
  | listRoot =>
      obtain ⟨clusters, -, rfl⟩ := hstep
      exact ⟨(fat32ListRoot_sameFile dev clusters d.fat).fs, .inl⟩
  | listDir present maxEntries =>
      obtain ⟨clusters, -, rfl⟩ := hstep
      exact ⟨(fat32ListDir_sameFile dev clusters d.fat present maxEntries).fs, .inl⟩
  | openFile filename =>
      obtain ⟨clusters, found, hopen, hhanded⟩ := hstep
      cases found with
      | true =>
          exact ⟨(fat32Open_opened hopen).1, fun _ => .inr (fat32Open_sectorsPerCluster hopen)⟩
      | false =>
          rw [Bool.or_false] at hhanded
          exact ⟨(fat32Open_notOpened hopen (by simp)).fs, fun h => .inl (hhanded ▸ h)⟩
  | read size =>
      obtain ⟨hhanded, rfl⟩ := hstep
      exact ⟨(fat32Read_sameOpen dev d.fat size.toNat).fs, .inl⟩
  | close =>
      obtain ⟨hhanded, rfl⟩ := hstep
      exact ⟨rfl, .inl⟩

theorem driverRun_hasSectors {s : Fat32} {calls : List DriverCall} {d : DriverState}
    (hrun : Run (driverStep dev) ⟨s, false⟩ calls d) : d.HasSectors := by
  refine hrun.invariant ?_ ?_
  · intro d call d' hd hstep hhanded
    obtain ⟨hfs, hsource⟩ := driverStep_volume d d' call hstep
    rw [hfs]
    exact (hsource hhanded).elim hd id
  · intro hhanded
    cases hhanded

/-- A volume with one file: the sample disk behind a boot sector. -/
def sampleVolume (lba : Nat) : Sector := if lba = 0 then sampleBootSector else sampleDisk lba

def sampleDrive : Device := fun _ lba => some (sampleVolume lba)

theorem fat32Init_sampleDrive : fat32Init sampleDrive blankFat32 =
    (0, { blankFat32 with fs := ⟨1, 1, 2, 2, true⟩, sectorBuffer := sampleBootSector, time := 1 }) :=
  fat32Init_sample (fun _ _ => rfl) rfl blankFat32

theorem driverStep_open_sample :
    driverStep sampleDrive ⟨(fat32Init sampleDrive blankFat32).2, false⟩ (.openFile [0x41])
      ⟨(fat32Open sampleDrive 1 (fat32Init sampleDrive blankFat32).2 [0x41]).2, true⟩ := by
  have hopen : (fat32Open sampleDrive 1 (fat32Init sampleDrive blankFat32).2 [0x41]).1 =
      some true := by
    rw [fat32Init_sampleDrive]
    decide
  exact ⟨1, true, Prod.ext hopen rfl, rfl⟩

/-- The sum of a position and a request does not wrap around. -/
def ReadFits (file : FileHandle) (size : Nat) : Prop :=
  file.position.toNat + size < 2 ^ 32

/-- The reads among the calls fit. -/
def CallFits (d : DriverState) : DriverCall → Prop
  | .read size => ReadFits d.fat.file size.toNat
  | _ => True

theorem bytesToRead_le_rest {file : FileHandle} (hfile : file.position.toNat ≤ file.size.toNat)
    {size : Nat} (hfits : ReadFits file size) :
    bytesToRead file size ≤ file.size.toNat - file.position.toNat := by
  have hlt := file.size.toNat_lt
  unfold bytesToRead
  rw [sub32_of_le hfile hlt, Nat.mod_eq_of_lt hfits]
  split <;> omega

theorem fat32Read_within (dev : Device) (s : Fat32)
    (hfile : s.file.position.toNat ≤ s.file.size.toNat)
    {size : Nat} (hfits : ReadFits s.file size) :
    (fat32Read dev s size).1.bytes.length ≤ s.file.size.toNat - s.file.position.toNat ∧
      (fat32Read dev s size).2.file.position.toNat ≤ (fat32Read dev s size).2.file.size.toNat := by
  have hlt := s.file.size.toNat_lt
  have hrest := bytesToRead_le_rest hfile hfits
  have hlen := fat32Read_bytes_length dev s size
  refine ⟨hlen.trans hrest, ?_⟩
  rw [(fat32Read_sameOpen dev s size).size]
  unfold fat32Read at hlen ⊢
  split
  · exact hfile
  · next hready =>
      rw [if_neg hready] at hlen
      dsimp only at hlen ⊢
      rw [readLoop_position, Nat.mod_eq_of_lt] <;> omega

/-- A handle that has been returned stands inside the file. -/
def DriverState.Within (d : DriverState) : Prop :=
  d.handed = true → d.fat.file.position.toNat ≤ d.fat.file.size.toNat

theorem driverStep_within (d d' : DriverState) (call : DriverCall) (hd : d.Within)
    (hfits : CallFits d call) (hstep : driverStep dev d call d') : d'.Within := by
  intro hhanded
  cases call with
  | listRoot =>
      obtain ⟨clusters, -, rfl⟩ := hstep
      dsimp only
      rw [(fat32ListRoot_sameFile dev clusters d.fat).file]
      exact hd hhanded
  | listDir present maxEntries =>
      obtain ⟨clusters, -, rfl⟩ := hstep
      dsimp only
      rw [(fat32ListDir_sameFile dev clusters d.fat present maxEntries).file]
      exact hd hhanded
  | openFile filename =>
      obtain ⟨clusters, found, hopen, hkept⟩ := hstep
      cases found with
      | true =>
          obtain ⟨-, -, e, hfile⟩ := fat32Open_opened hopen
          rw [hfile]
          exact Nat.zero_le _
      | false =>
          rw [Bool.or_false] at hkept
          rw [(fat32Open_notOpened hopen (by simp)).file]
          exact hd (hkept ▸ hhanded)
  | read size =>
      obtain ⟨hhandle, rfl⟩ := hstep
      exact (fat32Read_within dev d.fat (hd hhandle) hfits).2
  | close =>
      obtain ⟨hhandle, rfl⟩ := hstep
      exact hd hhandle

/-- In a run whose reads all fit, every read that fits delivers at most what it asks for and at
most what is left of the file, and leaves the position inside the file. -/
theorem driverRun_within (dev : Device) (s : Fat32) (calls : List DriverCall) (d : DriverState)
    (hrun : Run (guarded CallFits (driverStep dev)) ⟨s, false⟩ calls d) (hhanded : d.handed = true)
    (size : UInt32) (hfits : ReadFits d.fat.file size.toNat) :
    d.fat.file.position.toNat ≤ d.fat.file.size.toNat ∧
      (fat32Read dev d.fat size.toNat).1.bytes.length ≤
        d.fat.file.size.toNat - d.fat.file.position.toNat ∧
      (fat32Read dev d.fat size.toNat).1.bytes.length ≤ size.toNat ∧
      (fat32Read dev d.fat size.toNat).2.file.position.toNat ≤
        (fat32Read dev d.fat size.toNat).2.file.size.toNat := by
  have hfile : d.Within := by
    refine Run.invariant ?_ hrun ?_
    · rintro d call d' hd ⟨hcall, hstep⟩
      exact driverStep_within d d' call hd hcall hstep
    · intro hhanded
      cases hhanded
  obtain ⟨hlen, hposition⟩ := fat32Read_within dev d.fat (hfile hhanded) hfits
  exact ⟨hfile hhanded, hlen, (fat32Read_bytes_length dev d.fat size.toNat).trans
    (bytesToRead_le (hfile hhanded) size.toNat_lt), hposition⟩

theorem driverRun_within_sample :
    (fat32Read sampleDrive
      (fat32Open sampleDrive 1 (fat32Init sampleDrive blankFat32).2 [0x41]).2 100).1.bytes.length ≤
        1 := by
  have hfile : (fat32Open sampleDrive 1 (fat32Init sampleDrive blankFat32).2 [0x41]).2.file =
      ⟨3, 3, 1, 0, 0x20, true⟩ := by
    rw [fat32Init_sampleDrive]
    decide
  have hrun : Run (guarded CallFits (driverStep sampleDrive)) ⟨(fat32Init sampleDrive blankFat32).2,
      false⟩ [.openFile [0x41]] _ := .snoc (.nil _) ⟨trivial, driverStep_open_sample⟩
  have hwithin := (driverRun_within sampleDrive _ _ _ hrun rfl 100 (by
    rw [ReadFits, hfile]
    decide)).2.1
  rw [hfile] at hwithin
  exact hwithin

theorem fat32Read_past_end (s : Fat32) (hfs : s.fs = ⟨1, 1, 2, 2, true⟩)
    (hfile : s.file = ⟨3, 3, 1, 1, 0x20, true⟩) :
    (fat32Read sampleDrive s 0xFFFFFFFF).1.bytes.length = 511 ∧
      (fat32Read sampleDrive s 0xFFFFFFFF).2.file.position.toNat = 512 := by
  have hdev : sampleDrive.Serves sampleVolume := fun _ _ => rfl
  have hleft : bytesToRead s.file 0xFFFFFFFF = 0xFFFFFFFE + 1 := by
    rw [hfile]
    decide
  have hcsz : clusterSize s.fs = 512 := by
    rw [hfs]
    decide
  have hround := readLoop_round hdev 0xFFFFFFFE s (0xFFFFFFFE + 1)
    ⟨by decide, by rw [hfile]; decide⟩ (by rw [hcsz]; decide)
  have hn : bytesInSector (clusterSize s.fs) s.file.position.toNat (0xFFFFFFFE + 1) = 511 := by
    rw [hcsz, hfile]
    decide
  dsimp only at hround
  rw [hn] at hround
  have hadvance := advance_next hdev
    { s with sectorBuffer := sampleVolume (positionSector s), time := s.time + 1 } 511 (by
      rw [hcsz, hfile]
      decide)
  have hnext : nextCluster sampleVolume s.fs s.file.currentCluster.toNat = clusterEoc := by
    rw [hfs, hfile]
    decide
  have hend : (readLoop sampleDrive 0xFFFFFFFE (advance sampleDrive
      { s with sectorBuffer := sampleVolume (positionSector s), time := s.time + 1 } 511)
      (0xFFFFFFFE + 1 - 511)).1 = [] := by
    rw [readLoop_done]
    rw [hadvance]
    dsimp only
    rw [hnext]
    decide
  have hlength : (readLoop sampleDrive (0xFFFFFFFE + 1) s (0xFFFFFFFE + 1)).1.length = 511 := by
    rw [hround, List.length_append, hend, copyBytes, List.length_map, List.length_range,
      List.length_nil]
  have hready : ¬ (s.file.valid = false ∨ s.fs.initialized = false) := by
    rw [hfs, hfile]
    decide
  rw [fat32Read, if_neg hready, hleft]
  refine ⟨hlength, ?_⟩
  dsimp only
  rw [readLoop_position, hlength, hfile]
  rfl

/-- After a read of its one byte, the rest of the file's cluster is delivered as well. -/
theorem driverRun_past_end :
    ∃ d, Run (driverStep sampleDrive) ⟨(fat32Init sampleDrive blankFat32).2, false⟩
        [.openFile [0x41], .read 1] d ∧
      d.handed = true ∧ d.fat.file.size.toNat = 1 ∧ d.fat.file.position.toNat = 1 ∧
      (fat32Read sampleDrive d.fat 0xFFFFFFFF).1.bytes.length = 511 ∧
      (fat32Read sampleDrive d.fat 0xFFFFFFFF).2.file.position.toNat = 512 := by
  have hread : (fat32Read sampleDrive
      (fat32Open sampleDrive 1 (fat32Init sampleDrive blankFat32).2 [0x41]).2 1).2.file =
        ⟨3, 3, 1, 1, 0x20, true⟩ := by
    rw [fat32Init_sampleDrive]
    decide
  have hfs : (fat32Read sampleDrive
      (fat32Open sampleDrive 1 (fat32Init sampleDrive blankFat32).2 [0x41]).2 1).2.fs =
        ⟨1, 1, 2, 2, true⟩ := by
    rw [fat32Init_sampleDrive]
    decide
  refine ⟨_, .snoc (.snoc (.nil _) driverStep_open_sample) ⟨rfl, rfl⟩, rfl, ?_, ?_,
    fat32Read_past_end _ hfs hread⟩
  · exact congrArg (fun file => file.size.toNat) hread
  · exact congrArg (fun file => file.position.toNat) hread

end Magnos
