import Magnos.Fat32.Handles
import Magnos.Fat32.Termination

/-!
# The sectors a call asks for

Every call of the driver with the sector reads it makes, in their order, and with the cluster whose
data a read is for.  A log is as long as the call's reads are many, and a drive that answers the
requests of the log alike gives the call the same result.
-/

namespace Magnos

open Framework

/-- A sector read, of the FAT or of the data of a cluster. -/
inductive DriveRequest where
  | fat (lba : Nat)
  | data (cluster lba : Nat)
deriving DecidableEq

def DriveRequest.lba : DriveRequest → Nat
  | .fat lba => lba
  | .data _ lba => lba

variable {Acc : Type}

def nextClusterLog (fs : Volume) (cluster : Nat) : List DriveRequest :=
  if cluster < 2 ∨ cluster ≥ clusterReserved then [] else [.fat (fatSector fs cluster)]

def Scan.sectorsLog (scan : Scan Acc) (dev : Device) (cluster : Nat) :
    List Nat → Fat32 → Acc → List DriveRequest
  | [], _, _ => []
  | lba :: lbas, s, acc => .data cluster lba ::
      match ideRead dev s lba with
      | (false, _) => []
      | (true, s) =>
          match scan.entries (dirEntries s.sectorBuffer) acc with
          | (true, _) => []
          | (false, acc) => scan.sectorsLog dev cluster lbas s acc

def Scan.chainLog (scan : Scan Acc) (dev : Device) :
    (clusters cluster : Nat) → Fat32 → Acc → List DriveRequest
  | 0, _, _, _ => []
  | clusters + 1, cluster, s, acc =>
      if cluster < clusterEoc ∧ scan.more acc then
        scan.sectorsLog dev cluster (clusterSectors s.fs cluster) s acc ++
          match scan.sectors dev (clusterSectors s.fs cluster) s acc with
          | (some _, _, _) => []
          | (none, acc, s) =>
              nextClusterLog s.fs cluster ++
                scan.chainLog dev clusters (fat32GetNextCluster dev s cluster).1
                  (fat32GetNextCluster dev s cluster).2 acc
      else []

def advanceLog (s : Fat32) (n : Nat) : List DriveRequest :=
  if (UInt32.ofNat (s.file.position.toNat + n)).toNat % clusterSize s.fs = 0 then
    nextClusterLog s.fs s.file.currentCluster.toNat
  else []

def readLog (dev : Device) : (rounds : Nat) → Fat32 → Nat → List DriveRequest
  | 0, _, _ => []
  | rounds + 1, s, left =>
      if left > 0 ∧ s.file.currentCluster.toNat < clusterEoc then
        if clusterSize s.fs = 0 then []
        else .data s.file.currentCluster.toNat (positionSector s) ::
          match ideRead dev s (positionSector s) with
          | (false, _) => []
          | (true, s) =>
              let n := bytesInSector (clusterSize s.fs) s.file.position.toNat left
              advanceLog s n ++ readLog dev rounds (advance dev s n) (left - n)
      else []

/-- The reads of a call. -/
def callLog (dev : Device) (clusters : Nat) (s : Fat32) : DriverCall → List DriveRequest
  | .listRoot =>
      if s.fs.initialized = false then []
      else rootScan.chainLog dev clusters s.fs.rootDirCluster.toNat s []
  | .listDir present maxEntries =>
      if s.fs.initialized = false ∨ present = false ∨ maxEntries ≤ 0 then []
      else (listScan maxEntries.toNat).chainLog dev clusters s.fs.rootDirCluster.toNat s []
  | .openFile filename =>
      if s.fs.initialized = false then []
      else (openScan (fat32StringToName filename)).chainLog dev clusters s.fs.rootDirCluster.toNat s
        none
  | .read size =>
      if s.file.valid = false ∨ s.fs.initialized = false then []
      else readLog dev (bytesToRead s.file size.toNat) s (bytesToRead s.file size.toNat)
  | .close => []

section Replay

variable {dev dev' : Device}

/-- The second drive answers the requests of a log as the first one does; the first request is the
`time`-th read of the run. -/
def Device.AgreesOn (dev dev' : Device) : (time : Nat) → List DriveRequest → Prop
  | _, [] => True
  | time, r :: log => dev' time r.lba = dev time r.lba ∧ AgreesOn dev dev' (time + 1) log

theorem Device.agreesOn_append (time : Nat) (log log' : List DriveRequest) :
    dev.AgreesOn dev' time (log ++ log') ↔
      dev.AgreesOn dev' time log ∧ dev.AgreesOn dev' (time + log.length) log' := by
  induction log generalizing time with
  | nil => simp [Device.AgreesOn]
  | cons r log ih =>
      rw [List.cons_append, Device.AgreesOn, Device.AgreesOn, ih, and_assoc, List.length_cons,
        Nat.add_assoc, Nat.add_comm 1]

theorem ideRead_time (dev : Device) (s : Fat32) (lba : Nat) :
    (ideRead dev s lba).2.time = s.time + 1 := by
  unfold ideRead
  split <;> rfl

theorem ideRead_replay {s : Fat32} (lba : Nat) (hagree : dev' s.time lba = dev s.time lba) :
    ideRead dev' s lba = ideRead dev s lba := by
  rw [ideRead, ideRead, hagree]

theorem nextClusterLog_time (dev : Device) (s : Fat32) (cluster : Nat) :
    (fat32GetNextCluster dev s cluster).2.time =
      s.time + (nextClusterLog s.fs cluster).length := by
  have htime := ideRead_time dev s (fatSector s.fs cluster)
  unfold fat32GetNextCluster nextClusterLog
  split
  · rfl
  · split <;> next heq => rw [heq] at htime; exact htime

theorem nextClusterLog_replay {s : Fat32} {cluster : Nat}
    (hagree : dev.AgreesOn dev' s.time (nextClusterLog s.fs cluster)) :
    fat32GetNextCluster dev' s cluster = fat32GetNextCluster dev s cluster := by
  unfold nextClusterLog at hagree
  unfold fat32GetNextCluster
  split
  · rfl
  · next hvalid =>
      rw [if_neg hvalid] at hagree
      rw [ideRead_replay (fatSector s.fs cluster) hagree.1]

section Scans

variable (scan : Scan Acc)

theorem Scan.sectorsLog_time (dev : Device) (cluster : Nat) (lbas : List Nat) (s : Fat32)
    (acc : Acc) : (scan.sectors dev lbas s acc).2.2.time =
      s.time + (scan.sectorsLog dev cluster lbas s acc).length := by
  induction lbas generalizing s acc with
  | nil => rfl
  | cons lba lbas ih =>
      have htime := ideRead_time dev s lba
      rw [Scan.sectors, Scan.sectorsLog, List.length_cons]
      rcases hread : ideRead dev s lba with ⟨ok, t⟩
      rw [hread] at htime
      cases ok with
      | false => exact htime
      | true =>
          rcases hentries : scan.entries (dirEntries t.sectorBuffer) acc with ⟨stop, acc'⟩
          cases stop with
          | true =>
              simp only [hentries, List.length_nil]
              exact htime
          | false =>
              simp only [hentries, ih]
              rw [htime]
              omega

theorem Scan.sectorsLog_replay {cluster : Nat} {lbas : List Nat} {s : Fat32} {acc : Acc}
    (hagree : dev.AgreesOn dev' s.time (scan.sectorsLog dev cluster lbas s acc)) :
    scan.sectors dev' lbas s acc = scan.sectors dev lbas s acc := by
  induction lbas generalizing s acc with
  | nil => rfl
  | cons lba lbas ih =>
      have htime := ideRead_time dev s lba
      rw [Scan.sectorsLog] at hagree
      obtain ⟨hfirst, hrest⟩ := hagree
      rw [Scan.sectors, Scan.sectors, ideRead_replay lba hfirst]
      rcases hread : ideRead dev s lba with ⟨ok, t⟩
      rw [hread] at htime hrest
      cases ok with
      | false => rfl
      | true =>
          rcases hentries : scan.entries (dirEntries t.sectorBuffer) acc with ⟨stop, acc'⟩
          cases stop with
          | true => simp only [hentries]
          | false =>
              simp only [hentries] at hrest ⊢
              apply ih
              rw [htime]
              exact hrest

theorem Scan.chainLog_time (dev : Device) (clusters cluster : Nat) (s : Fat32) (acc : Acc) :
    (scan.chain dev clusters cluster s acc).2.2.time =
      s.time + (scan.chainLog dev clusters cluster s acc).length := by
  induction clusters generalizing cluster s acc with
  | zero => rfl
  | succ clusters ih =>
      have htime := scan.sectorsLog_time dev cluster (clusterSectors s.fs cluster) s acc
      rw [Scan.chain, Scan.chainLog]
      split
      · rcases hsectors : scan.sectors dev (clusterSectors s.fs cluster) s acc with ⟨status, acc', t⟩
        rw [hsectors] at htime
        rw [List.length_append]
        cases status with
        | some status => exact htime
        | none =>
            simp only [ih, List.length_append]
            rw [nextClusterLog_time, htime]
            omega
      · rfl

theorem Scan.chainLog_replay {clusters cluster : Nat} {s : Fat32} {acc : Acc}
    (hagree : dev.AgreesOn dev' s.time (scan.chainLog dev clusters cluster s acc)) :
    scan.chain dev' clusters cluster s acc = scan.chain dev clusters cluster s acc := by
  induction clusters generalizing cluster s acc with
  | zero => rfl
  | succ clusters ih =>
      have htime := scan.sectorsLog_time dev cluster (clusterSectors s.fs cluster) s acc
      rw [Scan.chainLog] at hagree
      rw [Scan.chain, Scan.chain]
      split
      · next hgo =>
          rw [if_pos hgo, Device.agreesOn_append] at hagree
          rw [scan.sectorsLog_replay hagree.1]
          rcases hsectors : scan.sectors dev (clusterSectors s.fs cluster) s acc with
            ⟨status, acc', t⟩
          rw [hsectors] at htime hagree
          cases status with
          | some status => rfl
          | none =>
              have hrest := hagree.2
              dsimp only at htime hrest ⊢
              rw [← htime, Device.agreesOn_append, ← nextClusterLog_time dev] at hrest
              rw [nextClusterLog_replay hrest.1]
              exact ih hrest.2
      · rfl

end Scans

theorem advanceLog_time (dev : Device) (s : Fat32) (n : Nat) :
    (advance dev s n).time = s.time + (advanceLog s n).length := by
  have htime := nextClusterLog_time dev
    { s with file := { s.file with position := .ofNat (s.file.position.toNat + n) } }
    s.file.currentCluster.toNat
  unfold advance advanceLog
  dsimp only
  split
  · exact htime
  · rfl

section Calls

variable (dev : Device) (clusters : Nat) (s : Fat32)

theorem fat32ListRoot_callLog :
    (fat32ListRoot dev clusters s).2.time = s.time + (callLog dev clusters s .listRoot).length ∧
      ∀ dev', dev.AgreesOn dev' s.time (callLog dev clusters s .listRoot) →
        fat32ListRoot dev' clusters s = fat32ListRoot dev clusters s := by
  have htime := rootScan.chainLog_time dev clusters s.fs.rootDirCluster.toNat s []
  unfold fat32ListRoot callLog
  dsimp only
  split
  · exact ⟨rfl, fun _ _ => rfl⟩
  · refine ⟨?_, fun dev' hagree => by rw [rootScan.chainLog_replay hagree]⟩
    rw [← htime]
    split <;> next heq => rw [heq]

theorem fat32ListDir_callLog (present : Bool) (maxEntries : Int) :
    (fat32ListDir dev clusters s present maxEntries).2.time =
        s.time + (callLog dev clusters s (.listDir present maxEntries)).length ∧
      ∀ dev', dev.AgreesOn dev' s.time (callLog dev clusters s (.listDir present maxEntries)) →
        fat32ListDir dev' clusters s present maxEntries =
          fat32ListDir dev clusters s present maxEntries := by
  have htime := (listScan maxEntries.toNat).chainLog_time dev clusters s.fs.rootDirCluster.toNat s []
  unfold fat32ListDir callLog
  dsimp only
  split
  · exact ⟨rfl, fun _ _ => rfl⟩
  · refine ⟨?_, fun dev' hagree => by rw [Scan.chainLog_replay _ hagree]⟩
    rw [← htime]
    split <;> next heq => rw [heq]

theorem fat32Open_callLog (filename : List UInt8) :
    (fat32Open dev clusters s filename).2.time =
        s.time + (callLog dev clusters s (.openFile filename)).length ∧
      ∀ dev', dev.AgreesOn dev' s.time (callLog dev clusters s (.openFile filename)) →
        fat32Open dev' clusters s filename = fat32Open dev clusters s filename := by
  have htime := (openScan (fat32StringToName filename)).chainLog_time dev clusters
    s.fs.rootDirCluster.toNat s none
  unfold fat32Open callLog
  dsimp only
  split
  · exact ⟨rfl, fun _ _ => rfl⟩
  · refine ⟨?_, fun dev' hagree => by rw [Scan.chainLog_replay _ hagree]⟩
    rw [← htime]
    split <;> next heq => rw [heq]

end Calls

end Replay

end Magnos
