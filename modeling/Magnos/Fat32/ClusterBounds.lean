import Mathlib.Data.Nat.Count
import Magnos.Fat32.Requests

/-!
# The clusters whose data is read

The loops over a chain take every number below `clusterEoc` for a cluster.  So the numbers 0 and 1,
the reserved ones and the bad mark are read as clusters wherever a loop comes to them: in a scan that
nothing stops before, and in a read that goes on beyond the cluster that links there.
-/

namespace Magnos

open Framework

variable {Acc : Type}

/-- A drive whose contents do not change; it may fail. -/
def Device.Answers (dev : Device) (disk : Nat → Sector) : Prop :=
  ∀ time lba, dev time lba = none ∨ dev time lba = some (disk lba)

theorem Device.Serves.answers {dev : Device} {disk : Nat → Sector} (hdev : dev.Serves disk) :
    dev.Answers disk := fun time lba => .inr (hdev time lba)

/-- A number that marks no cluster and no end of a chain: free, reserved or bad. -/
def BadLink (c : Nat) : Prop := c < 2 ∨ clusterReserved ≤ c ∧ c < clusterEoc

/-- The data that is read belongs to clusters. -/
def ValidData (log : List DriveRequest) : Prop :=
  ∀ c lba, .data c lba ∈ log → 2 ≤ c ∧ c < clusterReserved

theorem BadLink.lt_end {c : Nat} (hbad : BadLink c) : c < clusterEoc := by
  unfold BadLink clusterReserved clusterEoc at *
  omega

theorem badLink_iff {c : Nat} (hc : c < clusterEoc) : BadLink c ↔ ¬ (2 ≤ c ∧ c < clusterReserved) := by
  unfold BadLink
  omega

theorem data_notMem_nextClusterLog (fs : Volume) (cluster c lba : Nat) :
    .data c lba ∉ nextClusterLog fs cluster := by
  unfold nextClusterLog
  split <;> simp

section Answers

variable {dev : Device} {disk : Nat → Sector} (hdev : dev.Answers disk)

theorem nextCluster_iterate_end (fs : Volume) (k : Nat) {cluster : Nat}
    (hend : clusterEoc ≤ cluster) : clusterEoc ≤ (nextCluster disk fs)^[k] cluster := by
  induction k generalizing cluster with
  | zero => exact hend
  | succ k ih =>
      have hnext : nextCluster disk fs cluster = clusterEoc := by
        rw [nextCluster, if_pos]
        unfold clusterEoc at hend
        unfold clusterReserved
        omega
      rw [Function.iterate_succ_apply, hnext]
      exact ih (Nat.le_refl _)

include hdev

theorem ideRead_answers {s t : Fat32} {lba : Nat} (hread : ideRead dev s lba = (true, t)) :
    t = { s with sectorBuffer := disk lba, time := s.time + 1 } := by
  unfold ideRead at hread
  rcases hdev s.time lba with hnone | hsome
  · rw [hnone] at hread
    cases hread
  · rw [hsome] at hread
    cases hread
    rfl

/-- A lookup that asks for nothing, one whose read fails and one that is answered. -/
theorem fat32GetNextCluster_cases (s : Fat32) (cluster : Nat) :
    nextClusterLog s.fs cluster = [] ∧ fat32GetNextCluster dev s cluster = (clusterEoc, s) ∧
        nextCluster disk s.fs cluster = clusterEoc ∨
      nextClusterLog s.fs cluster = [.fat (fatSector s.fs cluster)] ∧
        (dev s.time (fatSector s.fs cluster) = none ∧
          fat32GetNextCluster dev s cluster = (clusterEoc, { s with time := s.time + 1 }) ∨
        dev s.time (fatSector s.fs cluster) = some (disk (fatSector s.fs cluster)) ∧
          fat32GetNextCluster dev s cluster = (nextCluster disk s.fs cluster,
            { s with sectorBuffer := disk (fatSector s.fs cluster), time := s.time + 1 })) := by
  unfold nextClusterLog fat32GetNextCluster nextCluster
  by_cases hcluster : cluster < 2 ∨ cluster ≥ clusterReserved
  · exact .inl ⟨if_pos hcluster, if_pos hcluster, if_pos hcluster⟩
  · rw [if_neg hcluster, if_neg hcluster, if_neg hcluster, ideRead]
    refine .inr ⟨rfl, ?_⟩
    rcases hdev s.time (fatSector s.fs cluster) with hnone | hsome
    · exact .inl ⟨hnone, by rw [hnone]⟩
    · exact .inr ⟨hsome, by rw [hsome]⟩

theorem fat32GetNextCluster_answers (s : Fat32) (cluster : Nat) :
    (fat32GetNextCluster dev s cluster).1 = clusterEoc ∨
      (fat32GetNextCluster dev s cluster).1 = nextCluster disk s.fs cluster := by
  rcases fat32GetNextCluster_cases hdev s cluster with
    ⟨-, hget, -⟩ | ⟨-, ⟨-, hget⟩ | ⟨-, hget⟩⟩ <;> rw [hget]
  · exact .inl rfl
  · exact .inl rfl
  · exact .inr rfl

end Answers

section Scans

variable (scan : Scan Acc) {disk : Nat → Sector}

/-- After `k` clusters the scan goes on. -/
def Scan.Continues (disk : Nat → Sector) (fs : Volume) (k cluster : Nat) (acc : Acc) : Prop :=
  (scan.entries (reachedSlots disk fs k cluster) acc).1 = false ∧
    scan.more (scan.entries (reachedSlots disk fs k cluster) acc).2 = true

theorem Scan.continues_succ {fs : Volume} {k cluster : Nat} {acc acc' : Acc}
    (hcluster : cluster < clusterEoc)
    (hfirst : scan.entries (clusterSlots disk fs cluster) acc = (false, acc')) :
    scan.Continues disk fs (k + 1) cluster acc ↔
      scan.Continues disk fs k (nextCluster disk fs cluster) acc' := by
  rw [Scan.Continues, reachedSlots, if_pos hcluster, scan.entries_append, hfirst]
  exact Iff.rfl

theorem Scan.Continues.more {scan : Scan Acc} {fs : Volume} {k cluster : Nat} {acc : Acc}
    (hcontinues : scan.Continues disk fs k cluster acc) : scan.more acc = true := by
  cases hmore : scan.more acc with
  | true => rfl
  | false =>
      rw [Scan.Continues, scan.entries_of_not_more _ acc hmore] at hcontinues
      exact hmore.symm.trans hcontinues.2

theorem Scan.Continues.first {scan : Scan Acc} {fs : Volume} {k cluster : Nat} {acc : Acc}
    (hcontinues : scan.Continues disk fs (k + 1) cluster acc) (hcluster : cluster < clusterEoc) :
    ∃ acc', scan.entries (clusterSlots disk fs cluster) acc = (false, acc') := by
  rw [Scan.Continues, reachedSlots, if_pos hcluster, scan.entries_append] at hcontinues
  rcases hfirst : scan.entries (clusterSlots disk fs cluster) acc with ⟨stop, acc'⟩
  cases stop with
  | true =>
      rw [hfirst] at hcontinues
      exact Bool.noConfusion hcontinues.1
  | false => exact ⟨acc', rfl⟩

theorem Scan.mem_sectorsLog {dev : Device} {cluster : Nat} {lbas : List Nat} {s : Fat32} {acc : Acc}
    {r : DriveRequest} (hmem : r ∈ scan.sectorsLog dev cluster lbas s acc) :
    ∃ lba ∈ lbas, r = .data cluster lba := by
  induction lbas generalizing s acc with
  | nil => cases hmem
  | cons lba lbas ih =>
      rw [Scan.sectorsLog] at hmem
      rcases List.mem_cons.mp hmem with rfl | hmem
      · exact ⟨lba, List.mem_cons_self, rfl⟩
      · split at hmem
        · cases hmem
        · split at hmem
          · cases hmem
          · obtain ⟨lba', hlba, hr⟩ := ih hmem
            exact ⟨lba', List.mem_cons_of_mem _ hlba, hr⟩

theorem Scan.chainLog_end {dev : Device} {clusters cluster : Nat} {s : Fat32} {acc : Acc}
    (hend : clusterEoc ≤ cluster) : scan.chainLog dev clusters cluster s acc = [] := by
  cases clusters with
  | zero => rfl
  | succ clusters => rw [Scan.chainLog, if_neg (fun hgo => Nat.not_lt_of_le hend hgo.1)]

theorem Scan.sectors_cases {dev : Device} (hdev : dev.Answers disk) (lbas : List Nat) (s : Fat32)
    (acc : Acc) :
    (scan.sectors dev lbas s acc).1 = some .ioError ∨
      (scan.sectors dev lbas s acc).1 =
          (if (scan.entries (lbas.flatMap fun lba => dirEntries (disk lba)) acc).1 then some .done
            else none) ∧
        (scan.sectors dev lbas s acc).2.1 =
          (scan.entries (lbas.flatMap fun lba => dirEntries (disk lba)) acc).2 := by
  induction lbas generalizing s acc with
  | nil => exact .inr ⟨rfl, rfl⟩
  | cons lba lbas ih =>
      rw [Scan.sectors, List.flatMap_cons, scan.entries_append]
      rcases hread : ideRead dev s lba with ⟨ok, t⟩
      cases ok with
      | false => exact .inl rfl
      | true =>
          have hbuffer : t.sectorBuffer = disk lba := by rw [ideRead_answers hdev hread]
          dsimp only
          rw [hbuffer]
          rcases scan.entries (dirEntries (disk lba)) acc with ⟨stop, acc'⟩
          cases stop with
          | true => exact .inr ⟨rfl, rfl⟩
          | false => exact ih t acc'

theorem Scan.sectors_answers {dev : Device} (hdev : dev.Answers disk) {lbas : List Nat}
    {s t : Fat32} {acc acc' : Acc} (hsectors : scan.sectors dev lbas s acc = (none, acc', t)) :
    scan.entries (lbas.flatMap fun lba => dirEntries (disk lba)) acc = (false, acc') := by
  rcases scan.sectors_cases hdev lbas s acc with hfailed | ⟨hstatus, hacc⟩
  · rw [hsectors] at hfailed
    cases hfailed
  · rw [hsectors] at hstatus hacc
    exact Prod.ext (by simpa using hstatus) hacc.symm

theorem Scan.sectors_stopped {dev : Device} (hdev : dev.Answers disk) {lbas : List Nat}
    {s t : Fat32} {acc acc' : Acc} {status : WalkStatus}
    (hsectors : scan.sectors dev lbas s acc = (some status, acc', t)) :
    status = .ioError ∨ status = .done ∧
      scan.entries (lbas.flatMap fun lba => dirEntries (disk lba)) acc = (true, acc') := by
  rcases scan.sectors_cases hdev lbas s acc with hfailed | ⟨hstatus, hacc⟩
  · rw [hsectors] at hfailed
    exact .inl (Option.some.inj hfailed)
  · rw [hsectors] at hstatus hacc
    cases hstop : (scan.entries (lbas.flatMap fun lba => dirEntries (disk lba)) acc).1 with
    | false =>
        rw [hstop] at hstatus
        cases hstatus
    | true =>
        rw [hstop] at hstatus
        exact .inr ⟨Option.some.inj hstatus, Prod.ext hstop hacc.symm⟩

theorem Scan.mem_chainLog {dev : Device} (hdev : dev.Answers disk) {clusters cluster : Nat}
    {s : Fat32} {acc : Acc} {c lba : Nat}
    (hmem : .data c lba ∈ scan.chainLog dev clusters cluster s acc) :
    c < clusterEoc ∧ s.fs.sectorsPerCluster ≠ 0 ∧
      ∃ k, c = (nextCluster disk s.fs)^[k] cluster ∧ scan.Continues disk s.fs k cluster acc := by
  induction clusters generalizing cluster s acc with
  | zero => cases hmem
  | succ clusters ih =>
      rw [Scan.chainLog] at hmem
      split at hmem
      · next hgo =>
          rcases List.mem_append.mp hmem with hmem | hmem
          · obtain ⟨lba', hlba, heq⟩ := scan.mem_sectorsLog hmem
            cases heq
            refine ⟨hgo.1, ?_, 0, rfl, rfl, hgo.2⟩
            intro hempty
            simp [clusterSectors, hempty] at hlba
          · have hsame := scan.sectors_sameFile dev (clusterSectors s.fs cluster) s acc
            rcases hsectors : scan.sectors dev (clusterSectors s.fs cluster) s acc with
              ⟨status, acc', t⟩
            rw [hsectors] at hmem hsame
            cases status with
            | some status => cases hmem
            | none =>
                have hfirst := scan.sectors_answers hdev hsectors
                rw [← clusterSlots] at hfirst
                have hrest := (List.mem_append.mp hmem).resolve_left
                  (data_notMem_nextClusterLog t.fs cluster c lba)
                have hfs := (hsame.trans (fat32GetNextCluster_sameFile dev t cluster)).fs
                rcases fat32GetNextCluster_answers hdev t cluster with hend | hnext
                · rw [scan.chainLog_end hend.ge] at hrest
                  cases hrest
                · obtain ⟨hc, hspc, k, hk, hcontinues⟩ := ih hrest
                  rw [hfs] at hspc hk hcontinues
                  rw [hnext, hsame.fs] at hk hcontinues
                  exact ⟨hc, hspc, k + 1, hk, (scan.continues_succ hgo.1 hfirst).mpr hcontinues⟩
      · cases hmem

theorem Scan.sectorsLog_head {dev : Device} {fs : Volume} (cluster : Nat) (s : Fat32) (acc : Acc)
    (hspc : fs.sectorsPerCluster ≠ 0) :
    ∃ lba, .data cluster lba ∈ scan.sectorsLog dev cluster (clusterSectors fs cluster) s acc := by
  cases hsectors : clusterSectors fs cluster with
  | nil =>
      have hlen := congrArg List.length hsectors
      rw [clusterSectors, List.length_map, List.length_range] at hlen
      exact absurd (UInt8.toNat_inj.mp hlen) hspc
  | cons lba lbas =>
      rw [Scan.sectorsLog]
      exact ⟨lba, List.mem_cons_self⟩

theorem Scan.chainLog_reaches {dev : Device} (hdev : dev.Serves disk) {k cluster : Nat} {s : Fat32}
    {acc : Acc} (hk : (nextCluster disk s.fs)^[k] cluster < clusterEoc)
    (hspc : s.fs.sectorsPerCluster ≠ 0) (hcontinues : scan.Continues disk s.fs k cluster acc) :
    ∃ lba, .data ((nextCluster disk s.fs)^[k] cluster) lba ∈
      scan.chainLog dev (k + 1) cluster s acc := by
  induction k generalizing cluster s acc with
  | zero =>
      obtain ⟨lba, hlba⟩ := scan.sectorsLog_head cluster s acc hspc
      rw [Scan.chainLog, if_pos ⟨hk, hcontinues.more⟩]
      exact ⟨lba, List.mem_append_left _ hlba⟩
  | succ k ih =>
      have hcluster : cluster < clusterEoc := by
        by_contra hend
        exact Nat.not_lt_of_le (nextCluster_iterate_end s.fs (k + 1) (Nat.le_of_not_lt hend)) hk
      have hmore := hcontinues.more
      obtain ⟨acc', hfirst⟩ := hcontinues.first hcluster
      obtain ⟨t, hsame, hsectors⟩ := scan.sectors_serves hdev (clusterSectors s.fs cluster) s acc
      rw [← clusterSlots, hfirst] at hsectors
      have hfs := (hsame.trans (fat32GetNextCluster_sameFile dev t cluster)).fs
      have hnext := fat32GetNextCluster_fst hdev t cluster
      rw [hsame.fs] at hnext
      rw [scan.continues_succ hcluster hfirst, ← hnext, ← hfs] at hcontinues
      rw [Function.iterate_succ_apply, ← hnext, ← hfs] at hk ⊢
      obtain ⟨lba, hlba⟩ := ih hk (by rw [hfs]; exact hspc) hcontinues
      rw [Scan.chainLog, if_pos ⟨hcluster, hmore⟩, hsectors]
      exact ⟨lba, List.mem_append_right _ (List.mem_append_right _ hlba)⟩

theorem Scan.chainLog_valid_iff (cluster : Nat) (s : Fat32) (acc : Acc) :
    (∀ dev : Device, dev.Answers disk → ∀ clusters,
        ValidData (scan.chainLog dev clusters cluster s acc)) ↔
      ∀ k, BadLink ((nextCluster disk s.fs)^[k] cluster) →
        s.fs.sectorsPerCluster = 0 ∨ ¬ scan.Continues disk s.fs k cluster acc := by
  constructor
  · intro hvalid k hbad
    by_contra hreached
    obtain ⟨hspc, hcontinues⟩ := not_or.mp hreached
    have hserves : Device.Serves (fun _ lba => some (disk lba)) disk := fun _ _ => rfl
    obtain ⟨lba, hlba⟩ := scan.chainLog_reaches hserves hbad.lt_end hspc (not_not.mp hcontinues)
    exact (badLink_iff hbad.lt_end).mp hbad (hvalid _ hserves.answers _ _ _ hlba)
  · intro hstops dev hdev clusters c lba hmem
    obtain ⟨hc, hspc, k, rfl, hcontinues⟩ := scan.mem_chainLog hdev hmem
    by_contra hbad
    exact (hstops k ((badLink_iff hc).mpr hbad)).elim hspc fun h => h hcontinues

end Scans

section Reads

/-- How often the position passes a cluster boundary in the first `m` bytes read from `p` on. -/
def clustersPassed (csz p m : Nat) : Nat :=
  Nat.count (fun j => (p + (j + 1)) % 2 ^ 32 % csz = 0) m

section Round

variable {csz p n : Nat} (hcsz : sectorSize ∣ csz) (hp : p < 2 ^ 32) (hcluster : p % csz + n ≤ csz)
  (hsector : p % csz % sectorSize + n ≤ sectorSize)
include hcsz hp hcluster hsector

theorem clustersPassed_inside {m : Nat} (hm : m < n) : clustersPassed csz p m = 0 := by
  apply Nat.count_of_forall_not
  intro j hj
  rw [Nat.mod_mod_of_dvd p hcsz] at hsector
  have hwrap : p + (j + 1) < 2 ^ 32 := by
    unfold sectorSize at hsector
    omega
  have hsplit : p + (j + 1) = csz * (p / csz) + (p % csz + (j + 1)) := by
    have hdiv := Nat.div_add_mod p csz
    omega
  rw [Nat.mod_eq_of_lt hwrap, hsplit, Nat.mul_add_mod, Nat.mod_eq_of_lt (by omega)]
  omega

theorem clustersPassed_round (hn : 0 < n) (m : Nat) :
    clustersPassed csz p (n + m) =
      clustersPassed csz ((p + n) % 2 ^ 32) m + if (p + n) % 2 ^ 32 % csz = 0 then 1 else 0 := by
  have hinside := clustersPassed_inside hcsz hp hcluster hsector (Nat.sub_lt hn Nat.one_pos)
  have hfirst : clustersPassed csz p n = if (p + n) % 2 ^ 32 % csz = 0 then 1 else 0 := by
    obtain ⟨n, rfl⟩ : ∃ k, n = k + 1 := ⟨n - 1, by omega⟩
    rw [Nat.add_sub_cancel] at hinside
    rw [clustersPassed, Nat.count_succ, ← clustersPassed, hinside, Nat.zero_add]
  have hrest : ∀ j, (p + (n + j + 1)) % 2 ^ 32 = ((p + n) % 2 ^ 32 + (j + 1)) % 2 ^ 32 := by
    intro j
    rw [Nat.mod_add_mod, Nat.add_assoc n j 1, Nat.add_assoc p n]
  rw [clustersPassed, Nat.count_add, ← clustersPassed, hfirst, Nat.add_comm]
  simp only [hrest, clustersPassed]

end Round

theorem nextCluster_le (disk : Nat → Sector) (fs : Volume) (c : Nat) :
    nextCluster disk fs c ≤ clusterEoc := by
  unfold nextCluster fatLink
  split
  · exact Nat.le_refl _
  · dsimp only
    split <;> omega

theorem toNat_ofNat_cluster {c : Nat} (hc : c ≤ clusterEoc) : (UInt32.ofNat c).toNat = c := by
  apply UInt32.toNat_ofNat_of_lt'
  exact Nat.lt_of_le_of_lt hc (by decide)

variable {disk : Nat → Sector} {dev : Device}

theorem advance_currentCluster (dev : Device) (s : Fat32) (n : Nat) :
    (advance dev s n).file.currentCluster =
      if (s.file.position.toNat + n) % 2 ^ 32 % clusterSize s.fs = 0 then
        .ofNat (fat32GetNextCluster dev
          { s with file := { s.file with position := .ofNat (s.file.position.toNat + n) } }
          s.file.currentCluster.toNat).1
      else s.file.currentCluster := by
  unfold advance
  dsimp only
  rw [UInt32.toNat_ofNat']
  split <;> rfl

theorem advance_answers (hdev : dev.Answers disk) (s : Fat32) (n : Nat) :
    (advance dev s n).file.currentCluster.toNat = clusterEoc ∨
      (advance dev s n).file.currentCluster.toNat =
        (nextCluster disk s.fs)^[if (s.file.position.toNat + n) % 2 ^ 32 % clusterSize s.fs = 0 then 1
          else 0] s.file.currentCluster.toNat := by
  have hnext := fat32GetNextCluster_answers hdev
    { s with file := { s.file with position := .ofNat (s.file.position.toNat + n) } }
    s.file.currentCluster.toNat
  rw [advance_currentCluster]
  split
  · rcases hnext with hend | hnext
    · exact .inl (by rw [hend]; rfl)
    · exact .inr (by rw [hnext]; exact toNat_ofNat_cluster (nextCluster_le disk s.fs _))
  · exact .inr rfl

theorem advance_serves (hdev : dev.Serves disk) (s : Fat32) (n : Nat) :
    (advance dev s n).file.currentCluster.toNat =
      (nextCluster disk s.fs)^[if (s.file.position.toNat + n) % 2 ^ 32 % clusterSize s.fs = 0 then 1
        else 0] s.file.currentCluster.toNat := by
  rw [advance_currentCluster]
  split
  · rw [fat32GetNextCluster_fst hdev]
    exact toNat_ofNat_cluster (nextCluster_le disk s.fs _)
  · rfl

/-- The cluster of the `m`-th byte of a read. -/
def readCluster (disk : Nat → Sector) (s : Fat32) (m : Nat) : Nat :=
  (nextCluster disk s.fs)^[clustersPassed (clusterSize s.fs) s.file.position.toNat m]
    s.file.currentCluster.toNat

section Rounds

variable {s : Fat32} {left : Nat} (hcsz : clusterSize s.fs ≠ 0) (hleft : 0 < left)
include hcsz hleft

theorem clustersPassed_bytesInSector (m : Nat) :
    (m < bytesInSector (clusterSize s.fs) s.file.position.toNat left →
      clustersPassed (clusterSize s.fs) s.file.position.toNat m = 0) ∧
    clustersPassed (clusterSize s.fs) s.file.position.toNat
        (bytesInSector (clusterSize s.fs) s.file.position.toNat left + m) =
      clustersPassed (clusterSize s.fs) ((s.file.position.toNat +
          bytesInSector (clusterSize s.fs) s.file.position.toNat left) % 2 ^ 32) m +
        if (s.file.position.toNat + bytesInSector (clusterSize s.fs) s.file.position.toNat left) %
          2 ^ 32 % clusterSize s.fs = 0 then 1 else 0 := by
  have hdvd : sectorSize ∣ clusterSize s.fs := Nat.dvd_mul_left _ _
  have hpos := bytesInSector_pos (clusterSize s.fs) s.file.position.toNat left
    (Nat.pos_of_ne_zero hcsz) hleft
  have hmod := Nat.mod_lt s.file.position.toNat (Nat.pos_of_ne_zero hcsz)
  obtain ⟨-, hcluster, hsector⟩ :=
    bytesInSector_le (clusterSize s.fs) s.file.position.toNat left
  rw [Nat.max_eq_left hmod.le] at hcluster
  exact ⟨clustersPassed_inside hdvd s.file.position.toNat_lt hcluster hsector,
    clustersPassed_round hdvd s.file.position.toNat_lt hcluster hsector hpos m⟩

theorem readCluster_first {m : Nat}
    (hm : m < bytesInSector (clusterSize s.fs) s.file.position.toNat left) :
    readCluster disk s m = s.file.currentCluster.toNat := by
  rw [readCluster, (clustersPassed_bytesInSector hcsz hleft m).1 hm]
  rfl

theorem readCluster_round (disk : Nat → Sector) {t : Fat32} (hfs : t.fs = s.fs)
    (hposition : t.file.position =
      .ofNat (s.file.position.toNat + bytesInSector (clusterSize s.fs) s.file.position.toNat left))
    (hcluster : t.file.currentCluster.toNat =
      (nextCluster disk s.fs)^[if (s.file.position.toNat +
          bytesInSector (clusterSize s.fs) s.file.position.toNat left) % 2 ^ 32 % clusterSize s.fs = 0
        then 1 else 0] s.file.currentCluster.toNat) (m : Nat) :
    readCluster disk s (bytesInSector (clusterSize s.fs) s.file.position.toNat left + m) =
      readCluster disk t m := by
  rw [readCluster, (clustersPassed_bytesInSector hcsz hleft m).2, readCluster, hfs, hposition,
    hcluster, UInt32.toNat_ofNat', Function.iterate_add_apply]

end Rounds

theorem data_notMem_advanceLog (s : Fat32) (n c lba : Nat) : .data c lba ∉ advanceLog s n := by
  unfold advanceLog
  split
  · exact data_notMem_nextClusterLog _ _ c lba
  · simp

theorem readCluster_end (disk : Nat → Sector) {s : Fat32}
    (hend : clusterEoc ≤ s.file.currentCluster.toNat) (m : Nat) : clusterEoc ≤ readCluster disk s m :=
  nextCluster_iterate_end s.fs _ hend

theorem mem_readLog (hdev : dev.Answers disk) {rounds : Nat} {s : Fat32} {left c lba : Nat}
    (hmem : .data c lba ∈ readLog dev rounds s left) :
    c < clusterEoc ∧ clusterSize s.fs ≠ 0 ∧ ∃ m < left, c = readCluster disk s m := by
  induction rounds generalizing s left with
  | zero => cases hmem
  | succ rounds ih =>
      rw [readLog] at hmem
      split at hmem
      · next hloop =>
          split at hmem
          · cases hmem
          · next hcsz =>
              have hpos := bytesInSector_pos (clusterSize s.fs) s.file.position.toNat left
                (Nat.pos_of_ne_zero hcsz) hloop.1
              rcases List.mem_cons.mp hmem with heq | hmem
              · cases heq
                exact ⟨hloop.2, hcsz, 0, hloop.1, (readCluster_first hcsz hloop.1 hpos).symm⟩
              · split at hmem
                · cases hmem
                · next t hread =>
                    have hsame := ideRead_sameFile dev s (positionSector s)
                    rw [hread] at hsame
                    obtain ⟨hfs, hfile⟩ := hsame
                    dsimp only at hfs hfile hmem
                    rw [hfs, hfile] at hmem
                    have hrest := (List.mem_append.mp hmem).resolve_left
                      (data_notMem_advanceLog t _ c lba)
                    obtain ⟨hc, -, m, hm, hcluster⟩ := ih hrest
                    rcases advance_answers hdev t (bytesInSector (clusterSize s.fs)
                      s.file.position.toNat left) with hend | hnext
                    · have hout := readCluster_end disk hend.ge m
                      omega
                    · rw [hfs, hfile] at hnext
                      refine ⟨hc, hcsz, _, Nat.add_lt_of_lt_sub' hm, ?_⟩
                      rw [hcluster, readCluster_round hcsz hloop.1 disk
                        ((advance_sameOpen dev t _).fs.trans hfs)
                        ((advance_position t _).trans (by rw [hfile])) hnext]
      · cases hmem

theorem readLog_reaches (hdev : dev.Serves disk) {rounds : Nat} {s : Fat32} {left m : Nat}
    (hcsz : clusterSize s.fs ≠ 0) (hm : m < left) (hrounds : left ≤ rounds)
    (hcluster : readCluster disk s m < clusterEoc) :
    ∃ lba, .data (readCluster disk s m) lba ∈ readLog dev rounds s left := by
  induction rounds generalizing s left m with
  | zero => omega
  | succ rounds ih =>
      have hleft : 0 < left := Nat.zero_lt_of_lt hm
      have hpos := bytesInSector_pos (clusterSize s.fs) s.file.position.toNat left
        (Nat.pos_of_ne_zero hcsz) hleft
      have hcurrent : s.file.currentCluster.toNat < clusterEoc := by
        by_contra hend
        exact Nat.not_lt_of_le (readCluster_end disk (Nat.le_of_not_lt hend) m) hcluster
      rw [readLog, if_pos ⟨hleft, hcurrent⟩, if_neg hcsz, ideRead_serves hdev]
      by_cases hinside : m < bytesInSector (clusterSize s.fs) s.file.position.toNat left
      · rw [readCluster_first hcsz hleft hinside]
        exact ⟨_, List.mem_cons_self⟩
      · obtain ⟨k, rfl⟩ := Nat.exists_eq_add_of_le (Nat.le_of_not_lt hinside)
        set t : Fat32 := { s with sectorBuffer := disk (positionSector s), time := s.time + 1 }
        have hfs := (advance_sameOpen dev t
          (bytesInSector (clusterSize s.fs) s.file.position.toNat left)).fs
        have hround := readCluster_round hcsz hleft disk hfs (advance_position t _)
          (advance_serves hdev t _) k
        rw [hround] at hcluster ⊢
        have hlater : k < left - bytesInSector (clusterSize s.fs) s.file.position.toNat left := by
          omega
        obtain ⟨lba, hlba⟩ := ih (by rw [hfs]; exact hcsz) hlater (by omega) hcluster
        exact ⟨lba, List.mem_cons_of_mem _ (List.mem_append_right _ hlba)⟩

theorem readLog_valid_iff (s : Fat32) (left : Nat) :
    (∀ dev : Device, dev.Answers disk → ValidData (readLog dev left s left)) ↔
      s.fs.sectorsPerCluster = 0 ∨ ∀ m < left, ¬ BadLink (readCluster disk s m) := by
  rw [← clusterSize_eq_zero]
  constructor
  · intro hvalid
    by_cases hcsz : clusterSize s.fs = 0
    · exact .inl hcsz
    · right
      intro m hm hbad
      have hserves : Device.Serves (fun _ lba => some (disk lba)) disk := fun _ _ => rfl
      obtain ⟨lba, hlba⟩ := readLog_reaches hserves hcsz hm (Nat.le_refl left) hbad.lt_end
      exact (badLink_iff hbad.lt_end).mp hbad (hvalid _ hserves.answers _ _ hlba)
  · intro hclusters dev hdev c lba hmem
    obtain ⟨hc, hcsz, m, hm, rfl⟩ := mem_readLog hdev hmem
    by_contra hbad
    exact hclusters.elim hcsz fun h => h m hm ((badLink_iff hc).mpr hbad)

end Reads

/-- A call reads data of clusters only, whatever reads fail. -/
def ReadsClusters (disk : Nat → Sector) (s : Fat32) (call : DriverCall) : Prop :=
  ∀ dev : Device, dev.Answers disk → ∀ clusters, ValidData (callLog dev clusters s call)

theorem validData_nil : ValidData [] := by
  intro c lba hmem
  cases hmem

section Calls

variable {disk : Nat → Sector} {s : Fat32} (hinit : s.fs.initialized = true)
include hinit

theorem readsClusters_listRoot_iff :
    ReadsClusters disk s .listRoot ↔
      ∀ k, BadLink ((nextCluster disk s.fs)^[k] s.fs.rootDirCluster.toNat) →
        s.fs.sectorsPerCluster = 0 ∨
          ∃ e ∈ reachedSlots disk s.fs k s.fs.rootDirCluster.toNat, e.IsEnd := by
  have hlog : ∀ dev clusters, callLog dev clusters s .listRoot =
      rootScan.chainLog dev clusters s.fs.rootDirCluster.toNat s [] :=
    fun dev clusters => if_neg (by simp [hinit])
  have hstops : ∀ k, ¬ rootScan.Continues disk s.fs k s.fs.rootDirCluster.toNat [] ↔
      ∃ e ∈ reachedSlots disk s.fs k s.fs.rootDirCluster.toNat, e.IsEnd := by
    intro k
    rw [← rootScan_entries_fst _ [], Scan.Continues]
    simp [rootScan]
  simp only [ReadsClusters, hlog, rootScan.chainLog_valid_iff, hstops]

theorem readsClusters_listDir_iff (present : Bool) (maxEntries : Int) :
    ReadsClusters disk s (.listDir present maxEntries) ↔ present = false ∨ maxEntries ≤ 0 ∨
      ∀ k, BadLink ((nextCluster disk s.fs)^[k] s.fs.rootDirCluster.toNat) →
        s.fs.sectorsPerCluster = 0 ∨
          (∃ e ∈ reachedSlots disk s.fs k s.fs.rootDirCluster.toNat, e.IsEnd) ∨
          maxEntries ≤ (visibleSlots (reachedSlots disk s.fs k s.fs.rootDirCluster.toNat)).length := by
  by_cases hready : present = false ∨ maxEntries ≤ 0
  · have hlog : ∀ dev clusters, callLog dev clusters s (.listDir present maxEntries) = [] :=
      fun dev clusters => if_pos (.inr hready)
    rw [← or_assoc]
    refine iff_of_true ?_ (.inl hready)
    intro dev _ clusters
    rw [hlog]
    exact validData_nil
  · have hlog : ∀ dev clusters, callLog dev clusters s (.listDir present maxEntries) =
        (listScan maxEntries.toNat).chainLog dev clusters s.fs.rootDirCluster.toNat s [] :=
      fun dev clusters => if_neg (by simp only [hinit, Bool.true_eq_false, false_or]; exact hready)
    have hstops : ∀ k, ¬ (listScan maxEntries.toNat).Continues disk s.fs k
        s.fs.rootDirCluster.toNat [] ↔
        (∃ e ∈ reachedSlots disk s.fs k s.fs.rootDirCluster.toNat, e.IsEnd) ∨
          maxEntries ≤ (visibleSlots (reachedSlots disk s.fs k s.fs.rootDirCluster.toNat)).length := by
      intro k
      have hentries := listScan_stops_iff (reachedSlots disk s.fs k s.fs.rootDirCluster.toNat)
        maxEntries.toNat []
      rw [List.length_nil, Nat.zero_add, Int.toNat_le] at hentries
      rw [← hentries, Scan.Continues, not_and_or, Bool.not_eq_false, Bool.not_eq_true]
    obtain ⟨hpresent, hmax⟩ := not_or.mp hready
    rw [or_iff_right hpresent, or_iff_right hmax]
    simp only [ReadsClusters, hlog, Scan.chainLog_valid_iff, hstops]

theorem readsClusters_openFile_iff (filename : List UInt8) (hname : (0 : UInt8) ∉ filename) :
    ReadsClusters disk s (.openFile filename) ↔
      ∀ k, BadLink ((nextCluster disk s.fs)^[k] s.fs.rootDirCluster.toNat) →
        s.fs.sectorsPerCluster = 0 ∨
          (∃ e ∈ reachedSlots disk s.fs k s.fs.rootDirCluster.toNat, e.IsEnd) ∨
          lookupSlot (reachedSlots disk s.fs k s.fs.rootDirCluster.toNat)
            (fat32StringToName filename) ≠ none := by
  have hlog : ∀ dev clusters, callLog dev clusters s (.openFile filename) =
      (openScan (fat32StringToName filename)).chainLog dev clusters s.fs.rootDirCluster.toNat s
        none :=
    fun dev clusters => if_neg (by simp [hinit])
  have hstops : ∀ k, ¬ (openScan (fat32StringToName filename)).Continues disk s.fs k
      s.fs.rootDirCluster.toNat none ↔
      (∃ e ∈ reachedSlots disk s.fs k s.fs.rootDirCluster.toNat, e.IsEnd) ∨
        lookupSlot (reachedSlots disk s.fs k s.fs.rootDirCluster.toNat)
          (fat32StringToName filename) ≠ none := by
    intro k
    rw [← (openScan_reached disk s.fs k s.fs.rootDirCluster.toNat hname).2, Scan.Continues]
    simp [openScan]
  simp only [ReadsClusters, hlog, Scan.chainLog_valid_iff, hstops]

theorem readsClusters_read_iff (size : UInt32) :
    ReadsClusters disk s (.read size) ↔ s.file.valid = false ∨ s.fs.sectorsPerCluster = 0 ∨
      ∀ m < bytesToRead s.file size.toNat, ¬ BadLink (readCluster disk s m) := by
  by_cases hvalid : s.file.valid = false
  · have hlog : ∀ dev clusters, callLog dev clusters s (.read size) = [] :=
      fun dev clusters => if_pos (.inl hvalid)
    refine iff_of_true ?_ (.inl hvalid)
    intro dev _ clusters
    rw [hlog]
    exact validData_nil
  · have hlog : ∀ dev clusters, callLog dev clusters s (.read size) =
        readLog dev (bytesToRead s.file size.toNat) s (bytesToRead s.file size.toNat) :=
      fun dev clusters => if_neg (by simp [hinit, hvalid])
    rw [or_iff_right hvalid, ← readLog_valid_iff]
    simp only [ReadsClusters, hlog, forall_const]

end Calls

/-- On an accepted volume, with or without read errors, the calls ask for data of clusters only in
exactly these cases: a scan of the root directory stops before every number on its chain that is no
cluster, and a read does not need a byte of such a one. -/
theorem calls_readClusters_iff (dev : Device) (disk : Nat → Sector) (s₀ s : Fat32)
    (hinit : fat32Init dev s₀ = (0, s)) (t : Fat32) (hfs : t.fs = s.fs) :
    (ReadsClusters disk t .listRoot ↔
      ∀ k, BadLink ((nextCluster disk s.fs)^[k] s.fs.rootDirCluster.toNat) →
        s.fs.sectorsPerCluster = 0 ∨
          ∃ e ∈ reachedSlots disk s.fs k s.fs.rootDirCluster.toNat, e.IsEnd) ∧
    (∀ present maxEntries, ReadsClusters disk t (.listDir present maxEntries) ↔
      present = false ∨ maxEntries ≤ 0 ∨
        ∀ k, BadLink ((nextCluster disk s.fs)^[k] s.fs.rootDirCluster.toNat) →
          s.fs.sectorsPerCluster = 0 ∨
            (∃ e ∈ reachedSlots disk s.fs k s.fs.rootDirCluster.toNat, e.IsEnd) ∨
            maxEntries ≤
              (visibleSlots (reachedSlots disk s.fs k s.fs.rootDirCluster.toNat)).length) ∧
    (∀ filename : List UInt8, 0 ∉ filename →
      (ReadsClusters disk t (.openFile filename) ↔
        ∀ k, BadLink ((nextCluster disk s.fs)^[k] s.fs.rootDirCluster.toNat) →
          s.fs.sectorsPerCluster = 0 ∨
            (∃ e ∈ reachedSlots disk s.fs k s.fs.rootDirCluster.toNat, e.IsEnd) ∨
            lookupSlot (reachedSlots disk s.fs k s.fs.rootDirCluster.toNat)
              (fat32StringToName filename) ≠ none)) ∧
    ∀ size : UInt32, ReadsClusters disk t (.read size) ↔
      t.file.valid = false ∨ s.fs.sectorsPerCluster = 0 ∨
        ∀ m < bytesToRead t.file size.toNat, ¬ BadLink (readCluster disk t m) := by
  have hready : t.fs.initialized = true := by
    rw [hfs]
    exact fat32Init_initialized hinit
  rw [← hfs]
  exact ⟨readsClusters_listRoot_iff hready, readsClusters_listDir_iff hready,
    readsClusters_openFile_iff hready, readsClusters_read_iff hready⟩

/-- A volume whose FAT is empty: the root cluster, which holds deleted entries only, links to 0. -/
def freeLinkDisk (lba : Nat) : Sector := fun i =>
  match lba with
  | 0 => sampleBootSector i
  | 1 => 0
  | _ => 0xE5

def freeLinkDevice : Device := fun _ lba => some (freeLinkDisk lba)

def freeLinkFat32 : Fat32 :=
  { blankFat32 with
    fs := ⟨1, 1, 2, 2, true⟩
    sectorBuffer := sampleBootSector
    time := 1 }

theorem freeLinkDevice_serves : freeLinkDevice.Serves freeLinkDisk := fun _ _ => rfl

theorem fat32Init_freeLink : fat32Init freeLinkDevice blankFat32 = (0, freeLinkFat32) :=
  fat32Init_sample freeLinkDevice_serves rfl blankFat32

theorem reachedSlots_freeLink :
    ∀ e ∈ reachedSlots freeLinkDisk freeLinkFat32.fs 1 2, e.Deleted := by
  apply reachedSlots_deleted
  intro k hk lba hlba
  obtain rfl : k = 0 := by omega
  have hsectors : clusterSectors freeLinkFat32.fs 2 = [2] := by decide
  obtain rfl : lba = 2 := by rwa [Function.iterate_zero_apply, hsectors, List.mem_singleton] at hlba
  rfl

theorem nextCluster_freeLink : nextCluster freeLinkDisk freeLinkFat32.fs 2 = 0 := by decide

theorem calls_readClusters_iff_freeLink :
    fat32Init freeLinkDevice blankFat32 = (0, freeLinkFat32) ∧
      ¬ ReadsClusters freeLinkDisk freeLinkFat32 .listRoot := by
  refine ⟨fat32Init_freeLink, ?_⟩
  rw [(calls_readClusters_iff freeLinkDevice freeLinkDisk blankFat32 freeLinkFat32 fat32Init_freeLink
    freeLinkFat32 rfl).1]
  intro hstops
  have hbad : BadLink ((nextCluster freeLinkDisk freeLinkFat32.fs)^[1] 2) := by
    rw [Function.iterate_one, nextCluster_freeLink]
    exact .inl (by decide)
  rcases hstops 1 hbad with hspc | ⟨e, he, hend⟩
  · exact absurd hspc (by decide)
  · exact (reachedSlots_freeLink e he).not_isEnd hend

/-- Behind the root cluster the listing goes on with cluster 0, which is the boot sector. -/
theorem listRoot_reads_freeLink :
    fat32Init freeLinkDevice blankFat32 = (0, freeLinkFat32) ∧
      ∃ lba, .data 0 lba ∈ callLog freeLinkDevice 2 freeLinkFat32 .listRoot := by
  refine ⟨fat32Init_freeLink, ?_⟩
  have hstop : ¬ (rootScan.entries (reachedSlots freeLinkDisk freeLinkFat32.fs 1 2) []).1 = true := by
    rw [rootScan_entries_fst]
    rintro ⟨e, he, hend⟩
    exact (reachedSlots_freeLink e he).not_isEnd hend
  have hlink : (nextCluster freeLinkDisk freeLinkFat32.fs)^[1] 2 = 0 := by
    rw [Function.iterate_one, nextCluster_freeLink]
  have hreached := rootScan.chainLog_reaches freeLinkDevice_serves (k := 1) (s := freeLinkFat32)
    (by rw [hlink]; decide) (by decide) ⟨Bool.eq_false_iff.mpr hstop, rfl⟩
  rw [hlink] at hreached
  exact hreached

end Magnos
