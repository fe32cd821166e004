import Magnos.Fat32.ClusterBounds

/-!
# What the listings report

On a disk that is read without failures both listings report the visible slots of the root
directory: `fat32_list_dir` as many as the caller has room for, and `fat32_list_root` their number,
in an `int`.  A sector of the directory that cannot be read makes them return -1.  A sector of the FAT
that cannot be read is taken for the end of the chain, and then what comes after it is missing.
-/

namespace Magnos

open Framework

variable {Acc : Type} {disk : Nat → Sector}

theorem rootScan_entries (slots : List DirEntry) (shown : List DirInfo) :
    (rootScan.entries slots shown).2 = shown ++ (visibleSlots slots).map DirEntry.info := by
  induction slots generalizing shown with
  | nil => simp [Scan.entries, visibleSlots, liveSlots]
  | cons e slots ih =>
      have hvisit : rootScan.visit shown e = _ := listScan_visit 0 shown e
      by_cases hend : e.IsEnd
      · rw [if_pos hend] at hvisit
        rw [Scan.entries_cons_stop _ _ rfl hvisit]
        simp [visibleSlots, liveSlots, hend]
      rw [if_neg hend] at hvisit
      by_cases hvisible : e.Visible
      · rw [if_pos hvisible] at hvisit
        rw [Scan.entries_cons_next _ _ rfl hvisit, ih, visibleSlots_keep slots hend hvisible]
        simp
      · rw [if_neg hvisible] at hvisit
        rw [Scan.entries_cons_next _ _ rfl hvisit, ih, visibleSlots_skip slots hend hvisible]

theorem fat32ListRoot_serves {dev : Device} (hdev : dev.Serves disk) {s : Fat32}
    (hinit : s.fs.initialized = true) {clusters : Nat} {slots : List DirEntry}
    (hslots : chainSlots disk s.fs clusters s.fs.rootDirCluster.toNat = some slots) :
    (fat32ListRoot dev clusters s).1 =
      ⟨(visibleSlots slots).map DirEntry.info,
        some (toInt32 ((visibleSlots slots).length % 2 ^ 32))⟩ := by
  obtain ⟨status, hstatus, hchain⟩ :=
    rootScan.chain_reached hdev s.fs clusters s.fs.rootDirCluster.toNat []
  obtain ⟨t, -, hchain⟩ := hchain s rfl
  rw [reachedSlots_of_chainSlots hslots, rootScan_entries] at hchain
  rw [fat32ListRoot, if_neg (by simp [hinit]), hchain]
  rcases hstatus with rfl | ⟨-, hnone, -⟩
  · simp
  · rw [hslots] at hnone
    cases hnone

/-- The listings of a directory with the given visible slots. -/
structure ListsVisible (dev : Device) (clusters : Nat) (s : Fat32) (visible : List DirEntry) :
    Prop where
  root : (fat32ListRoot dev clusters s).1.ret = some (visible.length : Int)
  dir : ∀ maxEntries : Int, 1 ≤ maxEntries → maxEntries < 2 ^ 31 →
    (fat32ListDir dev clusters s true maxEntries).1 =
      ⟨(visible.take maxEntries.toNat).map DirEntry.info, some (min maxEntries visible.length)⟩

/-- `fat32_list_dir` lists the visible slots of every finite chain; `fat32_list_root` counts them if
their number is an `int`. -/
theorem listings_iff (dev : Device) (disk : Nat → Sector) (hdev : dev.Serves disk) (s : Fat32)
    (hinit : s.fs.initialized = true) (clusters : Nat) (slots : List DirEntry)
    (hslots : chainSlots disk s.fs clusters s.fs.rootDirCluster.toNat = some slots) :
    (ListsVisible dev clusters s (visibleSlots slots) ↔ (visibleSlots slots).length < 2 ^ 31) ∧
      ∀ maxEntries : Int, 1 ≤ maxEntries → maxEntries < 2 ^ 31 →
        (fat32ListDir dev clusters s true maxEntries).1 =
          ⟨((visibleSlots slots).take maxEntries.toNat).map DirEntry.info,
            some (min maxEntries (visibleSlots slots).length)⟩ := by
  have hdir : ∀ maxEntries : Int, 1 ≤ maxEntries → maxEntries < 2 ^ 31 →
      (fat32ListDir dev clusters s true maxEntries).1 =
        ⟨((visibleSlots slots).take maxEntries.toNat).map DirEntry.info,
          some (min maxEntries (visibleSlots slots).length)⟩ :=
    fun maxEntries hmax _ => fat32ListDir_serves hdev s hinit hslots maxEntries hmax
  have hroot := fat32ListRoot_serves hdev hinit hslots
  refine ⟨⟨?_, ?_⟩, hdir⟩
  · intro hlists
    have hret := hlists.root
    rw [hroot, Option.some.injEq, toInt32] at hret
    split at hret <;> omega
  · intro hsmall
    refine ⟨?_, hdir⟩
    rw [hroot, Nat.mod_eq_of_lt (by omega), toInt32, if_pos hsmall]

/-- The read of the link behind `k + 1` clusters fails; the first request of the log is the `time`-th
read of the run. -/
def LinkLost (dev : Device) : (time : Nat) → List DriveRequest → (k : Nat) → Prop
  | _, [], _ => False
  | time, .data _ _ :: log, k => LinkLost dev (time + 1) log k
  | time, .fat lba :: _, 0 => dev time lba = none
  | time, .fat _ :: log, k + 1 => LinkLost dev (time + 1) log k

theorem linkLost_append {dev : Device} {time k : Nat} {pre log : List DriveRequest}
    (hpre : ∀ r ∈ pre, ∃ cluster lba, r = .data cluster lba) :
    LinkLost dev time (pre ++ log) k ↔ LinkLost dev (time + pre.length) log k := by
  induction pre generalizing time with
  | nil => rfl
  | cons r pre ih =>
      obtain ⟨⟨cluster, lba, rfl⟩, hrest⟩ := List.forall_mem_cons.mp hpre
      rw [List.cons_append, LinkLost, ih hrest, List.length_cons, Nat.add_assoc, Nat.add_comm 1]

/-- The links lost with one more link in front, which was read. -/
structure LostBehind (lost lost' : Nat → Prop) : Prop where
  zero : ¬ lost' 0
  succ : ∀ k, lost' (k + 1) ↔ lost k

theorem LostBehind.none {lost lost' : Nat → Prop} (hbehind : LostBehind lost lost')
    (hlost : ∀ k, ¬ lost k) : ∀ k, ¬ lost' k := by
  intro k
  cases k with
  | zero => exact hbehind.zero
  | succ k =>
      rw [hbehind.succ]
      exact hlost k

theorem LostBehind.single {lost lost' : Nat → Prop} (hbehind : LostBehind lost lost') {k : Nat}
    (hlost : ∀ j, lost j ↔ j = k) : ∀ j, lost' j ↔ j = k + 1 := by
  intro j
  cases j with
  | zero => simpa using hbehind.zero
  | succ j => rw [hbehind.succ, hlost, Nat.add_right_cancel_iff]

section Initial

theorem visibleSlots_initial {slots slots' : List DirEntry} (hslots : slots <+: slots') :
    visibleSlots slots <+: visibleSlots slots' := by
  apply List.IsPrefix.filter
  obtain ⟨rest, rfl⟩ := hslots
  rw [liveSlots, liveSlots, List.takeWhile_append]
  split
  · exact (List.takeWhile_prefix _).trans (List.prefix_append _ _)
  · exact List.prefix_rfl

theorem reachedSlots_initial {fs : Volume} {clusters cluster : Nat} {slots : List DirEntry}
    (hslots : chainSlots disk fs clusters cluster = some slots) (k : Nat) :
    reachedSlots disk fs k cluster <+: slots := by
  induction k generalizing clusters cluster slots with
  | zero => exact List.nil_prefix
  | succ k ih =>
      cases clusters with
      | zero => cases hslots
      | succ clusters =>
          rw [chainSlots] at hslots
          rw [reachedSlots]
          split at hslots
          · next hcluster =>
              obtain ⟨rest, hrest, rfl⟩ := Option.map_eq_some_iff.mp hslots
              rw [if_pos hcluster, List.prefix_append_right_inj]
              exact ih hrest
          · next hcluster =>
              rw [if_neg hcluster]
              exact List.nil_prefix

end Initial

section Answers

variable {dev : Device} (hdev : dev.Answers disk) (scan : Scan Acc)

/-- How a scan ends on a drive that may fail: at a sector of the directory, with all slots of the
chain, or with those before a link that was lost. -/
inductive Scan.Ending (disk : Nat → Sector) (fs : Volume) (cluster : Nat) (slots : List DirEntry)
    (lost : Nat → Prop) (acc : Acc) : WalkStatus → Acc → Prop
  | failed (acc' : Acc) (hlost : ∀ k, ¬ lost k) : Ending disk fs cluster slots lost acc .ioError acc'
  | complete (hlost : ∀ k, ¬ lost k) :
      Ending disk fs cluster slots lost acc .done (scan.entries slots acc).2
  | cut (k : Nat) (hlost : ∀ j, lost j ↔ j = k) :
      Ending disk fs cluster slots lost acc .done
        (scan.entries (reachedSlots disk fs (k + 1) cluster) acc).2

theorem Scan.Ending.link {scan : Scan Acc} {fs : Volume} {cluster : Nat} {slots : List DirEntry}
    {lost lost' : Nat → Prop} {acc acc' acc'' : Acc} {status : WalkStatus}
    (hcluster : cluster < clusterEoc)
    (hfirst : scan.entries (clusterSlots disk fs cluster) acc = (false, acc'))
    (hbehind : LostBehind lost lost')
    (hrest : scan.Ending disk fs (nextCluster disk fs cluster) slots lost acc' status acc'') :
    scan.Ending disk fs cluster (clusterSlots disk fs cluster ++ slots) lost' acc status acc'' := by
  cases hrest with
  | failed acc'' hlost => exact .failed acc'' (hbehind.none hlost)
  | complete hlost =>
      have hentries : (scan.entries slots acc').2 =
          (scan.entries (clusterSlots disk fs cluster ++ slots) acc).2 := by
        rw [scan.entries_append, hfirst]
      rw [hentries]
      exact .complete (hbehind.none hlost)
  | cut k hlost =>
      have hentries :
          (scan.entries (reachedSlots disk fs (k + 1) (nextCluster disk fs cluster)) acc').2 =
            (scan.entries (reachedSlots disk fs (k + 2) cluster) acc).2 := by
        rw [reachedSlots.eq_def disk fs (k + 2)]
        dsimp only
        rw [if_pos hcluster, scan.entries_append, hfirst]
      rw [hentries]
      exact .cut (k + 1) (hbehind.single hlost)

theorem Scan.sectorsLog_data (cluster : Nat) (lbas : List Nat) (s : Fat32) (acc : Acc) :
    ∀ r ∈ scan.sectorsLog dev cluster lbas s acc, ∃ c lba, r = .data c lba := by
  intro r hr
  obtain ⟨lba, -, rfl⟩ := scan.mem_sectorsLog hr
  exact ⟨cluster, lba, rfl⟩

theorem Scan.chain_end {clusters cluster : Nat} {s : Fat32} {acc : Acc}
    (hend : clusterEoc ≤ cluster) : scan.chain dev (clusters + 1) cluster s acc = (.done, acc, s) := by
  rw [Scan.chain, if_neg (fun hgo => Nat.not_lt_of_le hend hgo.1)]

include hdev

/-- A scan of a finite chain behind the cluster it has read. -/
theorem Scan.chain_ending_next {clusters cluster : Nat} {t : Fat32} {acc acc' : Acc}
    {slots : List DirEntry} (hcluster : cluster < clusterEoc)
    (hfirst : scan.entries (clusterSlots disk t.fs cluster) acc = (false, acc'))
    (hslots : chainSlots disk t.fs clusters (nextCluster disk t.fs cluster) = some slots)
    (ih : ∀ u : Fat32, u.fs = t.fs → scan.Ending disk t.fs (nextCluster disk t.fs cluster) slots
      (LinkLost dev u.time (scan.chainLog dev clusters (nextCluster disk t.fs cluster) u acc')) acc'
      (scan.chain dev clusters (nextCluster disk t.fs cluster) u acc').1
      (scan.chain dev clusters (nextCluster disk t.fs cluster) u acc').2.1) :
    scan.Ending disk t.fs cluster (clusterSlots disk t.fs cluster ++ slots)
      (LinkLost dev t.time (nextClusterLog t.fs cluster ++
        scan.chainLog dev clusters (fat32GetNextCluster dev t cluster).1
          (fat32GetNextCluster dev t cluster).2 acc')) acc
      (scan.chain dev clusters (fat32GetNextCluster dev t cluster).1
        (fat32GetNextCluster dev t cluster).2 acc').1
      (scan.chain dev clusters (fat32GetNextCluster dev t cluster).1
        (fat32GetNextCluster dev t cluster).2 acc').2.1 := by
  rcases fat32GetNextCluster_cases hdev t cluster with
    ⟨hlog, hget, hnext⟩ | ⟨hlog, ⟨hnone, hget⟩ | ⟨hsome, hget⟩⟩
  · have hrest := ih t rfl
    rw [hnext] at hrest
    rw [hlog, hget, List.nil_append]
    rw [scan.chainLog_end (Nat.le_refl _)] at hrest ⊢
    exact .link hcluster hfirst ⟨id, fun k => Iff.rfl⟩ (by rw [hnext]; exact hrest)
  · obtain ⟨clusters, rfl⟩ : ∃ n, clusters = n + 1 := by
      cases clusters with
      | zero => cases hslots
      | succ n => exact ⟨n, rfl⟩
    have hacc : acc' = (scan.entries (reachedSlots disk t.fs 1 cluster) acc).2 := by
      rw [reachedSlots, if_pos hcluster, reachedSlots, List.append_nil, hfirst]
    rw [hlog, hget, scan.chain_end (Nat.le_refl _), scan.chainLog_end (Nat.le_refl _), hacc]
    refine .cut 0 ?_
    intro j
    cases j with
    | zero => simpa [LinkLost] using hnone
    | succ j => simp [LinkLost]
  · have hrest := ih
      { t with sectorBuffer := disk (fatSector t.fs cluster), time := t.time + 1 } rfl
    rw [hlog, hget]
    refine .link hcluster hfirst ⟨?_, fun k => ?_⟩ hrest
    · simp [LinkLost, hsome]
    · exact Iff.rfl

theorem Scan.chain_ending {clusters cluster : Nat} {s : Fat32} {slots : List DirEntry}
    (hslots : chainSlots disk s.fs clusters cluster = some slots) (acc : Acc) :
    scan.Ending disk s.fs cluster slots
      (LinkLost dev s.time (scan.chainLog dev clusters cluster s acc)) acc
      (scan.chain dev clusters cluster s acc).1 (scan.chain dev clusters cluster s acc).2.1 := by
  induction clusters generalizing cluster s acc slots with
  | zero => cases hslots
  | succ clusters ih =>
      rw [chainSlots] at hslots
      rw [Scan.chain, Scan.chainLog]
      by_cases hgo : cluster < clusterEoc ∧ scan.more acc = true
      · rw [if_pos hgo.1] at hslots
        obtain ⟨rest, hrest, rfl⟩ := Option.map_eq_some_iff.mp hslots
        have hlost (log : List DriveRequest) :
            LinkLost dev s.time
                (scan.sectorsLog dev cluster (clusterSectors s.fs cluster) s acc ++ log) =
              LinkLost dev (scan.sectors dev (clusterSectors s.fs cluster) s acc).2.2.time log := by
          funext k
          rw [linkLost_append (scan.sectorsLog_data cluster _ s acc), scan.sectorsLog_time]
        have hsame := scan.sectors_sameFile dev (clusterSectors s.fs cluster) s acc
        rw [if_pos hgo, if_pos hgo, hlost]
        rcases hsectors : scan.sectors dev (clusterSectors s.fs cluster) s acc with ⟨status, acc', t⟩
        rw [hsectors] at hsame
        cases status with
        | some status =>
            dsimp only
            rcases scan.sectors_stopped hdev hsectors with rfl | ⟨rfl, hstop⟩
            · exact .failed acc' fun k => id
            · have hacc : acc' = (scan.entries (clusterSlots disk s.fs cluster ++ rest) acc).2 := by
                rw [scan.entries_append, clusterSlots, hstop]
              rw [hacc]
              exact .complete fun k => id
        | none =>
            have hfirst := scan.sectors_answers hdev hsectors
            rw [← clusterSlots, ← hsame.fs] at hfirst
            dsimp only
            rw [← hsame.fs] at hrest ⊢
            refine scan.chain_ending_next hdev hgo.1 hfirst hrest fun u hu => ?_
            rw [← hu] at hrest ⊢
            exact ih hrest acc'
      · have hacc : acc = (scan.entries slots acc).2 := by
          by_cases hcluster : cluster < clusterEoc
          · rw [scan.entries_of_not_more _ acc (by simpa [hcluster] using hgo)]
          · rw [if_neg hcluster] at hslots
            cases hslots
            rfl
        rw [if_neg hgo, if_neg hgo]
        nth_rw 3 [hacc]
        exact .complete fun k => id

end Answers

/-- A listing that is not reported as failed is the one without failing reads. -/
def ListsComplete (listing reference : Listing) : Prop :=
  ∀ n, listing.ret = some n → 0 ≤ n → listing = reference

/-- A listing that returns a count of its entries. -/
def Listing.counted (count : Nat → Int) (filled : List DirInfo) : Listing :=
  ⟨filled, some (count filled.length)⟩

theorem listsComplete_counted {count : Nat → Int} {filled filled' : List DirInfo} :
    ListsComplete (.counted count filled') (.counted count filled) ↔
      (0 ≤ count filled'.length → filled' = filled) := by
  constructor
  · intro hcomplete hcount
    exact congrArg Listing.filled (hcomplete _ rfl hcount)
  · intro hfilled n hret hn
    cases hret
    rw [hfilled hn]

theorem Scan.Ending.complete_iff {scan : Scan (List DirInfo)} {fs : Volume} {cluster : Nat}
    {slots : List DirEntry} {lost : Nat → Prop} {status : WalkStatus} {filled : List DirInfo}
    {count : Nat → Int} {listing : Listing}
    (hending : scan.Ending disk fs cluster slots lost [] status filled)
    (hdone : status = .done → listing = .counted count filled)
    (hfailed : status = .ioError → listing.ret = some (-1)) :
    ListsComplete listing (.counted count (scan.entries slots []).2) ↔
      ∀ k, lost k → 0 ≤ count (scan.entries (reachedSlots disk fs (k + 1) cluster) []).2.length →
        (scan.entries (reachedSlots disk fs (k + 1) cluster) []).2 = (scan.entries slots []).2 := by
  cases hending with
  | failed _ hlost =>
      refine ⟨fun _ k hk => (hlost k hk).elim, ?_⟩
      intro _ n hret hn
      rw [hfailed rfl] at hret
      cases hret
      omega
  | complete hlost =>
      refine ⟨fun _ k hk => (hlost k hk).elim, ?_⟩
      intro _ n _ _
      exact hdone rfl
  | cut k hlost =>
      rw [hdone rfl, listsComplete_counted]
      simp only [hlost, forall_eq]

theorem take_info_eq_iff {visible visible' : List DirEntry} (hstart : visible' <+: visible) (n : Nat) :
    (visible'.take n).map DirEntry.info = (visible.take n).map DirEntry.info ↔
      n ≤ visible'.length ∨ visible.length ≤ visible'.length := by
  obtain ⟨rest, rfl⟩ := hstart
  rw [List.length_append]
  constructor
  · intro heq
    have hlength := congrArg List.length heq
    simp only [List.length_map, List.length_take, List.length_append] at hlength
    omega
  · rintro (hn | hrest)
    · rw [List.take_append_of_le_length hn]
    · have hnil : rest = [] := List.length_eq_zero_iff.mp (by omega)
      rw [hnil, List.append_nil]

section Complete

variable {dev : Device} (hdev : dev.Answers disk) {s : Fat32} {clusters : Nat} {slots : List DirEntry}
  (hslots : chainSlots disk s.fs clusters s.fs.rootDirCluster.toNat = some slots)
include hdev hslots

theorem fat32ListDir_complete_iff (present : Bool) (maxEntries : Int) :
    ListsComplete (fat32ListDir dev clusters s present maxEntries).1
        (fat32ListDir (fun _ lba => some (disk lba)) clusters s present maxEntries).1 ↔
      ∀ k, LinkLost dev s.time (callLog dev clusters s (.listDir present maxEntries)) k →
        maxEntries ≤
            (visibleSlots (reachedSlots disk s.fs (k + 1) s.fs.rootDirCluster.toNat)).length ∨
          (visibleSlots slots).length ≤
            (visibleSlots (reachedSlots disk s.fs (k + 1) s.fs.rootDirCluster.toNat)).length := by
  by_cases hguard : s.fs.initialized = false ∨ present = false ∨ maxEntries ≤ 0
  · rw [fat32ListDir, fat32ListDir, callLog, if_pos hguard, if_pos hguard, if_pos hguard]
    exact ⟨fun _ k hlost => hlost.elim, fun _ n _ _ => rfl⟩
  · obtain ⟨hinit, rfl, hmax⟩ : s.fs.initialized = true ∧ present = true ∧ 0 < maxEntries := by
      simpa using hguard
    have hentries (slots : List DirEntry) := listScan_entries maxEntries.toNat slots [] (Nat.zero_le _)
    have hreference : (fat32ListDir (fun _ lba => some (disk lba)) clusters s true maxEntries).1 =
        .counted Nat.cast ((listScan maxEntries.toNat).entries slots []).2 := by
      rw [fat32ListDir_serves (fun _ _ => rfl) s hinit hslots maxEntries hmax, Listing.counted,
        hentries]
      simp
      omega
    have hending := (listScan maxEntries.toNat).chain_ending hdev hslots []
    rw [hreference, fat32ListDir, if_neg hguard, callLog, if_neg hguard]
    rcases hchain : (listScan maxEntries.toNat).chain dev clusters s.fs.rootDirCluster.toNat s [] with
      ⟨status, filled, t⟩
    rw [hchain] at hending
    refine (hending.complete_iff ?_ ?_).trans ?_
    · rintro rfl
      rfl
    · rintro rfl
      rfl
    · refine forall_congr' fun k => imp_congr_right fun _ => ?_
      have hstart := visibleSlots_initial (reachedSlots_initial hslots (k + 1))
      rw [forall_prop_of_true (Int.natCast_nonneg _), hentries, hentries]
      simpa using take_info_eq_iff hstart maxEntries.toNat

theorem fat32ListRoot_complete_iff :
    ListsComplete (fat32ListRoot dev clusters s).1
        (fat32ListRoot (fun _ lba => some (disk lba)) clusters s).1 ↔
      ∀ k, LinkLost dev s.time (callLog dev clusters s .listRoot) k →
        2 ^ 31 ≤ (visibleSlots
            (reachedSlots disk s.fs (k + 1) s.fs.rootDirCluster.toNat)).length % 2 ^ 32 ∨
          (visibleSlots slots).length ≤
            (visibleSlots (reachedSlots disk s.fs (k + 1) s.fs.rootDirCluster.toNat)).length := by
  by_cases hguard : s.fs.initialized = false
  · rw [fat32ListRoot, fat32ListRoot, callLog, if_pos hguard, if_pos hguard, if_pos hguard]
    exact ⟨fun _ k hlost => hlost.elim, fun _ n _ _ => rfl⟩
  · have hreference : (fat32ListRoot (fun _ lba => some (disk lba)) clusters s).1 =
        .counted (fun n => toInt32 (n % 2 ^ 32)) (rootScan.entries slots []).2 := by
      rw [fat32ListRoot_serves (fun _ _ => rfl) (by simpa using hguard) hslots, Listing.counted,
        rootScan_entries]
      simp
    have hending := rootScan.chain_ending hdev hslots []
    rw [hreference, fat32ListRoot, if_neg hguard, callLog, if_neg hguard]
    rcases hchain : rootScan.chain dev clusters s.fs.rootDirCluster.toNat s [] with
      ⟨status, shown, t⟩
    rw [hchain] at hending
    refine (hending.complete_iff ?_ ?_).trans ?_
    · rintro rfl
      rfl
    · rintro rfl
      rfl
    · refine forall_congr' fun k => imp_congr_right fun _ => ?_
      have hstart := visibleSlots_initial (reachedSlots_initial hslots (k + 1))
      have heq := take_info_eq_iff hstart (visibleSlots slots).length
      rw [List.take_of_length_le hstart.length_le, List.take_length, or_self] at heq
      rw [rootScan_entries, rootScan_entries, List.nil_append, List.nil_append, heq, List.length_map,
        toInt32]
      split <;> omega

end Complete

/-- A listing is complete or fails, if and only if a lost link hides no visible slot that the call
would have reported. -/
theorem listings_complete_iff (dev : Device) (disk : Nat → Sector) (hdev : dev.Answers disk)
    (s : Fat32) (clusters : Nat) (slots : List DirEntry)
    (hslots : chainSlots disk s.fs clusters s.fs.rootDirCluster.toNat = some slots) :
    (∀ (present : Bool) (maxEntries : Int),
      ListsComplete (fat32ListDir dev clusters s present maxEntries).1
          (fat32ListDir (fun _ lba => some (disk lba)) clusters s present maxEntries).1 ↔
        ∀ k, LinkLost dev s.time (callLog dev clusters s (.listDir present maxEntries)) k →
          maxEntries ≤
              (visibleSlots (reachedSlots disk s.fs (k + 1) s.fs.rootDirCluster.toNat)).length ∨
            (visibleSlots slots).length ≤
              (visibleSlots (reachedSlots disk s.fs (k + 1) s.fs.rootDirCluster.toNat)).length) ∧
      (ListsComplete (fat32ListRoot dev clusters s).1
          (fat32ListRoot (fun _ lba => some (disk lba)) clusters s).1 ↔
        ∀ k, LinkLost dev s.time (callLog dev clusters s .listRoot) k →
          2 ^ 31 ≤ (visibleSlots
              (reachedSlots disk s.fs (k + 1) s.fs.rootDirCluster.toNat)).length % 2 ^ 32 ∨
            (visibleSlots slots).length ≤
              (visibleSlots (reachedSlots disk s.fs (k + 1) s.fs.rootDirCluster.toNat)).length) :=
  ⟨fat32ListDir_complete_iff hdev hslots, fat32ListRoot_complete_iff hdev hslots⟩

/-- A drive with a disk, on which some reads fail. -/
def failingDrive (disk : Nat → Sector) (fails : (time lba : Nat) → Bool) : Device := fun time lba =>
  if fails time lba then none else some (disk lba)

theorem failingDrive_answers (disk : Nat → Sector) (fails : (time lba : Nat) → Bool) :
    (failingDrive disk fails).Answers disk := by
  intro time lba
  unfold failingDrive
  split
  · exact .inl rfl
  · exact .inr rfl

section Linked

/-- The link of a cluster in a chain from cluster 2 to cluster `last`. -/
def linkedEntry (last cluster : Nat) : Nat := if cluster < last then cluster + 1 else clusterMask

/-- A disk with a chain of clusters in a row, whose sectors are filled with one letter. -/
def linkedDisk (last lba : Nat) : Sector := fun i =>
  if lba < 32768 then .ofNat (linkedEntry last (128 * (lba - 32) + i / 4) / 2 ^ (8 * (i % 4)))
  else 0x41

def linkedVolume (sectorsPerCluster : UInt8) : Volume := ⟨sectorsPerCluster, 32, 32768, 2, true⟩

/-- Every slot of a sector that is filled with the letter. -/
def letterEntry : DirEntry := dirEntry (fun _ => 0x41) 0

variable {last : Nat} {spc : UInt8} {c : Nat}

theorem le32_bytes {sector : Sector} {i v : Nat} (hv : v < 2 ^ 32)
    (hbytes : ∀ k < 4, sector (i + k) = .ofNat (v / 2 ^ (8 * k))) : le32 sector i = v := by
  have h0 := hbytes 0 (by omega)
  have h1 := hbytes 1 (by omega)
  have h2 := hbytes 2 (by omega)
  have h3 := hbytes 3 (by omega)
  simp only [Nat.add_zero, Nat.mul_zero, Nat.pow_zero, Nat.div_one] at h0
  simp only [le32, le16, h0, h1, h2, Nat.add_assoc, Nat.reduceAdd, h3, UInt8.toNat_ofNat']
  omega

theorem nextCluster_linked (hlow : 2 ≤ c) (hc : c ≤ last) (hlast : last < 2 ^ 21) :
    nextCluster (linkedDisk last) (linkedVolume spc) c = if c < last then c + 1 else clusterEoc := by
  have hvalid : ¬ (c < 2 ∨ c ≥ clusterReserved) := by
    unfold clusterReserved
    omega
  have hsector : fatSector (linkedVolume spc) c = 32 + c / 128 := by
    simp only [fatSector, linkedVolume, sectorSize, UInt32.reduceToNat]
    omega
  have hword : le32 (linkedDisk last (32 + c / 128)) (entryOffset c * 4) = linkedEntry last c := by
    apply le32_bytes
    · unfold linkedEntry clusterMask
      split <;> omega
    · intro k hk
      have hentry : (entryOffset c * 4 + k) / 4 = c % 128 := by
        unfold entryOffset sectorSize
        omega
      have hbyte : (entryOffset c * 4 + k) % 4 = k := by omega
      rw [linkedDisk, if_pos (by omega), hentry, hbyte]
      congr 3
      omega
  rw [nextCluster, if_neg hvalid, hsector, fatLink, hword, linkedEntry]
  by_cases hmore : c < last
  · simp only [hmore, if_true, clusterMask, clusterEoc]
    rw [show (0x0FFFFFFF : Nat) = 2 ^ 28 - 1 from rfl, Nat.and_two_pow_sub_one_eq_mod,
      Nat.mod_eq_of_lt (by omega), if_neg (by omega)]
  · simp [hmore, clusterMask, clusterEoc]

theorem clusterSlots_linked (hlow : 2 ≤ c) (hc : c < 2 ^ 21) :
    clusterSlots (linkedDisk last) (linkedVolume spc) c =
      List.replicate (16 * spc.toNat) letterEntry := by
  have hspc := spc.toNat_lt
  have hdata : ∀ lba ∈ clusterSectors (linkedVolume spc) c, dirEntries (linkedDisk last lba) =
      List.replicate 16 letterEntry := by
    intro lba hlba
    obtain ⟨i, hi, rfl⟩ := List.mem_map.mp hlba
    have hle : (c - 2) * spc.toNat ≤ 2 ^ 21 * 2 ^ 8 := Nat.mul_le_mul (by omega) (by omega)
    have hsector : 32768 ≤ dataSector (linkedVolume spc) c i := by
      rw [List.mem_range] at hi
      rw [dataSector, fat32ClusterToSector, if_neg (by omega)]
      simp only [linkedVolume, UInt32.reduceToNat] at hi ⊢
      omega
    have hfilled : linkedDisk last (dataSector (linkedVolume spc) c i) = fun _ => 0x41 := by
      funext j
      rw [linkedDisk, if_neg (by omega)]
    rw [hfilled]
    rfl
  rw [clusterSlots, List.eq_replicate_iff]
  constructor
  · have hlength : (clusterSectors (linkedVolume spc) c).map
        (fun lba => (dirEntries (linkedDisk last lba)).length) =
        (clusterSectors (linkedVolume spc) c).map fun _ => 16 := by
      apply List.map_congr_left
      intro lba hlba
      rw [hdata lba hlba, List.length_replicate]
    rw [List.length_flatMap, hlength, List.map_const', List.sum_replicate]
    simp [clusterSectors, linkedVolume, Nat.mul_comm]
  · intro e he
    obtain ⟨lba, hlba, he⟩ := List.mem_flatMap.mp he
    rw [hdata lba hlba] at he
    exact (List.mem_replicate.mp he).2

theorem chainSlots_linked {k : Nat} (hlow : 2 ≤ c) (hc : c + k = last) (hlast : last < 2 ^ 21) :
    chainSlots (linkedDisk last) (linkedVolume spc) (k + 2) c =
      some (List.replicate (16 * spc.toNat * (k + 1)) letterEntry) := by
  induction k generalizing c with
  | zero =>
      rw [chainSlots, if_pos (by unfold clusterEoc; omega),
        nextCluster_linked hlow (by omega) hlast, if_neg (by omega), chainSlots, if_neg (by omega),
        clusterSlots_linked hlow (by omega)]
      simp
  | succ k ih =>
      rw [chainSlots, if_pos (by unfold clusterEoc; omega),
        nextCluster_linked hlow (by omega) hlast, if_pos (by omega), ih (by omega) (by omega),
        clusterSlots_linked hlow (by omega), Option.map_some, List.replicate_append_replicate]
      congr 2
      rw [Nat.mul_succ _ (k + 1), Nat.add_comm]

theorem visibleSlots_letters (n : Nat) :
    visibleSlots (List.replicate n letterEntry) = List.replicate n letterEntry := by
  have hend : ¬ letterEntry.IsEnd := by decide
  have hvisible : letterEntry.Visible := by decide
  simp [visibleSlots, liveSlots, hend, hvisible]

def linkedFat32 (spc : UInt8) : Fat32 := { blankFat32 with fs := linkedVolume spc }

/-- Two clusters of one sector. -/
theorem listings_iff_linked :
    chainSlots (linkedDisk 3) (linkedVolume 1) 3 2 = some (List.replicate 32 letterEntry) ∧
      ListsVisible (fun _ lba => some (linkedDisk 3 lba)) 3 (linkedFat32 1)
        (visibleSlots (List.replicate 32 letterEntry)) := by
  have hslots : chainSlots (linkedDisk 3) (linkedVolume 1) 3 2 =
      some (List.replicate 32 letterEntry) := chainSlots_linked (by decide) rfl (by decide)
  refine ⟨hslots, ?_⟩
  apply (listings_iff _ (linkedDisk 3) (fun _ _ => rfl) (linkedFat32 1) rfl 3 _ hslots).1.mpr
  rw [visibleSlots_letters, List.length_replicate]
  decide

/-- A directory of `2 ^ 31` entries: the counter of `fat32_list_root` overflows. -/
theorem listings_overflow :
    ¬ ∀ (dev : Device) (disk : Nat → Sector), dev.Serves disk → ∀ s : Fat32,
      s.fs.initialized = true → ∀ clusters slots,
      chainSlots disk s.fs clusters s.fs.rootDirCluster.toNat = some slots →
      ListsVisible dev clusters s (visibleSlots slots) := by
  intro hclaim
  have hslots : chainSlots (linkedDisk (2 ^ 20 + 1)) (linkedVolume 128) (2 ^ 20 - 1 + 2) 2 =
      some (List.replicate (16 * (128 : UInt8).toNat * (2 ^ 20 - 1 + 1)) letterEntry) :=
    chainSlots_linked (by decide) (by decide) (by decide)
  have hroot := (hclaim (fun _ lba => some (linkedDisk (2 ^ 20 + 1) lba)) _ (fun _ _ => rfl)
    (linkedFat32 128) rfl _ _ hslots).root
  rw [fat32ListRoot_serves (s := linkedFat32 128) (fun _ _ => rfl) rfl hslots, visibleSlots_letters,
    List.length_replicate] at hroot
  revert hroot
  decide

/-- A drive whose FAT cannot be read. -/
def brokenFat (last : Nat) : Device := failingDrive (linkedDisk last) fun _ lba => lba = 32

theorem visibleSlots_first :
    (visibleSlots (reachedSlots (linkedDisk last) (linkedVolume 1) 1 2)).length = 16 := by
  rw [reachedSlots, if_pos (by decide), reachedSlots, List.append_nil,
    clusterSlots_linked (by decide) (by decide), visibleSlots_letters, List.length_replicate]
  rfl

/-- The link is lost where the caller's buffer is full. -/
theorem listings_complete_full :
    LinkLost (brokenFat 3) 0 (callLog (brokenFat 3) 3 (linkedFat32 1) (.listDir true 16)) 0 ∧
      ListsComplete (fat32ListDir (brokenFat 3) 3 (linkedFat32 1) true 16).1
        (fat32ListDir (fun _ lba => some (linkedDisk 3 lba)) 3 (linkedFat32 1) true 16).1 := by
  have hlog : callLog (brokenFat 3) 3 (linkedFat32 1) (.listDir true 16) =
      [.data 2 32768, .fat 32] := by decide +kernel
  have hslots : chainSlots (linkedDisk 3) (linkedVolume 1) 3 2 =
      some (List.replicate 32 letterEntry) := chainSlots_linked (by decide) rfl (by decide)
  refine ⟨by rw [hlog]; rfl, ?_⟩
  apply ((listings_complete_iff (brokenFat 3) _ (failingDrive_answers _ _) (linkedFat32 1) 3 _
    hslots).1 true 16).mpr
  intro k hlost
  rw [hlog] at hlost
  cases k with
  | zero => exact .inl (Int.ofNat_le.mpr visibleSlots_first.ge)
  | succ k => exact hlost.elim

/-- Two clusters of entries, of which the caller gets the first without an error. -/
theorem listings_cut_short :
    ¬ ∀ (dev : Device) (disk : Nat → Sector), dev.Answers disk → ∀ (s : Fat32) (clusters : Nat) slots,
      chainSlots disk s.fs clusters s.fs.rootDirCluster.toNat = some slots →
      (∀ (present : Bool) (maxEntries : Int),
        ListsComplete (fat32ListDir dev clusters s present maxEntries).1
          (fat32ListDir (fun _ lba => some (disk lba)) clusters s present maxEntries).1) ∧
        ListsComplete (fat32ListRoot dev clusters s).1
          (fat32ListRoot (fun _ lba => some (disk lba)) clusters s).1 := by
  intro hclaim
  have hlost : LinkLost (brokenFat 3) 0 (callLog (brokenFat 3) 3 (linkedFat32 1) .listRoot) 0 := by
    rw [show callLog (brokenFat 3) 3 (linkedFat32 1) .listRoot = [.data 2 32768, .fat 32] by
      decide +kernel]
    rfl
  have hslots : chainSlots (linkedDisk 3) (linkedVolume 1) 3 2 =
      some (List.replicate 32 letterEntry) := chainSlots_linked (by decide) rfl (by decide)
  have hcomplete := (hclaim (brokenFat 3) _ (failingDrive_answers _ _) (linkedFat32 1) 3 _ hslots).2
  have hcut := (fat32ListRoot_complete_iff (s := linkedFat32 1) (failingDrive_answers _ _) hslots).mp
    hcomplete 0 hlost
  have hfirst : (visibleSlots (reachedSlots (linkedDisk 3) (linkedFat32 1).fs (0 + 1)
      (linkedFat32 1).fs.rootDirCluster.toNat)).length = 16 := visibleSlots_first
  rw [hfirst, visibleSlots_letters, List.length_replicate] at hcut
  omega

end Linked

end Magnos
