import Magnos.Fat32.Lookup

/-!
# When the directory walks end

The walks over the root directory have no bound of their own: they follow the links of the FAT
until one of them marks the end, a slot stops them or the caller's buffer is full.  On a chain
that runs in a circle they end only if one of the slots in it makes them.
-/

namespace Magnos

open Framework

variable {Acc : Type} {disk : Nat → Sector} {fs : Volume}

/-- Following the links from a cluster leads to an end mark. -/
def ChainEnds (disk : Nat → Sector) (fs : Volume) (cluster : Nat) : Prop :=
  ∃ k, clusterEoc ≤ (nextCluster disk fs)^[k] cluster

/-- An end marker stands among the slots of a chain. -/
def HasEndMarker (disk : Nat → Sector) (fs : Volume) (cluster : Nat) : Prop :=
  ∃ clusters, ∃ e ∈ reachedSlots disk fs clusters cluster, e.IsEnd

theorem chainSlots_ne_none_iff (cluster : Nat) :
    (∃ clusters, chainSlots disk fs clusters cluster ≠ none) ↔ ChainEnds disk fs cluster := by
  constructor
  · rintro ⟨clusters, hslots⟩
    induction clusters generalizing cluster with
    | zero => exact absurd rfl hslots
    | succ clusters ih =>
        rw [chainSlots] at hslots
        split at hslots
        · obtain ⟨k, hk⟩ := ih _ fun h => hslots (by rw [h]; rfl)
          exact ⟨k + 1, hk⟩
        · next hcluster => exact ⟨0, Nat.le_of_not_lt hcluster⟩
  · rintro ⟨k, hk⟩
    refine ⟨k + 1, ?_⟩
    induction k generalizing cluster with
    | zero =>
        have hout : ¬ cluster < clusterEoc := Nat.not_lt_of_le hk
        rw [chainSlots, if_neg hout]
        simp
    | succ k ih =>
        have hrest := ih _ hk
        rw [chainSlots]
        split
        · rwa [ne_eq, Option.map_eq_none_iff]
        · simp

section Walk

variable (scan : Scan Acc) {dev : Device} (hdev : dev.Serves disk)

/-- Within `clusters` clusters a scan comes to the end of the chain, to a slot that stops it, or
to the point where it wants no more. -/
def Scan.EndsBy (disk : Nat → Sector) (fs : Volume) (clusters cluster : Nat) (acc : Acc) : Prop :=
  chainSlots disk fs clusters cluster ≠ none ∨
    (scan.entries (reachedSlots disk fs clusters cluster) acc).1 = true ∨
    scan.more (scan.entries (reachedSlots disk fs clusters cluster) acc).2 = false

theorem Scan.endsBy_succ {cluster clusters : Nat} {acc acc' : Acc} (hcluster : cluster < clusterEoc)
    (hnext : scan.entries (clusterSlots disk fs cluster) acc = (false, acc')) :
    scan.EndsBy disk fs (clusters + 1) cluster acc ↔
      scan.EndsBy disk fs clusters (nextCluster disk fs cluster) acc' := by
  rw [Scan.EndsBy, chainSlots, if_pos hcluster, reachedSlots, if_pos hcluster, scan.entries_append,
    hnext, ne_eq, Option.map_eq_none_iff]
  exact Iff.rfl

include hdev

theorem Scan.chain_ends_iff (cluster : Nat) (s : Fat32) (acc : Acc) :
    (∃ clusters, (scan.chain dev clusters cluster s acc).1 ≠ .running) ↔
      ∃ clusters, scan.EndsBy disk s.fs clusters cluster acc := by
  constructor
  · rintro ⟨clusters, hends⟩
    induction clusters generalizing cluster s acc with
    | zero => exact absurd rfl hends
    | succ clusters ih =>
        by_cases hcluster : cluster < clusterEoc
        · by_cases hmore : scan.more acc = true
          · cases hfirst : scan.entries (clusterSlots disk s.fs cluster) acc with
            | mk stop acc' =>
                cases stop with
                | true =>
                    refine ⟨1, .inr (.inl ?_)⟩
                    rw [reachedSlots, if_pos hcluster, reachedSlots, List.append_nil, hfirst]
                | false =>
                    obtain ⟨t, hsame, hchain⟩ :=
                      scan.chain_next hdev clusters ⟨hcluster, hmore⟩ hfirst
                    rw [hchain] at hends
                    obtain ⟨k, hk⟩ := ih _ _ _ hends
                    rw [hsame.fs] at hk
                    exact ⟨k + 1, (scan.endsBy_succ hcluster hfirst).mpr hk⟩
          · have hfull : scan.more acc = false := by simpa using hmore
            exact ⟨0, .inr (.inr hfull)⟩
        · refine ⟨1, .inl ?_⟩
          rw [chainSlots, if_neg hcluster]
          simp
  · rintro ⟨clusters, hends⟩
    refine ⟨clusters + 1, ?_⟩
    induction clusters generalizing cluster s acc with
    | zero =>
        have hmore : ¬ (cluster < clusterEoc ∧ scan.more acc = true) := by
          rcases hends with hslots | hstop | hmore
          · exact absurd rfl hslots
          · cases hstop
          · intro hgo
            exact Bool.noConfusion (hgo.2.symm.trans hmore)
        rw [Scan.chain, if_neg hmore]
        exact WalkStatus.noConfusion
    | succ clusters ih =>
        by_cases hgo : cluster < clusterEoc ∧ scan.more acc = true
        · cases hfirst : scan.entries (clusterSlots disk s.fs cluster) acc with
          | mk stop acc' =>
              cases stop with
              | true =>
                  obtain ⟨t, -, hchain⟩ := scan.chain_stop hdev (clusters + 1) hgo hfirst
                  rw [hchain]
                  exact WalkStatus.noConfusion
              | false =>
                  obtain ⟨t, hsame, hchain⟩ := scan.chain_next hdev (clusters + 1) hgo hfirst
                  rw [hchain]
                  apply ih
                  rw [hsame.fs]
                  exact (scan.endsBy_succ hgo.1 hfirst).mp hends
        · rw [Scan.chain, if_neg hgo]
          exact WalkStatus.noConfusion

end Walk

section Slots

variable (slots : List DirEntry)

theorem rootScan_entries_fst (shown : List DirInfo) :
    (rootScan.entries slots shown).1 = true ↔ ∃ e ∈ slots, e.IsEnd := by
  induction slots generalizing shown with
  | nil => simp [Scan.entries]
  | cons e slots ih =>
      have hvisit : rootScan.visit shown e = _ := listScan_visit 0 shown e
      rw [List.exists_mem_cons_iff]
      by_cases hend : e.IsEnd
      · rw [if_pos hend] at hvisit
        rw [Scan.entries_cons_stop _ _ rfl hvisit]
        simp [hend]
      · rw [if_neg hend, ← apply_ite (Prod.mk false)] at hvisit
        rw [Scan.entries_cons_next _ _ rfl hvisit, ih, or_iff_right hend]

theorem listScan_stops_iff (maxEntries : Nat) (filled : List DirInfo) :
    ((listScan maxEntries).entries slots filled).1 = true ∨
        (listScan maxEntries).more ((listScan maxEntries).entries slots filled).2 = false ↔
      (∃ e ∈ slots, e.IsEnd) ∨ maxEntries ≤ filled.length + (visibleSlots slots).length := by
  induction slots generalizing filled with
  | nil => simp [Scan.entries, listScan, visibleSlots, liveSlots]
  | cons e slots ih =>
      have hvisit := listScan_visit maxEntries filled e
      rw [List.exists_mem_cons_iff]
      by_cases hroom : filled.length < maxEntries
      · have hmore : (listScan maxEntries).more filled = true := by simpa [listScan] using hroom
        by_cases hend : e.IsEnd
        · rw [if_pos hend] at hvisit
          rw [Scan.entries_cons_stop _ _ hmore hvisit]
          simp [hend]
        rw [if_neg hend] at hvisit
        by_cases hvisible : e.Visible
        · rw [if_pos hvisible] at hvisit
          rw [Scan.entries_cons_next _ _ hmore hvisit, ih, or_iff_right hend,
            visibleSlots_keep slots hend hvisible, List.length_append, List.length_singleton,
            List.length_cons, Nat.add_assoc, Nat.add_comm 1]
        · rw [if_neg hvisible] at hvisit
          rw [Scan.entries_cons_next _ _ hmore hvisit, ih, or_iff_right hend,
            visibleSlots_skip slots hend hvisible]
      · have hmore : (listScan maxEntries).more filled = false := by simpa [listScan] using hroom
        rw [Scan.entries_of_not_more _ _ _ hmore]
        simp only [hmore, or_true, true_iff]
        exact .inr (by omega)

end Slots

section Calls

variable {dev : Device} (hdev : dev.Serves disk) {s : Fat32} (hinit : s.fs.initialized = true)
include hdev hinit

theorem fat32ListRoot_returns_iff :
    (∃ clusters, (fat32ListRoot dev clusters s).1.ret ≠ none) ↔
      ChainEnds disk s.fs s.fs.rootDirCluster.toNat ∨
        HasEndMarker disk s.fs s.fs.rootDirCluster.toNat := by
  have hstatus : ∀ clusters, (fat32ListRoot dev clusters s).1.ret ≠ none ↔
      (rootScan.chain dev clusters s.fs.rootDirCluster.toNat s []).1 ≠ .running := by
    intro clusters
    rw [fat32ListRoot, if_neg (by simp [hinit])]
    split <;> next heq => simp [heq]
  simp only [hstatus, rootScan.chain_ends_iff hdev, Scan.EndsBy, rootScan_entries_fst]
  rw [exists_or, exists_or, chainSlots_ne_none_iff]
  simp [HasEndMarker, rootScan]

theorem fat32ListDir_returns_iff (present : Bool) (maxEntries : Int) :
    (∃ clusters, (fat32ListDir dev clusters s present maxEntries).1.ret ≠ none) ↔
      present = false ∨ maxEntries ≤ 0 ∨ ChainEnds disk s.fs s.fs.rootDirCluster.toNat ∨
        HasEndMarker disk s.fs s.fs.rootDirCluster.toNat ∨
        ∃ clusters, maxEntries ≤
          (visibleSlots (reachedSlots disk s.fs clusters s.fs.rootDirCluster.toNat)).length := by
  by_cases hready : present = false ∨ maxEntries ≤ 0
  · have hrefused : ∀ clusters, (fat32ListDir dev clusters s present maxEntries).1.ret ≠ none := by
      intro clusters
      rw [fat32ListDir, if_pos (.inr hready)]
      simp
    rw [← or_assoc]
    exact iff_of_true ⟨0, hrefused 0⟩ (.inl hready)
  · have hstatus : ∀ clusters, (fat32ListDir dev clusters s present maxEntries).1.ret ≠ none ↔
        ((listScan maxEntries.toNat).chain dev clusters s.fs.rootDirCluster.toNat s []).1 ≠
          .running := by
      intro clusters
      rw [fat32ListDir, if_neg (by simp only [hinit, Bool.true_eq_false, false_or]; exact hready)]
      split <;> next heq => simp [heq]
    simp only [hstatus, Scan.chain_ends_iff _ hdev, Scan.EndsBy, listScan_stops_iff,
      List.length_nil, Nat.zero_add, Int.toNat_le]
    obtain ⟨hpresent, hmax⟩ := not_or.mp hready
    rw [exists_or, exists_or, chainSlots_ne_none_iff, or_iff_right hpresent, or_iff_right hmax]
    exact Iff.rfl

theorem fat32Open_returns_iff (filename : List UInt8) (hname : (0 : UInt8) ∉ filename) :
    (∃ clusters, (fat32Open dev clusters s filename).1 ≠ none) ↔
      ChainEnds disk s.fs s.fs.rootDirCluster.toNat ∨
        HasEndMarker disk s.fs s.fs.rootDirCluster.toNat ∨
        ∃ clusters, lookupSlot (reachedSlots disk s.fs clusters s.fs.rootDirCluster.toNat)
          (fat32StringToName filename) ≠ none := by
  have hstatus : ∀ clusters, (fat32Open dev clusters s filename).1 ≠ none ↔
      ((openScan (fat32StringToName filename)).chain dev clusters s.fs.rootDirCluster.toNat s
        none).1 ≠ .running := by
    intro clusters
    rw [fat32Open, if_neg (by simp [hinit])]
    split <;> next heq => simp_all
  have hstop := fun clusters =>
    (openScan_reached disk s.fs clusters s.fs.rootDirCluster.toNat hname).2
  simp only [hstatus, Scan.chain_ends_iff _ hdev, Scan.EndsBy, hstop]
  rw [exists_or, exists_or, exists_or, chainSlots_ne_none_iff]
  simp [HasEndMarker, openScan]

end Calls

theorem reachedSlots_deleted {clusters cluster : Nat}
    (hdisk : ∀ k < clusters, ∀ lba ∈ clusterSectors fs ((nextCluster disk fs)^[k] cluster),
      disk lba = fun _ => 0xE5) :
    ∀ e ∈ reachedSlots disk fs clusters cluster, e.Deleted := by
  induction clusters generalizing cluster with
  | zero => simp [reachedSlots]
  | succ clusters ih =>
      intro e he
      rw [reachedSlots] at he
      split at he
      · rcases List.mem_append.mp he with he | he
        · obtain ⟨lba, hlba, he⟩ := List.mem_flatMap.mp he
          obtain ⟨j, -, rfl⟩ := List.mem_map.mp he
          rw [hdisk 0 (Nat.succ_pos _) lba hlba]
          rfl
        · exact ih (fun k hk => hdisk (k + 1) (Nat.succ_lt_succ hk)) e he
      · cases he

theorem DirEntry.Deleted.not_isEnd {e : DirEntry} (hdeleted : e.Deleted) : ¬ e.IsEnd :=
  fun hend => absurd (hend.symm.trans hdeleted) (by decide)

section Circle

/-- A volume whose root cluster links to itself and holds deleted entries only. -/
def circularDisk (lba : Nat) : Sector := fun i =>
  match lba with
  | 0 => sampleBootSector i
  | 1 => if i % 4 = 0 then 2 else 0
  | _ => 0xE5

def circularDevice : Device := fun _ lba => some (circularDisk lba)

theorem circularDevice_serves : circularDevice.Serves circularDisk := fun _ _ => rfl

def circularFat32 : Fat32 :=
  { blankFat32 with
    fs := ⟨1, 1, 2, 2, true⟩
    sectorBuffer := sampleBootSector
    time := 1 }

theorem fat32Init_circular : fat32Init circularDevice blankFat32 = (0, circularFat32) :=
  fat32Init_sample circularDevice_serves rfl blankFat32

theorem nextCluster_circular : nextCluster circularDisk circularFat32.fs 2 = 2 := by decide

theorem reachedSlots_circular (clusters : Nat) :
    ∀ e ∈ reachedSlots circularDisk circularFat32.fs clusters 2, e.Deleted := by
  apply reachedSlots_deleted
  intro k _ lba hlba
  rw [Function.iterate_fixed nextCluster_circular] at hlba
  have hsectors : clusterSectors circularFat32.fs 2 = [2] := by decide
  obtain rfl : lba = 2 := by rwa [hsectors, List.mem_singleton] at hlba
  rfl

theorem not_chainEnds_circular : ¬ ChainEnds circularDisk circularFat32.fs 2 := by
  rintro ⟨k, hk⟩
  rw [Function.iterate_fixed nextCluster_circular] at hk
  exact absurd hk (by decide)

theorem not_hasEndMarker_circular : ¬ HasEndMarker circularDisk circularFat32.fs 2 := by
  rintro ⟨clusters, e, he, hend⟩
  exact (reachedSlots_circular clusters e he).not_isEnd hend

/-- None of the three calls returns on the circular volume. -/
theorem directoryCalls_circular :
    fat32Init circularDevice blankFat32 = (0, circularFat32) ∧
      (∀ clusters, (fat32ListRoot circularDevice clusters circularFat32).1.ret = none) ∧
      (∀ clusters, (fat32ListDir circularDevice clusters circularFat32 true 1).1.ret = none) ∧
      ∀ clusters, (fat32Open circularDevice clusters circularFat32 [0x41]).1 = none := by
  have hvisible : ∀ clusters, visibleSlots
      (reachedSlots circularDisk circularFat32.fs clusters 2) = [] := by
    intro clusters
    rw [visibleSlots, List.filter_eq_nil_iff]
    intro e he hvisible
    exact (of_decide_eq_true hvisible).1.1
      (reachedSlots_circular clusters e ((List.takeWhile_sublist _).subset he))
  have hlookup : ∀ clusters name, lookupSlot
      (reachedSlots circularDisk circularFat32.fs clusters 2) name = none := by
    intro clusters name
    rw [lookupSlot, List.find?_eq_none]
    intro e he hnamed
    exact (of_decide_eq_true hnamed).1.1
      (reachedSlots_circular clusters e ((List.takeWhile_sublist _).subset he))
  refine ⟨fat32Init_circular, ?_, ?_, ?_⟩
  · have hroot := fat32ListRoot_returns_iff circularDevice_serves (s := circularFat32) rfl
    have hnever := mt hroot.mp (not_or.mpr ⟨not_chainEnds_circular, not_hasEndMarker_circular⟩)
    simpa using hnever
  · have hdir := fat32ListDir_returns_iff circularDevice_serves (s := circularFat32) rfl true 1
    have hnever := mt hdir.mp (by
      simp only [Bool.true_eq_false, false_or, not_or]
      refine ⟨by decide, not_chainEnds_circular, not_hasEndMarker_circular, ?_⟩
      rintro ⟨clusters, hfull⟩
      rw [show circularFat32.fs.rootDirCluster.toNat = 2 from rfl, hvisible] at hfull
      exact absurd hfull (by decide))
    simpa using hnever
  · have hopen := fat32Open_returns_iff circularDevice_serves (s := circularFat32) rfl [0x41]
      (by decide)
    have hnever := mt hopen.mp (by
      simp only [not_or]
      refine ⟨not_chainEnds_circular, not_hasEndMarker_circular, ?_⟩
      rintro ⟨clusters, hfound⟩
      exact hfound (hlookup clusters _))
    simpa using hnever

end Circle

/-- On an accepted volume without read errors, the three directory calls end exactly as follows:
all of them if the root chain ends or holds an end marker, and on other chains `fat32_list_dir`
once its buffer is full and `fat32_open` once it has found the name. -/
theorem directoryCalls_terminate_iff (dev : Device) (disk : Nat → Sector) (hdev : dev.Serves disk)
    (s₀ s : Fat32) (hinit : fat32Init dev s₀ = (0, s)) (t : Fat32) (hfs : t.fs = s.fs) :
    ((∃ clusters, (fat32ListRoot dev clusters t).1.ret ≠ none) ↔
      ChainEnds disk s.fs s.fs.rootDirCluster.toNat ∨
        HasEndMarker disk s.fs s.fs.rootDirCluster.toNat) ∧
    (∀ present maxEntries,
      (∃ clusters, (fat32ListDir dev clusters t present maxEntries).1.ret ≠ none) ↔
        present = false ∨ maxEntries ≤ 0 ∨ ChainEnds disk s.fs s.fs.rootDirCluster.toNat ∨
          HasEndMarker disk s.fs s.fs.rootDirCluster.toNat ∨
          ∃ clusters, maxEntries ≤
            (visibleSlots (reachedSlots disk s.fs clusters s.fs.rootDirCluster.toNat)).length) ∧
    ∀ filename : List UInt8, 0 ∉ filename →
      ((∃ clusters, (fat32Open dev clusters t filename).1 ≠ none) ↔
        ChainEnds disk s.fs s.fs.rootDirCluster.toNat ∨
          HasEndMarker disk s.fs s.fs.rootDirCluster.toNat ∨
          ∃ clusters, lookupSlot (reachedSlots disk s.fs clusters s.fs.rootDirCluster.toNat)
            (fat32StringToName filename) ≠ none) := by
  have hready : t.fs.initialized = true := by
    rw [hfs]
    exact fat32Init_initialized hinit
  rw [← hfs]
  exact ⟨fat32ListRoot_returns_iff hdev hready, fat32ListDir_returns_iff hdev hready,
    fat32Open_returns_iff hdev hready⟩

theorem directoryCalls_terminate_iff_circular :
    fat32Init circularDevice blankFat32 = (0, circularFat32) ∧
      ¬ ∃ clusters, (fat32ListRoot circularDevice clusters circularFat32).1.ret ≠ none := by
  refine ⟨fat32Init_circular, ?_⟩
  rw [(directoryCalls_terminate_iff circularDevice circularDisk circularDevice_serves blankFat32
    circularFat32 fat32Init_circular circularFat32 rfl).1]
  exact not_or.mpr ⟨not_chainEnds_circular, not_hasEndMarker_circular⟩

end Magnos
