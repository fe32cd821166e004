import Magnos.Fat32.Listings

/-!
# Reading a file from a drive that fails

A sector of the file that cannot be read ends a call with the bytes before it, and the handle is
left where it stands, so that a later call goes on there.  A sector of the FAT that cannot be read is
taken for the end of the chain: the handle forgets its cluster, and if this happens before the end
of the file no later call delivers anything.
-/

namespace Magnos

open Framework

variable {dev : Device} {disk : Nat → Sector} {cs : List Nat}

/-- How the loop of a read ends that has moved the handle by a number of bytes: on the file, or
without a cluster at the boundary whose link was lost. -/
inductive ReadEnding (cs : List Nat) (csz p : Nat) (lost : Nat → Prop) (moved : Nat) (t : Fat32) : Prop
  | kept (hat : t.At cs (p + moved)) (hlost : ∀ k, ¬ lost k)
  | cut (k : Nat) (hend : p + moved = (p / csz + (k + 1)) * csz)
      (hcluster : t.file.currentCluster.toNat = clusterEoc) (hlost : ∀ j, lost j ↔ j = k)

theorem ReadEnding.inside {csz p n moved : Nat} {lost : Nat → Prop} {t : Fat32}
    (hquot : (p + n) / csz = p / csz) (hrest : ReadEnding cs csz (p + n) lost moved t) :
    ReadEnding cs csz p lost (n + moved) t := by
  cases hrest with
  | kept hat hlost => exact .kept (by rwa [← Nat.add_assoc]) hlost
  | cut k hend hcluster hlost => exact .cut k (by rw [← Nat.add_assoc, hend, hquot]) hcluster hlost

theorem ReadEnding.link {csz p n moved : Nat} {lost lost' : Nat → Prop} {t : Fat32}
    (hquot : (p + n) / csz = p / csz + 1) (hbehind : LostBehind lost lost')
    (hrest : ReadEnding cs csz (p + n) lost moved t) : ReadEnding cs csz p lost' (n + moved) t := by
  cases hrest with
  | kept hat hlost => exact .kept (by rwa [← Nat.add_assoc]) (hbehind.none hlost)
  | cut k hend hcluster hlost =>
      refine .cut (k + 1) ?_ hcluster (hbehind.single hlost)
      rw [← Nat.add_assoc, hend, hquot, Nat.add_assoc, Nat.add_comm 1]

theorem readLog_done (rounds : Nat) (s : Fat32) (left : Nat)
    (hdone : ¬ (left > 0 ∧ s.file.currentCluster.toNat < clusterEoc)) :
    readLog dev rounds s left = [] := by
  cases rounds with
  | zero => rfl
  | succ rounds => rw [readLog, if_neg hdone]

section Rounds

variable (hdev : dev.Answers disk) {s : Fat32}
include hdev

theorem advance_boundary {n : Nat}
    (hend : (UInt32.ofNat (s.file.position.toNat + n)).toNat % clusterSize s.fs = 0)
    (hvalid : 2 ≤ s.file.currentCluster.toNat ∧ s.file.currentCluster.toNat < clusterReserved) :
    advanceLog s n = [.fat (fatSector s.fs s.file.currentCluster.toNat)] ∧
      (dev s.time (fatSector s.fs s.file.currentCluster.toNat) = none ∧
          (advance dev s n).file.currentCluster.toNat = clusterEoc ∨
        dev s.time (fatSector s.fs s.file.currentCluster.toNat) ≠ none ∧
          (advance dev s n).file = { s.file with
            position := .ofNat (s.file.position.toNat + n)
            currentCluster := .ofNat (nextCluster disk s.fs s.file.currentCluster.toNat) }) := by
  rcases fat32GetNextCluster_cases hdev
      { s with file := { s.file with position := .ofNat (s.file.position.toNat + n) } }
      s.file.currentCluster.toNat with ⟨hlog, -⟩ | ⟨hlog, ⟨hnone, hget⟩ | ⟨hsome, hget⟩⟩
  · rw [nextClusterLog, if_neg (by omega)] at hlog
    cases hlog
  · refine ⟨by rw [advanceLog, if_pos hend]; exact hlog, .inl ⟨hnone, ?_⟩⟩
    simp only [advance]
    rw [if_pos hend, hget]
    rfl
  · refine ⟨by rw [advanceLog, if_pos hend]; exact hlog, .inr ⟨by simp [hsome], ?_⟩⟩
    simp only [advance]
    rw [if_pos hend, hget]

variable {first : Nat} (hcsz : 0 < clusterSize s.fs)
  (hchain : FileChain disk s.fs first s.file.size.toNat cs)
include hcsz hchain

theorem readLoop_advance {contents : List UInt8} {n left p : Nat} (rounds : Nat) (hat : s.At cs p)
    (hp : p < s.file.size.toNat) (hn : p + n ≤ s.file.size.toNat) (hpos : 0 < n)
    (hcluster : p % clusterSize s.fs + n ≤ clusterSize s.fs)
    (ih : (advance dev s n).At cs (p + n) →
      (readLoop dev rounds (advance dev s n) left).1 = (contents.drop (p + n)).take
          (readLoop dev rounds (advance dev s n) left).1.length ∧
        ReadEnding cs (clusterSize s.fs) (p + n)
          (LinkLost dev (advance dev s n).time (readLog dev rounds (advance dev s n) left))
          (readLoop dev rounds (advance dev s n) left).1.length
          (readLoop dev rounds (advance dev s n) left).2.2) :
    (readLoop dev rounds (advance dev s n) left).1 = (contents.drop (p + n)).take
        (readLoop dev rounds (advance dev s n) left).1.length ∧
      ReadEnding cs (clusterSize s.fs) p
        (LinkLost dev s.time (advanceLog s n ++ readLog dev rounds (advance dev s n) left))
        (n + (readLoop dev rounds (advance dev s n) left).1.length)
        (readLoop dev rounds (advance dev s n) left).2.2 := by
  have hsize := s.file.size.toNat_lt
  have hposition : (UInt32.ofNat (s.file.position.toNat + n)).toNat = p + n := by
    rw [hat.position]
    exact UInt32.toNat_ofNat_of_lt' (show p + n < 2 ^ 32 by omega)
  have htime := advanceLog_time dev s n
  by_cases hend : (p + n) % clusterSize s.fs = 0
  · have hquot := add_div_of_boundary hcsz hcluster hpos hend
    have hvalid := hchain.valid _ (List.mem_of_getElem? (hat.cluster hp))
    obtain ⟨hlog, ⟨hnone, heoc⟩ | ⟨hsome, hadv⟩⟩ :=
      advance_boundary hdev (n := n) (by rw [hposition]; exact hend) hvalid
    · have hdone : ¬ (left > 0 ∧ (advance dev s n).file.currentCluster.toNat < clusterEoc) := by
        rw [heoc]
        exact fun h => Nat.lt_irrefl _ h.2
      rw [hlog, readLog_done _ _ _ hdone, readLoop_done _ _ _ hdone]
      refine ⟨rfl, .cut 0 ?_ heoc ?_⟩
      · rw [List.length_nil, Nat.add_zero, ← hquot]
        exact (Nat.div_mul_cancel (Nat.dvd_of_mod_eq_zero hend)).symm
      · intro j
        cases j with
        | zero => simpa [LinkLost] using hnone
        | succ j => simp [LinkLost]
    · obtain ⟨hbytes, hrest⟩ :=
        ih (advance_at hchain hcsz p n hat hp hn hpos hcluster fun _ => hadv)
      rw [htime, hlog] at hrest
      rw [hlog]
      refine ⟨hbytes, hrest.link hquot ⟨?_, fun k => Iff.rfl⟩⟩
      simpa [LinkLost] using hsome
  · have hlog : advanceLog s n = [] := by rw [advanceLog, if_neg (by rw [hposition]; exact hend)]
    obtain ⟨hbytes, hrest⟩ := ih (advance_at hchain hcsz p n hat hp hn hpos hcluster fun h =>
      absurd (by rwa [hposition] at h) hend)
    rw [htime, hlog] at hrest
    rw [hlog]
    exact ⟨hbytes, hrest.inside (add_div_of_inside hcsz hcluster hend)⟩

end Rounds

/-- Whatever reads fail, the loop delivers bytes of the file from the handle's position on, and it
keeps the handle on the file unless it loses a link. -/
theorem readLoop_ending (hdev : dev.Answers disk) {s : Fat32} {first : Nat} (rounds left p : Nat)
    (hcsz : 0 < clusterSize s.fs) (hchain : FileChain disk s.fs first s.file.size.toNat cs)
    (hat : s.At cs p) (hleft : p + left ≤ s.file.size.toNat) :
    (readLoop dev rounds s left).1 = ((fileBytes disk s.fs cs s.file.size.toNat).drop p).take
        (readLoop dev rounds s left).1.length ∧
      ReadEnding cs (clusterSize s.fs) p (LinkLost dev s.time (readLog dev rounds s left))
        (readLoop dev rounds s left).1.length (readLoop dev rounds s left).2.2 := by
  induction rounds generalizing s left p with
  | zero => exact ⟨by simp [readLoop], .kept hat fun k => id⟩
  | succ rounds ih =>
      by_cases hzero : left = 0
      · have hdone : ¬ (left > 0 ∧ s.file.currentCluster.toNat < clusterEoc) := by omega
        rw [readLoop_done _ _ _ hdone, readLog_done _ _ _ hdone]
        exact ⟨by simp, .kept hat fun k => id⟩
      · have hp : p < s.file.size.toNat := by omega
        have hcur := hat.cluster hp
        have hvalid := hchain.valid _ (List.mem_of_getElem? hcur)
        have hloop : left > 0 ∧ s.file.currentCluster.toNat < clusterEoc := by
          unfold clusterReserved at hvalid
          unfold clusterEoc
          omega
        rw [readLoop, if_pos hloop, if_neg (by omega), readLog, if_pos hloop, if_neg (by omega)]
        rcases hread : ideRead dev s (positionSector s) with ⟨ok, t⟩
        cases ok with
        | false =>
            have hsame := ideRead_sameFile dev s (positionSector s)
            rw [hread] at hsame
            refine ⟨by simp, .kept ⟨?_, ?_⟩ fun k => id⟩
            · dsimp only
              rw [hsame.file]
              exact hat.position
            · dsimp only
              rw [hsame.fs, hsame.file]
              exact hat.cluster
        | true =>
            obtain rfl := ideRead_answers hdev hread
            dsimp only
            rw [hat.position]
            obtain ⟨hnleft, hncluster, hnsector⟩ := bytesInSector_le (clusterSize s.fs) p left
            have hnpos := bytesInSector_pos (clusterSize s.fs) p left hcsz (by omega)
            rw [Nat.max_eq_left (Nat.mod_lt p hcsz).le] at hncluster
            set n := bytesInSector (clusterSize s.fs) p left
            set t : Fat32 := { s with sectorBuffer := disk (positionSector s), time := s.time + 1 }
              with ht
            have hadv := advance_sameOpen dev t n
            obtain ⟨hbytes, hending⟩ := readLoop_advance (s := t) hdev hcsz hchain rounds
              ⟨hat.position, hat.cluster⟩ hp (show p + n ≤ s.file.size.toNat by omega) hnpos hncluster
              fun hat' => by
                have hrest := ih (s := advance dev t n) (left - n) (p + n)
                  (by rw [hadv.fs]; exact hcsz) (by rw [hadv.fs, hadv.size]; exact hchain) hat'
                  (by rw [hadv.size]; show p + n + (left - n) ≤ s.file.size.toNat; omega)
                rwa [hadv.fs, hadv.size] at hrest
            have hslice := fileBytes_slice disk s.fs cs s.file.size.toNat p n _ hcur (by omega)
              hncluster hnsector hcsz
            rw [← positionSector_at hchain hcsz hat hp] at hslice
            have hlength : (copyBytes (disk (positionSector s)) (p % clusterSize s.fs % sectorSize)
                n).length = n := by simp [copyBytes]
            rw [List.length_append, hlength, ← hslice]
            refine ⟨?_, hending⟩
            rw [List.take_add, List.drop_drop, ← hbytes]

/-- A request that neither wraps around nor delivers more bytes than an `int` counts. -/
def RequestFits (s : Fat32) (size : UInt32) : Prop :=
  ReadFits s.file size.toNat ∧
    min size.toNat (s.file.size.toNat - s.file.position.toNat) < 2 ^ 31

/-- The links that a read loses are at the end of the file or behind it. -/
def LinksKept (dev : Device) (s : Fat32) (size : UInt32) : Prop :=
  ∀ k, LinkLost dev s.time (callLog dev 0 s (.read size)) k →
    s.file.size.toNat ≤
      (s.file.position.toNat / clusterSize s.fs + (k + 1)) * clusterSize s.fs

/-- A read returns the number of bytes by which it moves the handle, and they are those of the file. -/
structure ReadDelivers (dev : Device) (contents : List UInt8) (s : Fat32) (size : UInt32) : Prop where
  ret : (fat32Read dev s size.toNat).1.ret =
    some ((fat32Read dev s size.toNat).1.bytes.length : Int)
  position : (fat32Read dev s size.toNat).2.file.position.toNat =
    s.file.position.toNat + (fat32Read dev s size.toNat).1.bytes.length
  bytes : (fat32Read dev s size.toNat).1.bytes =
    (contents.drop s.file.position.toNat).take (fat32Read dev s size.toNat).1.bytes.length

/-- A handle of a file, inside it and on the cluster of its position. -/
structure Fat32.OnFile (disk : Nat → Sector) (cs : List Nat) (contents : List UInt8) (s : Fat32) :
    Prop where
  initialized : s.fs.initialized = true
  valid : s.file.valid = true
  sectors : 0 < clusterSize s.fs
  chain : FileChain disk s.fs s.file.firstCluster.toNat s.file.size.toNat cs
  within : s.file.position.toNat ≤ s.file.size.toNat
  standing : s.At cs s.file.position.toNat
  bytes : fileBytes disk s.fs cs s.file.size.toNat = contents

section Calls

variable {s : Fat32} {contents : List UInt8}

theorem fat32Read_ending (hdev : dev.Answers disk) (hon : s.OnFile disk cs contents) {size : UInt32}
    (hfits : RequestFits s size) :
    ReadDelivers dev contents s size ∧
      ReadEnding cs (clusterSize s.fs) s.file.position.toNat
        (LinkLost dev s.time (callLog dev 0 s (.read size)))
        (fat32Read dev s size.toNat).1.bytes.length (fat32Read dev s size.toNat).2 := by
  have hready : ¬ (s.file.valid = false ∨ s.fs.initialized = false) := by
    simp [hon.valid, hon.initialized]
  have hlt := s.file.size.toNat_lt
  have hwithin := hon.within
  have hrest := bytesToRead_le_rest hon.within hfits.1
  have hasked := bytesToRead_le hon.within size.toNat_lt
  have hint := hfits.2
  have hread : fat32Read dev s size.toNat =
      (⟨(readLoop dev (bytesToRead s.file size.toNat) s (bytesToRead s.file size.toNat)).1,
        some (toInt32 (readLoop dev (bytesToRead s.file size.toNat) s
          (bytesToRead s.file size.toNat)).1.length)⟩,
        (readLoop dev (bytesToRead s.file size.toNat) s (bytesToRead s.file size.toNat)).2.2) := by
    rw [fat32Read, if_neg hready]
    dsimp only
    rw [readLoop_fault _ _ _ hon.sectors.ne']
    rfl
  obtain ⟨hbytes, hending⟩ := readLoop_ending hdev (bytesToRead s.file size.toNat)
    (bytesToRead s.file size.toNat) s.file.position.toNat hon.sectors hon.chain hon.standing (by omega)
  have hlength := readLoop_length_le dev (bytesToRead s.file size.toNat) s
    (bytesToRead s.file size.toNat)
  rw [callLog, if_neg hready, hread]
  refine ⟨⟨?_, ?_, ?_⟩, hending⟩
  · rw [hread, toInt32, if_pos (by omega)]
  · rw [hread]
    dsimp only
    rw [readLoop_position, Nat.mod_eq_of_lt (by omega)]
  · rw [hread, ← hon.bytes]
    exact hbytes

theorem Fat32.OnFile.read (hdev : dev.Answers disk) (hon : s.OnFile disk cs contents) {size : UInt32}
    (hfits : RequestFits s size) (hkept : LinksKept dev s size) :
    (fat32Read dev s size.toNat).2.OnFile disk cs contents := by
  obtain ⟨hdelivers, hending⟩ := fat32Read_ending hdev hon hfits
  have hsame := fat32Read_sameOpen dev s size.toNat
  have hposition := hdelivers.position
  have hwithin := (fat32Read_within dev s hon.within hfits.1).2
  refine ⟨by rw [hsame.fs]; exact hon.initialized, by rw [hsame.valid]; exact hon.valid,
    by rw [hsame.fs]; exact hon.sectors,
    by rw [hsame.fs, hsame.firstCluster, hsame.size]; exact hon.chain, hwithin, ?_,
    by rw [hsame.fs, hsame.size]; exact hon.bytes⟩
  rw [hposition]
  cases hending with
  | kept hat _ => exact hat
  | cut k hend hcluster hlost =>
      refine ⟨hposition, ?_⟩
      intro hmore
      have hpast := hkept k ((hlost k).mpr rfl)
      rw [hsame.size] at hmore
      omega

end Calls

end Magnos
