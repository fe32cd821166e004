import Magnos.Fat32.Directory
import Magnos.Fat32.Read

/-!
# Reading a file in pieces

A file that has been opened is read by any sequence of requests, with directory listings in
between.  Each request delivers the next bytes of the file, as many as it asks for or as
there are left.
-/

namespace Magnos

open Framework

/-- A call between opening a file and opening the next one. -/
inductive FileCall where
  | read (size : UInt32)
  | listDir (clusters : Nat) (present : Bool) (maxEntries : Int)

/-- The results of the reads among the calls. -/
def session (dev : Device) : List FileCall → Fat32 → List ReadResult
  | [], _ => []
  | .read size :: calls, s =>
      (fat32Read dev s size.toNat).1 :: session dev calls (fat32Read dev s size.toNat).2
  | .listDir clusters present maxEntries :: calls, s =>
      session dev calls (fat32ListDir dev clusters s present maxEntries).2

/-- The state after the calls. -/
def sessionEnd (dev : Device) : List FileCall → Fat32 → Fat32
  | [], s => s
  | .read size :: calls, s => sessionEnd dev calls (fat32Read dev s size.toNat).2
  | .listDir clusters present maxEntries :: calls, s =>
      sessionEnd dev calls (fat32ListDir dev clusters s present maxEntries).2

/-- The sizes requested by the reads. -/
def requests : List FileCall → List Nat
  | [] => []
  | .read size :: calls => size.toNat :: requests calls
  | .listDir .. :: calls => requests calls

/-- What the requests have to return from position `p` of a file on. -/
def expectedReads (contents : List UInt8) : Nat → List Nat → List ReadResult
  | _, [] => []
  | p, n :: ns =>
      ⟨(contents.drop p).take n, some (min n (contents.length - p) : Nat)⟩ ::
        expectedReads contents (p + min n (contents.length - p)) ns

/-- No request reaches beyond the 32-bit addresses of the file. -/
def RequestsFit (length : Nat) : Nat → List Nat → Prop
  | _, [] => True
  | p, n :: ns => p + n < 2 ^ 32 ∧ RequestsFit length (p + min n (length - p)) ns

theorem expectedReads_bytes (contents : List UInt8) (p : Nat) (ns : List Nat)
    (hp : p ≤ contents.length) :
    (expectedReads contents p ns).flatMap ReadResult.bytes = (contents.drop p).take ns.sum := by
  induction ns generalizing p with
  | nil => simp [expectedReads]
  | cons n ns ih =>
      have hnext : p + min n (contents.length - p) ≤ contents.length := by omega
      rw [expectedReads, List.flatMap_cons, ih _ hnext, List.sum_cons, List.take_add,
        List.drop_drop]
      by_cases hn : n ≤ contents.length - p
      · rw [Nat.min_eq_left hn]
      · have hall : contents.length ≤ p + n := by omega
        have hend : contents.length ≤ p + min n (contents.length - p) := by omega
        rw [List.drop_eq_nil_of_le hend, List.drop_eq_nil_of_le hall]

variable {dev : Device} {disk : Nat → Sector} {s : Fat32} {first : Nat} {cs : List Nat}

theorem session_append (dev : Device) (calls calls' : List FileCall) (s : Fat32) :
    session dev (calls ++ calls') s =
        session dev calls s ++ session dev calls' (sessionEnd dev calls s) ∧
      sessionEnd dev (calls ++ calls') s = sessionEnd dev calls' (sessionEnd dev calls s) := by
  induction calls generalizing s with
  | nil => exact ⟨rfl, rfl⟩
  | cons call calls ih =>
      cases call with
      | read size =>
          obtain ⟨hreads, hend⟩ := ih (fat32Read dev s size.toNat).2
          exact ⟨congrArg (_ :: ·) hreads, hend⟩
      | listDir clusters present maxEntries => exact ih _

theorem sessionEnd_fs (calls : List FileCall) (s : Fat32) :
    (sessionEnd dev calls s).fs = s.fs := by
  induction calls generalizing s with
  | nil => rfl
  | cons call calls ih =>
      cases call with
      | read size => exact (ih _).trans (fat32Read_sameOpen dev s size.toNat).fs
      | listDir clusters present maxEntries =>
          exact (ih _).trans (fat32ListDir_sameFile dev clusters s present maxEntries).fs

theorem session_congr (hdev : dev.Serves disk) (calls : List FileCall) {s t : Fat32}
    (hsame : s.SameFile t) :
    session dev calls t = session dev calls s ∧
      (sessionEnd dev calls s).SameFile (sessionEnd dev calls t) := by
  induction calls generalizing s t with
  | nil => exact ⟨rfl, hsame⟩
  | cons call calls ih =>
      cases call with
      | read size =>
          obtain ⟨hresult, hnext⟩ := fat32Read_congr hdev hsame size.toNat
          obtain ⟨hreads, hend⟩ := ih hnext
          rw [session, session, hresult, hreads]
          exact ⟨rfl, hend⟩
      | listDir clusters present maxEntries =>
          have hs := fat32ListDir_sameFile dev clusters s present maxEntries
          have ht := fat32ListDir_sameFile dev clusters t present maxEntries
          exact ih ⟨ht.fs.trans (hsame.fs.trans hs.fs.symm),
            ht.file.trans (hsame.file.trans hs.file.symm)⟩

theorem fileBytes_length (hchain : FileChain disk s.fs first s.file.size.toNat cs) :
    (fileBytes disk s.fs cs s.file.size.toNat).length = s.file.size.toNat := by
  have henough := hchain.enough
  rw [fileBytes, List.length_take, length_flatMap_const cs fun _ _ => clusterBytes_length _ _ _]
  exact Nat.min_eq_left henough

theorem fat32Read_spec (hdev : dev.Serves disk)
    (hchain : FileChain disk s.fs first s.file.size.toNat cs) (hcsz : 0 < clusterSize s.fs)
    (hvalid : s.file.valid = true) (hinit : s.fs.initialized = true) (p n : Nat) (hat : s.At cs p)
    (hp : p ≤ s.file.size.toNat) (hn : p + n < 2 ^ 32)
    (hsize : min n (s.file.size.toNat - p) < 2 ^ 31) :
    (fat32Read dev s n).1 = ⟨((fileBytes disk s.fs cs s.file.size.toNat).drop p).take n,
        some (min n (s.file.size.toNat - p) : Nat)⟩ ∧
      (fat32Read dev s n).2.At cs (p + min n (s.file.size.toNat - p)) := by
  have hlen := fileBytes_length hchain
  have hleft : bytesToRead s.file n = min n (s.file.size.toNat - p) := by
    have hsub : sub32 s.file.size.toNat p = s.file.size.toNat - p :=
      sub32_of_le hp s.file.size.toNat_lt
    rw [bytesToRead, hat.position, Nat.mod_eq_of_lt hn, hsub]
    split <;> omega
  obtain ⟨hbytes, hfault, hat'⟩ := readLoop_spec hdev (min n (s.file.size.toNat - p))
    (min n (s.file.size.toNat - p)) p hchain hcsz hat (by omega) (Nat.le_refl _)
  have htake : ((fileBytes disk s.fs cs s.file.size.toNat).drop p).take
      (min n (s.file.size.toNat - p)) =
      ((fileBytes disk s.fs cs s.file.size.toNat).drop p).take n := by
    apply List.take_eq_take_iff.mpr
    rw [List.length_drop, hlen]
    omega
  have hret : toInt32 (((fileBytes disk s.fs cs s.file.size.toNat).drop p).take n).length =
      (min n (s.file.size.toNat - p) : Nat) := by
    rw [List.length_take, List.length_drop, hlen, toInt32, if_pos (by omega)]
  have hread : fat32Read dev s n =
      (⟨(readLoop dev (min n (s.file.size.toNat - p)) s (min n (s.file.size.toNat - p))).1,
        some (toInt32 (readLoop dev (min n (s.file.size.toNat - p)) s
          (min n (s.file.size.toNat - p))).1.length)⟩,
        (readLoop dev (min n (s.file.size.toNat - p)) s (min n (s.file.size.toNat - p))).2.2) := by
    rw [fat32Read, if_neg (by simp [hvalid, hinit]), hleft]
    simp only [hfault]
    rfl
  rw [hread, hbytes, htake, hret]
  exact ⟨rfl, hat'⟩

theorem session_spec (hdev : dev.Serves disk) (calls : List FileCall) (p : Nat)
    (hchain : FileChain disk s.fs first s.file.size.toNat cs) (hcsz : 0 < clusterSize s.fs)
    (hsize : s.file.size.toNat < 2 ^ 31) (hvalid : s.file.valid = true)
    (hinit : s.fs.initialized = true) (hat : s.At cs p) (hp : p ≤ s.file.size.toNat)
    (hfit : RequestsFit s.file.size.toNat p (requests calls)) :
    session dev calls s =
      expectedReads (fileBytes disk s.fs cs s.file.size.toNat) p (requests calls) := by
  induction calls generalizing s p with
  | nil => rfl
  | cons call calls ih =>
      cases call with
      | read size =>
          obtain ⟨hn, hfit⟩ := hfit
          have hsame := fat32Read_sameOpen dev s size.toNat
          obtain ⟨hresult, hat'⟩ :=
            fat32Read_spec hdev hchain hcsz hvalid hinit p size.toNat hat hp hn (by omega)
          have hrest := ih (s := (fat32Read dev s size.toNat).2) _
            (by rw [hsame.fs, hsame.size]; exact hchain) (by rw [hsame.fs]; exact hcsz)
            (by rw [hsame.size]; exact hsize) (by rw [hsame.valid]; exact hvalid)
            (by rw [hsame.fs]; exact hinit) hat' (by rw [hsame.size]; omega)
            (by rw [hsame.size]; exact hfit)
          rw [hsame.fs, hsame.size] at hrest
          rw [session, hresult, hrest, requests, expectedReads, fileBytes_length hchain]
      | listDir clusters present maxEntries =>
          have hsame := fat32ListDir_sameFile dev clusters s present maxEntries
          have hrest := ih (s := (fat32ListDir dev clusters s present maxEntries).2) p
            (by rw [hsame.fs, hsame.file]; exact hchain) (by rw [hsame.fs]; exact hcsz)
            (by rw [hsame.file]; exact hsize) (by rw [hsame.file]; exact hvalid)
            (by rw [hsame.fs]; exact hinit)
            ⟨by rw [hsame.file]; exact hat.position, by rw [hsame.fs, hsame.file]; exact hat.cluster⟩
            (by rw [hsame.file]; exact hp) (by rw [hsame.file]; exact hfit)
          rw [hsame.fs, hsame.file] at hrest
          rw [session, hrest, requests]

/-- A handle that has just been returned stands at the start of its file. -/
theorem fat32Open_at {s t : Fat32} {clusters : Nat} {filename : List UInt8}
    (hopen : fat32Open dev clusters s filename = (some true, t))
    (hchain : FileChain disk t.fs t.file.firstCluster.toNat t.file.size.toNat cs) :
    t.fs.initialized = true ∧ t.file.valid = true ∧ t.At cs 0 := by
  obtain ⟨hfs, hinit, e, hfile⟩ := fat32Open_opened hopen
  refine ⟨by rw [hfs]; exact hinit, by rw [hfile]; rfl, by rw [hfile]; rfl, ?_⟩
  intro hpos
  have hhead := hchain.head
  have henough := hchain.enough
  cases cs with
  | nil => simp at henough; omega
  | cons c cs =>
      have hfirst : t.file.firstCluster.toNat = c := hhead c rfl
      have hcurrent : t.file.currentCluster = t.file.firstCluster := by rw [hfile]; rfl
      rw [Nat.zero_div, hcurrent, hfirst]
      rfl

theorem session_opened (hdev : dev.Serves disk) {s t : Fat32} {clusters : Nat}
    {filename : List UInt8} (hopen : fat32Open dev clusters s filename = (some true, t))
    (hchain : FileChain disk t.fs t.file.firstCluster.toNat t.file.size.toNat cs)
    (hspc : 1 ≤ t.fs.sectorsPerCluster.toNat) (hsize : t.file.size.toNat < 2 ^ 31)
    (calls : List FileCall) (hfit : RequestsFit t.file.size.toNat 0 (requests calls)) :
    session dev calls t =
      expectedReads (fileBytes disk t.fs cs t.file.size.toNat) 0 (requests calls) := by
  obtain ⟨hinit, hvalid, hat⟩ := fat32Open_at hopen hchain
  have hcsz : 0 < clusterSize t.fs := Nat.mul_pos (by omega) (by decide)
  exact session_spec hdev calls 0 hchain hcsz hsize hvalid hinit hat (Nat.zero_le _) hfit

/-- Opening a file and reading it in pieces, with directory listings in between. -/
theorem openedSession_reads (dev : Device) (disk : Nat → Sector) (hdev : dev.Serves disk)
    (s t : Fat32) (clusters : Nat) (filename : List UInt8)
    (hopen : fat32Open dev clusters s filename = (some true, t)) (cs : List Nat)
    (hchain : FileChain disk t.fs t.file.firstCluster.toNat t.file.size.toNat cs)
    (hspc : 1 ≤ t.fs.sectorsPerCluster.toNat) (hsize : t.file.size.toNat < 2 ^ 31)
    (calls : List FileCall) (hfit : RequestsFit t.file.size.toNat 0 (requests calls)) :
    session dev calls t =
        expectedReads (fileBytes disk t.fs cs t.file.size.toNat) 0 (requests calls) ∧
      (session dev calls t).flatMap ReadResult.bytes =
        (fileBytes disk t.fs cs t.file.size.toNat).take
          (min (requests calls).sum t.file.size.toNat) := by
  have hsession := session_opened hdev hopen hchain hspc hsize calls hfit
  refine ⟨hsession, ?_⟩
  have hlen := fileBytes_length hchain
  rw [hsession, expectedReads_bytes _ _ _ (Nat.zero_le _), List.drop_zero]
  apply List.take_eq_take_iff.mpr
  rw [hlen]
  omega

/-- A disk with one file: the root directory in cluster 2 names `A`, one byte in cluster 3. -/
def sampleDisk (lba : Nat) : Sector := fun i =>
  match lba with
  | 1 => if i % 4 = 3 then 0x0F else 0xFF
  | 2 =>
      if i = 0 then 0x41
      else if i < 11 then 0x20
      else if i = 11 then 0x20
      else if i = 26 then 3
      else if i = 28 then 1
      else 0
  | 3 => 0x58
  | _ => 0

def sampleFat32 : Fat32 where
  fs := ⟨1, 1, 2, 2, true⟩
  sectorBuffer _ := 0
  file := ⟨0, 0, 0, 0, 0, false⟩
  time := 0

/-- A disk with one file of 600 bytes in the clusters 3 and 4. -/
def splitDisk (lba : Nat) : Sector := fun i =>
  match lba with
  | 1 => if i / 4 = 3 then (if i % 4 = 0 then 4 else 0) else if i % 4 = 3 then 0x0F else 0xFF
  | 2 =>
      if i = 0 then 0x41
      else if i < 11 then 0x20
      else if i = 11 then 0x20
      else if i = 26 then 3
      else if i = 28 then 0x58
      else if i = 29 then 2
      else 0
  | _ => 0x58

def splitServing : Device := fun _ lba => some (splitDisk lba)

theorem clusterBytes_split (c : Nat) (hc : c = 3 ∨ c = 4) :
    clusterBytes splitDisk sampleFat32.fs c = List.replicate 512 0x58 := by
  have hsector : sectorBytes (fun _ => 0x58) = List.replicate 512 0x58 := by
    rw [sectorBytes, List.map_const', List.length_range, sectorSize]
  have hone : clusterBytes splitDisk sampleFat32.fs c = sectorBytes (splitDisk c) := by
    rcases hc with rfl | rfl <;> exact List.append_nil _
  rcases hc with rfl | rfl <;> exact hone.trans hsector

theorem openedSession_reads_sample :
    (fat32Open splitServing 1 sampleFat32 [0x41]).1 = some true ∧
      (session splitServing [.read 500, .listDir 1 true 4, .read 200]
        (fat32Open splitServing 1 sampleFat32 [0x41]).2).flatMap ReadResult.bytes =
          List.replicate 600 0x58 := by
  have hopen : (fat32Open splitServing 1 sampleFat32 [0x41]).1 = some true := by decide
  have hfile : (fat32Open splitServing 1 sampleFat32 [0x41]).2.file =
      ⟨3, 3, 600, 0, 0x20, true⟩ := by
    decide
  have hfs : (fat32Open splitServing 1 sampleFat32 [0x41]).2.fs = sampleFat32.fs := by decide
  have hchain : FileChain splitDisk sampleFat32.fs 3 600 [3, 4] := by
    refine ⟨?_, ?_, ?_, ?_, ?_, ?_⟩ <;> decide
  have hreads := (openedSession_reads splitServing splitDisk (fun _ _ => rfl) sampleFat32
    (fat32Open splitServing 1 sampleFat32 [0x41]).2 1 [0x41] (Prod.ext hopen rfl) [3, 4]
    (by rw [hfs, hfile]; exact hchain) (by rw [hfs]; decide) (by rw [hfile]; decide)
    [.read 500, .listDir 1 true 4, .read 200] (by rw [hfile]; simp [requests, RequestsFit])).2
  have hcontents : fileBytes splitDisk sampleFat32.fs [3, 4] 600 = List.replicate 600 0x58 := by
    rw [fileBytes, List.flatMap_cons, List.flatMap_cons, List.flatMap_nil,
      clusterBytes_split 3 (.inl rfl), clusterBytes_split 4 (.inr rfl), List.append_nil,
      List.replicate_append_replicate, List.take_replicate]
    rfl
  refine ⟨hopen, ?_⟩
  rw [hreads, hfs, hfile]
  exact (congrArg (List.take 600) hcontents).trans List.take_replicate

end Magnos
