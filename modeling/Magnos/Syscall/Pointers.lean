import Magnos.Fat32.Lookup
import Magnos.Fat32.Session
import Magnos.Syscall.Files

/-!
# Stores through the pointers of a call

`syscall_handler` does not check where the buffers that a program passes in lie.  For each
call this module gives the arguments with which it stores inside the user region in every
state of the kernel.
-/

namespace Magnos

open Framework

/-- The bytes a call stores through a pointer among its arguments.  The calls outside the file
calls read strings through them at most. -/
def argumentStores (dev : Device) (clusters : Nat) (k : Kernel) (number arg1 arg2 arg3 : UInt32) :
    List (UInt32 × UInt8) :=
  match Syscall.decode number arg1 arg2 arg3 with
  | .file call => (k.serve dev clusters call).stores
  | .exit _ | .exec _ | .other _ => []

/-- The position of the handle is not beyond the end of its file. -/
def Kernel.HandleInFile (k : Kernel) : Prop :=
  k.fat.file.position.toNat ≤ k.fat.file.size.toNat

/-- The arguments with which a call has to store inside the user region.  An entry of a
listing takes 24 bytes, of which the last three are padding. -/
def FileSyscall.Confined : FileSyscall → Prop
  | .fileRead buffer size => buffer = 0 ∨ UserRun buffer size.toNat
  | .listDir buffer maxEntries =>
      buffer = 0 ∨ maxEntries = 0 ∨ 2 ^ 31 ≤ maxEntries.toNat ∨
        UserRun buffer (24 * maxEntries.toNat - 3)
  | .getArgs index buffer size =>
      toInt32 index.toNat < 0 ∨ (maxArgs : Int) ≤ toInt32 index.toNat ∨ buffer = 0 ∨ size = 0 ∨
        UserRun buffer (min size.toNat maxArgLen)
  | .fileOpen _ | .fileClose => True

def Syscall.Confined : Syscall → Prop
  | .file call => call.Confined
  | .exit _ | .exec _ | .other _ => True

theorem storesAt_user_iff (addr : UInt32) (bytes : List UInt8) :
    (∀ store ∈ storesAt addr bytes, UserAddr store.1) ↔ UserRun addr bytes.length := by
  rw [userRun_iff, ← storesAt_addresses]
  simp

section Reads

/-- A drive on which every cluster is followed by cluster 2. -/
def cyclicSector : Sector := fun i => if i % 4 = 0 then 2 else 0

def cyclicDevice : Device := fun _ _ => some cyclicSector

theorem nextCluster_cyclic (fs : Volume) (c : Nat) (hc : 2 ≤ c ∧ c < clusterReserved) :
    nextCluster (fun _ => cyclicSector) fs c = 2 := by
  have hword : ∀ i, le32 cyclicSector (i / 4 * 4) = 2 := by
    intro i
    have h0 : i / 4 * 4 % 4 = 0 := by omega
    have h3 : (i / 4 * 4 + 2 + 1) % 4 ≠ 0 := by omega
    simp [le32, le16, cyclicSector, h0, h3]
  have hlink : fatLink cyclicSector c = 2 := by
    unfold fatLink entryOffset
    rw [hword]
    decide
  rw [nextCluster, if_neg (by omega)]
  exact hlink

theorem advance_cyclic (s : Fat32) (n : Nat) (hc : 2 ≤ s.file.currentCluster.toNat ∧
    s.file.currentCluster.toNat < clusterReserved) :
    2 ≤ (advance cyclicDevice s n).file.currentCluster.toNat ∧
      (advance cyclicDevice s n).file.currentCluster.toNat < clusterReserved := by
  have hdev : cyclicDevice.Serves fun _ => cyclicSector := fun _ _ => rfl
  unfold advance
  dsimp only
  split
  · have hnext := fat32GetNextCluster_fst hdev
      { s with file := { s.file with position := .ofNat (s.file.position.toNat + n) } }
      s.file.currentCluster.toNat
    rw [nextCluster_cyclic _ _ hc] at hnext
    rw [hnext]
    show 2 ≤ (UInt32.ofNat 2).toNat ∧ (UInt32.ofNat 2).toNat < clusterReserved
    decide
  · exact hc

theorem readLoop_cyclic (rounds : Nat) (s : Fat32) (left : Nat) (hrounds : left ≤ rounds)
    (hcsz : 0 < clusterSize s.fs) (hc : 2 ≤ s.file.currentCluster.toNat ∧
      s.file.currentCluster.toNat < clusterReserved) :
    (readLoop cyclicDevice rounds s left).1.length = left := by
  induction rounds generalizing s left with
  | zero =>
      obtain rfl : left = 0 := by omega
      rfl
  | succ rounds ih =>
      by_cases hzero : left = 0
      · subst hzero
        simp [readLoop]
      · have hloop : left > 0 ∧ s.file.currentCluster.toNat < clusterEoc := by
          unfold clusterReserved at hc
          unfold clusterEoc
          omega
        have hn := (bytesInSector_le (clusterSize s.fs) s.file.position.toNat left).1
        have hnpos := bytesInSector_pos (clusterSize s.fs) s.file.position.toNat left hcsz hloop.1
        set n := bytesInSector (clusterSize s.fs) s.file.position.toNat left with hndef
        set t : Fat32 := { s with sectorBuffer := cyclicSector, time := s.time + 1 } with ht
        have hrest := ih (advance cyclicDevice t n) (left - n) (by omega)
          (by rw [(advance_sameOpen cyclicDevice t n).fs]; exact hcsz) (advance_cyclic t n hc)
        have hdev : cyclicDevice.Serves fun _ => cyclicSector := fun _ _ => rfl
        have hround := readLoop_round hdev rounds s left hloop hcsz
        simp only [← hndef, ← ht] at hround
        rw [hround, List.length_append, hrest, copyBytes, List.length_map, List.length_range]
        omega

end Reads

section Listings

theorem fat32ListDir_filled (dev : Device) (clusters : Nat) (s : Fat32) (maxEntries : Int) :
    (fat32ListDir dev clusters s true maxEntries).1.filled.length ≤ maxEntries.toNat ∧
      ∀ info ∈ (fat32ListDir dev clusters s true maxEntries).1.filled, info.name.length ≤ 12 := by
  have hvisit : ∀ (filled : List DirInfo) (sector : Sector) (j : Nat),
      (filled.length ≤ maxEntries.toNat ∧ ∀ info ∈ filled, info.name.length ≤ 12) →
      (listScan maxEntries.toNat).more filled = true →
      ((listScan maxEntries.toNat).visit filled (dirEntry sector j)).2.length ≤ maxEntries.toNat ∧
        ∀ info ∈ ((listScan maxEntries.toNat).visit filled (dirEntry sector j)).2,
          info.name.length ≤ 12 := by
    intro filled sector j hfilled hmore
    have hroom : filled.length < maxEntries.toNat := by simpa [listScan] using hmore
    rw [listScan_visit]
    split
    · exact hfilled
    · split
      · refine ⟨by simpa using hroom, ?_⟩
        intro info hinfo
        rcases List.mem_append.mp hinfo with hold | hnew
        · exact hfilled.2 info hold
        · obtain rfl := List.mem_singleton.mp hnew
          exact fat32NameToString_length _ (dirEntry_name_length sector j)
      · exact hfilled
  have hchain := Scan.chain_invariant hvisit dev clusters s.fs.rootDirCluster.toNat s []
    ⟨Nat.zero_le _, by simp⟩
  by_cases hready : s.fs.initialized = false ∨ true = false ∨ maxEntries ≤ 0
  · rw [fat32ListDir, if_pos hready]
    simp
  · rw [fat32ListDir_scan dev clusters hready]
    exact hchain

theorem mem_dirInfoStores {entries : UInt32} {k : Nat} {info : DirInfo}
    (hname : info.name.length ≤ 12) {store : UInt32 × UInt8}
    (hs : store ∈ dirInfoStores entries k info) :
    ∃ off ≤ 20, store.1 = entries + .ofNat (24 * k + off) := by
  have haddr : ∀ i j : Nat, entries + .ofNat (24 * k) + .ofNat i + .ofNat j =
      entries + UInt32.ofNat (24 * k + (i + j)) := by
    intro i j
    rw [UInt32.ofNat_add, UInt32.ofNat_add, UInt32.add_assoc, UInt32.add_assoc]
  simp only [dirInfoStores, List.mem_append] at hs
  rcases hs with (hs | hs) | hs
  · obtain ⟨j, hj, rfl⟩ := mem_storesAt.mp hs
    simp only [List.length_append, List.length_singleton] at hj
    exact ⟨j, by omega, by simpa using haddr 0 j⟩
  · obtain ⟨j, hj, rfl⟩ := mem_storesAt.mp hs
    simp only [leBytes, List.length_cons, List.length_nil] at hj
    exact ⟨16 + j, by omega, haddr 16 j⟩
  · obtain ⟨j, hj, rfl⟩ := mem_storesAt.mp hs
    simp only [List.length_singleton] at hj
    exact ⟨20 + j, by omega, haddr 20 j⟩

theorem mem_listingStores {entries : UInt32} {filled : List DirInfo}
    (hnames : ∀ info ∈ filled, info.name.length ≤ 12) {store : UInt32 × UInt8}
    (hs : store ∈ listingStores entries filled) :
    ∃ i < 24 * filled.length - 3, store.1 = entries + .ofNat i := by
  obtain ⟨stores, hmem, hs⟩ := List.mem_flatten.mp hs
  obtain ⟨k, hk, rfl⟩ := List.mem_mapIdx.mp hmem
  obtain ⟨off, hoff, haddr⟩ := mem_dirInfoStores (hnames _ (List.getElem_mem hk)) hs
  exact ⟨24 * k + off, by omega, haddr⟩

theorem listingStores_entry (entries : UInt32) (filled : List DirInfo) (k : Nat)
    (hk : k < filled.length) :
    (∃ store ∈ listingStores entries filled, store.1 = entries + .ofNat (24 * k)) ∧
      ∃ store ∈ listingStores entries filled, store.1 = entries + .ofNat (24 * k + 20) := by
  have hin : ∀ store ∈ dirInfoStores entries k filled[k], store ∈ listingStores entries filled := by
    intro store hs
    exact List.mem_flatten.mpr ⟨_, List.mem_mapIdx.mpr ⟨k, hk, rfl⟩, hs⟩
  refine ⟨⟨_, hin _ (List.mem_append_left _ (List.mem_append_left _
    (mem_storesAt.mpr ⟨0, by simp, rfl⟩))), ?_⟩, ⟨_, hin _ (List.mem_append_right _
    (mem_storesAt.mpr ⟨0, by simp, rfl⟩)), ?_⟩⟩
  · simp
  · rw [UInt32.ofNat_add, ← UInt32.add_assoc]
    simp

/-- A drive on which every slot of a directory is a visible entry and no chain ends. -/
def letterSector : Sector := fun _ => 0x41

def letterDevice : Device := fun _ _ => some letterSector

theorem listScan_entries_fst (maxEntries : Nat) (slots : List DirEntry) (filled : List DirInfo)
    (hslots : ∀ e ∈ slots, ¬ e.IsEnd) : ((listScan maxEntries).entries slots filled).1 = false := by
  induction slots generalizing filled with
  | nil => rfl
  | cons e slots ih =>
      cases hmore : (listScan maxEntries).more filled with
      | false => rw [Scan.entries_of_not_more _ _ _ hmore]
      | true =>
          have hvisit := listScan_visit maxEntries filled e
          rw [if_neg (hslots e List.mem_cons_self)] at hvisit
          have hrest := fun acc => ih acc fun f hf => hslots f (List.mem_cons_of_mem _ hf)
          split at hvisit <;> rw [Scan.entries_cons_next _ _ hmore hvisit] <;> exact hrest _

theorem fatLink_letters (cluster : Nat) : fatLink letterSector cluster = 0x01414141 := by
  have hword : ∀ i, le32 letterSector i = 0x41414141 := by
    intro i
    simp only [le32, le16, letterSector]
    decide
  unfold fatLink
  rw [hword]
  decide

theorem listScan_letters (maxEntries clusters cluster : Nat) (s : Fat32) (filled : List DirInfo)
    (hspc : s.fs.sectorsPerCluster = 1) (hc : 2 ≤ cluster ∧ cluster < clusterReserved)
    (hfilled : filled.length ≤ maxEntries) :
    min maxEntries (filled.length + 16 * clusters) ≤
      ((listScan maxEntries).chain letterDevice clusters cluster s filled).2.1.length := by
  have hdev : letterDevice.Serves fun _ => letterSector := fun _ _ => rfl
  induction clusters generalizing cluster s filled with
  | zero =>
      rw [Scan.chain]
      show min maxEntries (filled.length + 16 * 0) ≤ filled.length
      omega
  | succ clusters ih =>
      by_cases hroom : filled.length < maxEntries
      · have hloop : cluster < clusterEoc ∧ (listScan maxEntries).more filled = true := by
          refine ⟨?_, by simpa [listScan] using hroom⟩
          unfold clusterReserved at hc
          unfold clusterEoc
          omega
        obtain ⟨t, hsame, hsectors⟩ :=
          (listScan maxEntries).sectors_serves hdev (clusterSectors s.fs cluster) s filled
        have hslots : (clusterSectors s.fs cluster).flatMap (fun _ => dirEntries letterSector) =
            dirEntries letterSector := by
          simp [clusterSectors, hspc]
        have hfst := listScan_entries_fst maxEntries (dirEntries letterSector) filled (by decide)
        have hsnd := listScan_entries maxEntries (dirEntries letterSector) filled hfilled
        have hvisible : visibleSlots (dirEntries letterSector) = dirEntries letterSector := by decide
        have hlen : (dirEntries letterSector).length = 16 := by decide
        have hgrown : ((listScan maxEntries).entries (dirEntries letterSector) filled).2.length =
            filled.length + min (maxEntries - filled.length) 16 := by
          rw [hsnd, hvisible, List.length_append, List.length_map, List.length_take, hlen]
        have hnext : (fat32GetNextCluster letterDevice t cluster).1 = 0x01414141 := by
          rw [fat32GetNextCluster_fst hdev, nextCluster, if_neg (by omega)]
          exact fatLink_letters cluster
        have hsame' := hsame.trans (fat32GetNextCluster_sameFile letterDevice t cluster)
        have hrest := ih 0x01414141 (fat32GetNextCluster letterDevice t cluster).2
          ((listScan maxEntries).entries (dirEntries letterSector) filled).2
          (by rw [hsame'.fs]; exact hspc) (by decide) (by omega)
        rw [Scan.chain, if_pos hloop, hsectors, hslots]
        rw [show (listScan maxEntries).entries (dirEntries letterSector) filled =
          (false, ((listScan maxEntries).entries (dirEntries letterSector) filled).2) from
          Prod.ext hfst rfl]
        simp only [hnext]
        omega
      · rw [Scan.chain, if_neg fun h => hroom (by simpa [listScan] using h.2)]
        show min maxEntries (filled.length + 16 * (clusters + 1)) ≤ filled.length
        omega

end Listings

theorem argBytes_length_le (k : Kernel) {i : Nat} (hi : i < k.args.words.length) {size : UInt32}
    (hsize : size ≠ 0) :
    (argBytes (k.args.words.getD i []) size.toNat).length ≤ min size.toNat maxArgLen := by
  have hpos : size.toNat ≠ 0 := fun h => hsize (UInt32.toNat_inj.mp h)
  have hword : (k.args.words.getD i []).length < maxArgLen := by
    rw [List.getD_eq_getElem?_getD, List.getElem?_eq_getElem hi, Option.getD_some]
    exact k.args.short _ (List.getElem_mem hi)
  simp only [argBytes, List.length_append, List.length_take, List.length_singleton]
  omega

theorem FileSyscall.Confined.stores {call : FileSyscall} (hconf : call.Confined) (dev : Device)
    (clusters : Nat) (k : Kernel)
    (hin : ∀ buffer size, call = .fileRead buffer size → buffer ≠ 0 → k.HandleInFile)
    (store : UInt32 × UInt8) (hs : store ∈ (k.serve dev clusters call).stores) :
    UserAddr store.1 := by
  cases call with
  | fileOpen filename =>
      simp only [Kernel.serve, sysFileOpen] at hs
      split at hs
      · simp [Kernel.refuse] at hs
      · split at hs <;> simp at hs
  | fileRead buffer size =>
      simp only [Kernel.serve, sysFileRead] at hs
      split at hs
      · simp [Kernel.refuse] at hs
      · next hbuffer =>
          have hrun := hconf.resolve_left fun h => hbuffer (.inl h)
          have hlen := (fat32Read_bytes_length dev k.fat size.toNat).trans
            (bytesToRead_le (hin buffer size rfl fun h => hbuffer (.inl h)) size.toNat_lt)
          exact (storesAt_user_iff _ _).mpr (hrun.mono hlen) store hs
  | fileClose =>
      simp only [Kernel.serve, sysFileClose] at hs
      split at hs <;> simp [Kernel.refuse] at hs
  | listDir buffer maxEntries =>
      simp only [Kernel.serve, sysListDir] at hs
      split at hs
      · simp [Kernel.refuse] at hs
      · next hnull =>
          obtain ⟨hlen, hnames⟩ :=
            fat32ListDir_filled dev clusters k.fat (toInt32 maxEntries.toNat)
          obtain ⟨i, hi, haddr⟩ := mem_listingStores hnames hs
          rw [haddr]
          obtain ⟨hsigned, hmax⟩ := toInt32_pos maxEntries.toNat_lt (by omega)
          have hrun : UserRun buffer (24 * maxEntries.toNat - 3) := by
            rcases hconf with h | h | h | h
            · exact (hnull (.inl h)).elim
            · exact (hnull (.inr h)).elim
            · omega
            · exact h
          exact hrun.window (by decide) i (by omega)
  | getArgs index buffer size =>
      simp only [Kernel.serve, sysGetArgs] at hs
      split at hs
      · simp [Kernel.refuse] at hs
      split at hs
      · simp [Kernel.refuse] at hs
      · next hnull =>
          split at hs
          · simp [Kernel.refuse] at hs
          · next hindex =>
              have hcount := k.args.count_le
              have hrun : UserRun buffer (min size.toNat maxArgLen) := by
                rcases hconf with h | h | h | h | h
                · exact (hindex (.inl h)).elim
                · omega
                · exact (hnull (.inl h)).elim
                · exact (hnull (.inr h)).elim
                · exact h
              have hlt : (toInt32 index.toNat).toNat < k.args.words.length := by omega
              have hlen := argBytes_length_le k hlt fun h => hnull (.inr h)
              exact (storesAt_user_iff _ _).mpr (hrun.mono hlen) store hs

section Hostile

/-- A file of any size is open at any position in an endless chain. -/
def readingKernel (position size : UInt32) : Kernel where
  mem _ := 0
  fat := ⟨⟨1, 0, 0, 2, true⟩, fun _ => 0, ⟨2, 2, size, position, 0x20, true⟩, 0⟩
  currentFile := true
  args := noArgs

theorem readingKernel_stores (position fileSize buffer size : UInt32) (hbuffer : buffer ≠ 0) :
    (∀ store ∈ ((readingKernel position fileSize).serve cyclicDevice 0
        (.fileRead buffer size)).stores, UserAddr store.1) ↔
      UserRun buffer (bytesToRead (readingKernel position fileSize).fat.file size.toNat) := by
  have hlen : (fat32Read cyclicDevice (readingKernel position fileSize).fat size.toNat).1.bytes.length =
      bytesToRead (readingKernel position fileSize).fat.file size.toNat := by
    have hloop := readLoop_cyclic _ (readingKernel position fileSize).fat
      (bytesToRead (readingKernel position fileSize).fat.file size.toNat) (Nat.le_refl _)
      (show 0 < 1 * 512 by decide)
      (show 2 ≤ (2 : UInt32).toNat ∧ (2 : UInt32).toNat < clusterReserved by decide)
    simpa [fat32Read, readingKernel] using hloop
  have hserved : ((readingKernel position fileSize).serve cyclicDevice 0
      (.fileRead buffer size)).stores =
      storesAt buffer (fat32Read cyclicDevice (readingKernel position fileSize).fat
        size.toNat).1.bytes := by
    rw [Kernel.serve, sysFileRead, if_neg (by simp [hbuffer, readingKernel])]
  rw [hserved, storesAt_user_iff, hlen]

/-- Sixteen arguments of full length. -/
def fullArgs : ProgramArgs where
  words := List.replicate 16 (List.replicate 63 0x41)
  count_le := by decide
  short := by
    intro w hw
    rw [List.eq_of_mem_replicate hw, List.length_replicate]
    decide
  noNul := by
    intro w hw hnul
    rw [List.eq_of_mem_replicate hw] at hnul
    exact absurd (List.eq_of_mem_replicate hnul) (by decide)

/-- A kernel whose root directory is read from `letterDevice`. -/
def listingKernel : Kernel where
  mem _ := 0
  fat := ⟨⟨1, 0, 0, 2, true⟩, fun _ => 0, ⟨0, 0, 0, 0, 0, false⟩, 0⟩
  currentFile := false
  args := fullArgs

theorem listingKernel_args (index buffer size : UInt32) (hindex : 0 ≤ toInt32 index.toNat)
    (hcount : toInt32 index.toNat < maxArgs) (hbuffer : buffer ≠ 0) (hsize : size ≠ 0) :
    (∀ store ∈ (listingKernel.serve letterDevice 0 (.getArgs index buffer size)).stores,
        UserAddr store.1) ↔ UserRun buffer (min size.toNat maxArgLen) := by
  have hpos : size.toNat ≠ 0 := fun h => hsize (UInt32.toNat_inj.mp h)
  have hwords : listingKernel.args.words.length = maxArgs := List.length_replicate
  have hword : listingKernel.args.words.getD (toInt32 index.toNat).toNat [] =
      List.replicate 63 0x41 := by
    have hlt : (toInt32 index.toNat).toNat < listingKernel.args.words.length := by omega
    rw [List.getD_eq_getElem?_getD, List.getElem?_eq_getElem hlt, Option.getD_some]
    exact List.getElem_replicate _
  have hserved : (listingKernel.serve letterDevice 0 (.getArgs index buffer size)).stores =
      storesAt buffer (argBytes (List.replicate 63 0x41) size.toNat) := by
    rw [Kernel.serve, sysGetArgs]
    simp only
    rw [if_neg (by omega), if_neg (by simp [hbuffer, hsize]), if_neg (by omega), hword]
  have hlen : (argBytes (List.replicate 63 0x41) size.toNat).length = min size.toNat maxArgLen := by
    simp only [argBytes, List.length_append, List.length_take, List.length_replicate,
      List.length_singleton, maxArgLen]
    omega
  rw [hserved, storesAt_user_iff, hlen]

theorem listingKernel_list (buffer maxEntries : UInt32) (hbuffer : buffer ≠ 0)
    (hmax : maxEntries ≠ 0) (hsigned : maxEntries.toNat < 2 ^ 31)
    (hall : ∀ clusters, ∀ store ∈ (listingKernel.serve letterDevice clusters
      (.listDir buffer maxEntries)).stores, UserAddr store.1) :
    UserRun buffer (24 * maxEntries.toNat - 3) := by
  have hpos : maxEntries.toNat ≠ 0 := fun h => hmax (UInt32.toNat_inj.mp h)
  have hint : toInt32 maxEntries.toNat = maxEntries.toNat := if_pos hsigned
  have hfilled : ∀ clusters, min maxEntries.toNat (16 * clusters) ≤
      (fat32ListDir letterDevice clusters listingKernel.fat true
        (toInt32 maxEntries.toNat)).1.filled.length := by
    intro clusters
    have hscan := listScan_letters maxEntries.toNat clusters 2 listingKernel.fat [] rfl (by decide)
      (Nat.zero_le _)
    have hchain : (fat32ListDir letterDevice clusters listingKernel.fat true
        (toInt32 maxEntries.toNat)).1.filled =
        ((listScan maxEntries.toNat).chain letterDevice clusters 2 listingKernel.fat []).2.1 := by
      rw [hint, fat32ListDir_scan _ _ (by simp [listingKernel]; omega), Int.toNat_natCast]
      rfl
    rw [hchain]
    simpa using hscan
  have hstores : ∀ clusters, (listingKernel.serve letterDevice clusters
      (.listDir buffer maxEntries)).stores =
      listingStores buffer (fat32ListDir letterDevice clusters listingKernel.fat true
        (toInt32 maxEntries.toNat)).1.filled := by
    intro clusters
    rw [Kernel.serve, sysListDir, if_neg (by simp [hbuffer, hmax])]
  have hentry : ∀ k, k < maxEntries.toNat →
      UserAddr (buffer + .ofNat (24 * k)) ∧ UserAddr (buffer + .ofNat (24 * k + 20)) := by
    intro k hk
    have hlen := hfilled (k + 1)
    obtain ⟨⟨first, hfirst, hfaddr⟩, ⟨last, hlast, hladdr⟩⟩ := listingStores_entry buffer
      (fat32ListDir letterDevice (k + 1) listingKernel.fat true
        (toInt32 maxEntries.toNat)).1.filled k (by omega)
    rw [← hstores] at hfirst hlast
    rw [← hfaddr, ← hladdr]
    exact ⟨hall _ first hfirst, hall _ last hlast⟩
  have hfirst := (hentry 0 (by omega)).1
  simp only [Nat.mul_zero, Window] at hfirst
  rw [toNat_add_ofNat (by simpa using buffer.toNat_lt)] at hfirst
  refine .inr ⟨by omega, ?_⟩
  by_contra hlong
  unfold userBase userEnd at *
  have hk : (0x301000 - (buffer.toNat + 20) + 23) / 24 < maxEntries.toNat := by omega
  have hlast := (hentry _ hk).2
  unfold UserAddr Window userEnd at hlast
  rw [toNat_add_ofNat (by omega)] at hlast
  omega

end Hostile

theorem FileSyscall.confined_of_stores (call : FileSyscall)
    (hall : ∀ dev clusters (k : Kernel), k.HandleInFile →
      ∀ store ∈ (k.serve dev clusters call).stores, UserAddr store.1) : call.Confined := by
  cases call with
  | fileOpen filename => trivial
  | fileClose => trivial
  | fileRead buffer size =>
      by_cases hbuffer : buffer = 0
      · exact .inl hbuffer
      · have hread := (readingKernel_stores 0 0xFFFFFFFF buffer size hbuffer).mp
          (hall cyclicDevice 0 (readingKernel 0 0xFFFFFFFF) (Nat.zero_le _))
        have hlt := size.toNat_lt
        have hleft : bytesToRead (readingKernel 0 0xFFFFFFFF).fat.file size.toNat = size.toNat := by
          have hsum : ¬ (((0 : UInt32).toNat + size.toNat) % 2 ^ 32 > (0xFFFFFFFF : UInt32).toNat) := by
            simp only [UInt32.reduceToNat]
            omega
          exact if_neg hsum
        rw [hleft] at hread
        exact .inr hread
  | listDir buffer maxEntries =>
      by_cases hbuffer : buffer = 0
      · exact .inl hbuffer
      by_cases hmax : maxEntries = 0
      · exact .inr (.inl hmax)
      by_cases hsigned : 2 ^ 31 ≤ maxEntries.toNat
      · exact .inr (.inr (.inl hsigned))
      · exact .inr (.inr (.inr (listingKernel_list buffer maxEntries hbuffer hmax (by omega)
          fun clusters => hall letterDevice clusters listingKernel (Nat.le_refl _))))
  | getArgs index buffer size =>
      by_cases hindex : toInt32 index.toNat < 0
      · exact .inl hindex
      by_cases hcount : (maxArgs : Int) ≤ toInt32 index.toNat
      · exact .inr (.inl hcount)
      by_cases hbuffer : buffer = 0
      · exact .inr (.inr (.inl hbuffer))
      by_cases hsize : size = 0
      · exact .inr (.inr (.inr (.inl hsize)))
      · exact .inr (.inr (.inr (.inr ((listingKernel_args index buffer size (by omega) (by omega)
          hbuffer hsize).mp (hall letterDevice 0 listingKernel (Nat.le_refl _))))))

theorem fileRead_null_of_stores (buffer size : UInt32)
    (hall : ∀ dev clusters (k : Kernel), ∀ store ∈ (k.serve dev clusters
      (.fileRead buffer size)).stores, UserAddr store.1) : buffer = 0 := by
  by_contra hbuffer
  have hlt := size.toNat_lt
  have hlong : ∀ position : UInt32, position = 1 ∨ position = 2 →
      (position.toNat + size.toNat) % 2 ^ 32 ≠ 0 → False := by
    intro position hposition hsum
    have hread := (readingKernel_stores position 0 buffer size hbuffer).mp
      (hall cyclicDevice 0 (readingKernel position 0))
    have hleft : bytesToRead (readingKernel position 0).fat.file size.toNat =
        sub32 (0 : UInt32).toNat position.toNat :=
      if_pos (show (position.toNat + size.toNat) % 2 ^ 32 > 0 by omega)
    rw [hleft] at hread
    rcases hposition with rfl | rfl <;> simp [UserRun, RunFits, sub32, userEnd] at hread
  by_cases hsize : size.toNat = 2 ^ 32 - 1
  · exact hlong 2 (.inr rfl) (by rw [hsize]; decide)
  · exact hlong 1 (.inl rfl) (by simp only [UInt32.reduceToNat]; omega)

/-- A call stores inside the user region in every state exactly if its arguments are
confined, as long as the open handle has not run past the end of its file; once that can
happen, no read with a buffer is safe. -/
theorem argumentStores_confined_iff (number arg1 arg2 arg3 : UInt32) :
    ((∀ dev clusters k, k.HandleInFile →
        ∀ store ∈ argumentStores dev clusters k number arg1 arg2 arg3, UserAddr store.1) ↔
      (Syscall.decode number arg1 arg2 arg3).Confined) ∧
    ((∀ dev clusters k,
        ∀ store ∈ argumentStores dev clusters k number arg1 arg2 arg3, UserAddr store.1) ↔
      (Syscall.decode number arg1 arg2 arg3).Confined ∧
        ∀ buffer size, Syscall.decode number arg1 arg2 arg3 = .file (.fileRead buffer size) →
          buffer = 0) := by
  unfold argumentStores
  cases Syscall.decode number arg1 arg2 arg3 with
  | exit code => simp [Syscall.Confined]
  | exec cmd => simp [Syscall.Confined]
  | other number => simp [Syscall.Confined]
  | file call =>
      refine ⟨⟨call.confined_of_stores, ?_⟩, ⟨?_, ?_⟩⟩
      · intro hconf dev clusters k hin
        exact FileSyscall.Confined.stores hconf dev clusters k fun _ _ _ _ => hin
      · intro hall
        refine ⟨call.confined_of_stores fun dev clusters k _ => hall dev clusters k, ?_⟩
        intro buffer size hread
        obtain rfl : call = .fileRead buffer size := by simpa using hread
        exact fileRead_null_of_stores buffer size hall
      · rintro ⟨hconf, hread⟩ dev clusters k
        apply FileSyscall.Confined.stores hconf dev clusters k
        intro buffer size hcall hbuffer
        exact (hbuffer (hread buffer size (by rw [hcall]))).elim

theorem argumentStores_confined_sample :
    ∀ store ∈ argumentStores cyclicDevice 0 (readingKernel 0 0xFFFFFFFF) 4 0x200000 0x101000 0,
      UserAddr store.1 := by
  apply (argumentStores_confined_iff 4 0x200000 0x101000 0).1.mpr
  · exact .inr (.inr (by decide))
  · exact Nat.zero_le _

/-- A program reads the first byte of a file into the kernel's code. -/
theorem argumentStores_overwrite_kernel :
    ¬ ∀ (dev : Device) (clusters : Nat) (k : Kernel) (number arg1 arg2 arg3 : UInt32),
      ∀ store ∈ argumentStores dev clusters k number arg1 arg2 arg3, UserAddr store.1 := by
  intro hclaim
  have hread := (readingKernel_stores 0 0xFFFFFFFF 0x1000 1 (by decide)).mp
    (hclaim cyclicDevice 0 (readingKernel 0 0xFFFFFFFF) 4 0x1000 1 0)
  exact absurd hread (by decide)

end Magnos
