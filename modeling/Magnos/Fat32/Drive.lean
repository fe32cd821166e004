import Magnos.Fat32.Directory
import Magnos.Fat32.Read

/-!
# The registers of the drive

`ide_read_sectors` writes the sector address into four registers, which have room for 28 bits of
it.  The volume's own arithmetic is exact on a consistent boot sector, so what the drive reads is
what was asked for as long as the data lies below sector `2 ^ 28`.
-/

namespace Magnos

open Framework

/-- The registers that `ide_read_sectors` writes before the read command. -/
structure IdeRegisters where
  drive : UInt8
  sectorCnt : UInt8
  lbaLow : UInt8
  lbaMid : UInt8
  lbaHigh : UInt8
deriving DecidableEq

def ideProgram (drive : UInt8) (lba : UInt32) (sectorCount : UInt8) : IdeRegisters where
  drive := (drive &&& (0x10 : UInt8)) ||| (0xE0 : UInt8) ||| ((lba >>> 24) &&& 0x0F).toUInt8
  sectorCnt := sectorCount
  lbaLow := lba.toUInt8
  lbaMid := (lba >>> 8).toUInt8
  lbaHigh := (lba >>> 16).toUInt8

/-- The sector that a drive in LBA mode takes from its registers. -/
def IdeRegisters.lba (r : IdeRegisters) : Nat :=
  r.lbaLow.toNat + r.lbaMid.toNat * 2 ^ 8 + r.lbaHigh.toNat * 2 ^ 16 +
    (r.drive &&& 0x0F).toNat * 2 ^ 24

/-- The address that ends up in the registers. -/
def programmedLba (drive : UInt8) (lba : Nat) : Nat := (ideProgram drive (.ofNat lba) 1).lba

theorem driveRegister_low (drive nibble : UInt8) :
    (((drive &&& (0x10 : UInt8)) ||| (0xE0 : UInt8) ||| nibble) &&& (0x0F : UInt8)).toNat =
      nibble.toNat % 2 ^ 4 := by
  have hmask : ∀ n : Nat, n &&& 15 = n % 2 ^ 4 := fun n => Nat.and_two_pow_sub_one_eq_mod n 4
  simp only [UInt8.toNat_and, UInt8.toNat_or, UInt8.reduceToNat, hmask, Nat.or_mod_two_pow,
    Nat.and_mod_two_pow]
  simp

theorem ideProgram_lba (drive : UInt8) (lba : UInt32) (sectorCount : UInt8) :
    (ideProgram drive lba sectorCount).lba = lba.toNat % 2 ^ 28 := by
  have hmask : ∀ n : Nat, n &&& 15 = n % 2 ^ 4 := fun n => Nat.and_two_pow_sub_one_eq_mod n 4
  have hlt := lba.toNat_lt
  simp only [IdeRegisters.lba, ideProgram, driveRegister_low, UInt32.toNat_toUInt8,
    UInt32.toNat_shiftRight, UInt32.toNat_and, UInt32.reduceToNat, hmask,
    Nat.shiftRight_eq_div_pow, Nat.reduceMod, Nat.reducePow]
  omega

theorem programmedLba_eq (drive : UInt8) {lba : Nat} (hlba : lba < 2 ^ 32) :
    programmedLba drive lba = lba % 2 ^ 28 := by
  rw [programmedLba, ideProgram_lba, UInt32.toNat_ofNat_of_lt' hlba]

section Layout

/-- The fields of a boot sector that lay out the volume. -/
def reservedSectors (b : Sector) : Nat := le16 b 14

def numFats (b : Sector) : Nat := (b 16).toNat

def fatSize32 (b : Sector) : Nat := le32 b 36

def totalSectors32 (b : Sector) : Nat := le32 b 32

def sectorsPerCluster (b : Sector) : Nat := (b 13).toNat

/-- The first data sector in exact arithmetic. -/
def dataStart (b : Sector) : Nat := reservedSectors b + numFats b * fatSize32 b

/-- A boot sector with room for `n` clusters of data and for their entries in each FAT. -/
structure SelfConsistent (b : Sector) (n : Nat) : Prop where
  data : dataStart b + n * sectorsPerCluster b ≤ totalSectors32 b
  fat : 4 * (n + 2) ≤ sectorSize * fatSize32 b
  clusters : n < 0x0FFFFFEE

theorem fat32Init_boot {dev : Device} {s t : Fat32} (hinit : fat32Init dev s = (0, t)) :
    ∃ b, dev s.time 0 = some b ∧ t.fs = bootVolume b := by
  simp only [fat32Init] at hinit
  rcases hread : dev s.time 0 with _ | b
  · simp [ideRead, hread] at hinit
  · simp only [ideRead, hread] at hinit
    refine ⟨b, rfl, ?_⟩
    split at hinit
    · simp at hinit
    · split at hinit
      · simp at hinit
      · rw [Prod.mk.injEq] at hinit
        rw [← hinit.2, bootVolume]

variable {b : Sector} {n c i : Nat}

theorem dataOffset_lt (hc : c < n + 2) (hlow : 2 ≤ c) (hi : i < sectorsPerCluster b) :
    (c - 2) * sectorsPerCluster b + i < n * sectorsPerCluster b := by
  have hle : (c - 2 + 1) * sectorsPerCluster b ≤ n * sectorsPerCluster b :=
    Nat.mul_le_mul_right _ (by omega)
  rw [Nat.add_mul] at hle
  omega

theorem dataSector_eq (hcons : SelfConsistent b n) (hlow : 2 ≤ c) (hc : c < n + 2)
    (hi : i < sectorsPerCluster b) :
    dataSector (bootVolume b) c i = dataStart b + (c - 2) * sectorsPerCluster b + i := by
  have htotal : totalSectors32 b < 2 ^ 32 := le32_lt b 32
  have hdata := hcons.data
  have hoff := dataOffset_lt hc hlow hi
  have hstart : (bootVolume b).dataStartSector.toNat = dataStart b :=
    UInt32.toNat_ofNat_of_lt' (show dataStart b < 2 ^ 32 by omega)
  have hspc : (bootVolume b).sectorsPerCluster.toNat = sectorsPerCluster b := rfl
  rw [dataSector, fat32ClusterToSector, if_neg (by omega), hstart, hspc,
    Nat.mod_eq_of_lt (show dataStart b + (c - 2) * sectorsPerCluster b < 2 ^ 32 by omega),
    Nat.mod_eq_of_lt (by omega)]

theorem fatSector_eq (hcons : SelfConsistent b n) (hc : c < n + 2) :
    fatSector (bootVolume b) c = reservedSectors b + c / 128 ∧ entryOffset c = c % 128 := by
  have hclusters := hcons.clusters
  have hreserved : reservedSectors b < 2 ^ 16 := le16_lt b 14
  have hstart : (bootVolume b).fatStartSector.toNat = reservedSectors b :=
    UInt32.toNat_ofNat_of_lt' (show reservedSectors b < 2 ^ 32 by omega)
  rw [fatSector, entryOffset, hstart]
  unfold sectorSize
  omega

theorem programmedLba_dataSector (drive : UInt8) (hcons : SelfConsistent b n) (hlow : 2 ≤ c)
    (hc : c < n + 2) (hi : i < sectorsPerCluster b) :
    programmedLba drive (dataSector (bootVolume b) c i) =
      (dataStart b + (c - 2) * sectorsPerCluster b + i) % 2 ^ 28 := by
  have hlt : dataSector (bootVolume b) c i < 2 ^ 32 := Nat.mod_lt _ (by decide)
  rw [programmedLba_eq drive hlt, dataSector_eq hcons hlow hc hi]

theorem programmedLba_fatSector (drive : UInt8) (hcons : SelfConsistent b n) (hc : c < n + 2) :
    programmedLba drive (fatSector (bootVolume b) c) = reservedSectors b + c / 128 := by
  have hclusters := hcons.clusters
  have hreserved : reservedSectors b < 2 ^ 16 := le16_lt b 14
  have hlt : fatSector (bootVolume b) c < 2 ^ 32 := Nat.mod_lt _ (by decide)
  rw [programmedLba_eq drive hlt, (fatSector_eq hcons hc).1,
    Nat.mod_eq_of_lt (by omega)]

/-- What the drive is asked for is what the volume means: the data sectors of the clusters, and
the entries of the first FAT. -/
structure ReadsOwnSectors (drive : UInt8) (b : Sector) (fs : Volume) (n : Nat) : Prop where
  data : ∀ c i, 2 ≤ c → c < n + 2 → i < sectorsPerCluster b →
    programmedLba drive (dataSector fs c i) = dataStart b + (c - 2) * sectorsPerCluster b + i
  fat : ∀ c, 2 ≤ c → c < n + 2 →
    reservedSectors b ≤ programmedLba drive (fatSector fs c) ∧
      programmedLba drive (fatSector fs c) < reservedSectors b + fatSize32 b ∧
      (programmedLba drive (fatSector fs c) - reservedSectors b) * (sectorSize / 4) +
        entryOffset c = c
  distinct : ∀ c i c' i', 2 ≤ c → c < n + 2 → i < sectorsPerCluster b →
    2 ≤ c' → c' < n + 2 → i' < sectorsPerCluster b →
    programmedLba drive (dataSector fs c i) = programmedLba drive (dataSector fs c' i') →
      c = c' ∧ i = i'

theorem dataOffset_inj {c' i' : Nat} (hlow : 2 ≤ c) (hlow' : 2 ≤ c') (hi : i < sectorsPerCluster b)
    (hi' : i' < sectorsPerCluster b)
    (heq : (c - 2) * sectorsPerCluster b + i = (c' - 2) * sectorsPerCluster b + i') :
    c = c' ∧ i = i' := by
  have hpos : 0 < sectorsPerCluster b := by omega
  have hquot := congrArg (· / sectorsPerCluster b) heq
  simp only [Nat.mul_comm _ (sectorsPerCluster b), Nat.mul_add_div hpos, Nat.div_eq_of_lt hi,
    Nat.div_eq_of_lt hi'] at hquot
  have hcluster : c = c' := by omega
  subst hcluster
  omega

/-- The drive reads the sectors that the volume means exactly if the data ends at sector `2 ^ 28`
or before, or there is none. -/
theorem programmedSectors_iff (dev : Device) (s t : Fat32) (hinit : fat32Init dev s = (0, t))
    (b : Sector) (hboot : dev s.time 0 = some b) (n : Nat) (hcons : SelfConsistent b n)
    (drive : UInt8) :
    ReadsOwnSectors drive b t.fs n ↔
      n * sectorsPerCluster b = 0 ∨ dataStart b + n * sectorsPerCluster b ≤ 2 ^ 28 := by
  obtain ⟨b', hread, hfs⟩ := fat32Init_boot hinit
  obtain rfl : b' = b := Option.some.inj (hread.symm.trans hboot)
  rw [hfs]
  constructor
  · intro hreads
    by_contra hlarge
    rw [not_or] at hlarge
    obtain ⟨hsome, hbeyond⟩ := hlarge
    have hn : 0 < n := Nat.pos_of_ne_zero fun h => hsome (by rw [h, Nat.zero_mul])
    have hspc : 0 < sectorsPerCluster b' :=
      Nat.pos_of_ne_zero fun h => hsome (by rw [h, Nat.mul_zero])
    -- the last sector of the last cluster does not fit into 28 bits
    have hlast := hreads.data (n + 1) (sectorsPerCluster b' - 1) (by omega) (by omega) (by omega)
    rw [programmedLba_dataSector drive hcons (by omega) (by omega) (by omega)] at hlast
    have hwrap := Nat.mod_lt (dataStart b' + (n + 1 - 2) * sectorsPerCluster b' +
      (sectorsPerCluster b' - 1)) (show 0 < 2 ^ 28 by decide)
    rw [hlast] at hwrap
    have hmul : n * sectorsPerCluster b' =
        (n + 1 - 2) * sectorsPerCluster b' + sectorsPerCluster b' := by
      rw [← Nat.succ_mul]
      congr 1
      omega
    omega
  · intro hfits
    have hdata : ∀ c i, 2 ≤ c → c < n + 2 → i < sectorsPerCluster b' →
        programmedLba drive (dataSector (bootVolume b') c i) =
          dataStart b' + (c - 2) * sectorsPerCluster b' + i := by
      intro c i hlow hc hi
      have hoff := dataOffset_lt hc hlow hi
      rw [programmedLba_dataSector drive hcons hlow hc hi, Nat.mod_eq_of_lt]
      omega
    refine ⟨hdata, ?_, ?_⟩
    · intro c hlow hc
      have hfat := hcons.fat
      rw [programmedLba_fatSector drive hcons hc, (fatSector_eq hcons hc).2]
      unfold sectorSize at hfat ⊢
      omega
    · intro c i c' i' hlow hc hi hlow' hc' hi' heq
      rw [hdata c i hlow hc hi, hdata c' i' hlow' hc' hi'] at heq
      exact dataOffset_inj hlow hlow' hi hi' (by omega)

/-- A boot sector of a volume of 256 GB: clusters of 64 sectors, 32 reserved sectors and two FATs
of 65537 sectors. -/
def largeBootSector : Sector := fun i =>
  if i = 12 ∨ i = 16 ∨ i = 34 ∨ i = 44 then 2
  else if i = 13 then 64
  else if i = 14 ∨ i = 35 then 32
  else if i = 32 then 0x22
  else if i = 36 ∨ i = 38 then 1
  else 0

def largeDevice : Device := fun _ _ => some largeBootSector

theorem fat32Init_large : fat32Init largeDevice blankFat32 = (0, { blankFat32 with
    fs := bootVolume largeBootSector, sectorBuffer := largeBootSector, time := 1 }) := by
  have hserves : largeDevice.Serves fun _ => largeBootSector := fun _ _ => rfl
  exact fat32Init_serves hserves blankFat32 (by decide) (by decide)

theorem selfConsistent_large {n : Nat} (hn : n ≤ 2 ^ 23) : SelfConsistent largeBootSector n := by
  have hspc : sectorsPerCluster largeBootSector = 64 := by decide
  have hstart : dataStart largeBootSector = 131106 := by decide
  have htotal : totalSectors32 largeBootSector = 2 ^ 29 + 131106 := by decide
  have hfat : fatSize32 largeBootSector = 65537 := by decide
  refine ⟨?_, ?_, by omega⟩
  · rw [hspc, hstart, htotal]
    omega
  · rw [hfat, sectorSize]
    omega

/-- The first half of the volume, which ends before sector `2 ^ 28`. -/
theorem programmedSectors_iff_half :
    SelfConsistent largeBootSector (2 ^ 21) ∧
      ReadsOwnSectors 0 largeBootSector (bootVolume largeBootSector) (2 ^ 21) := by
  have hcons : SelfConsistent largeBootSector (2 ^ 21) := selfConsistent_large (by decide)
  refine ⟨hcons, ?_⟩
  exact (programmedSectors_iff largeDevice blankFat32 _ fat32Init_large largeBootSector rfl (2 ^ 21)
    hcons 0).mpr (.inr (by decide))

/-- On the whole volume the drive reads the first sector of cluster 2 again for a cluster in the
middle. -/
theorem programmedSectors_alias :
    ¬ ∀ (dev : Device) (s t : Fat32), fat32Init dev s = (0, t) → ∀ b, dev s.time 0 = some b →
      ∀ n, SelfConsistent b n → ∀ drive, ReadsOwnSectors drive b t.fs n := by
  intro hclaim
  have hcons : SelfConsistent largeBootSector (2 ^ 23) := selfConsistent_large (by decide)
  have hreads := hclaim largeDevice blankFat32 _ fat32Init_large largeBootSector rfl (2 ^ 23) hcons 0
  have hspc : sectorsPerCluster largeBootSector = 64 := by decide
  have hsame := hreads.distinct 2 0 (2 + 2 ^ 22) 0 (by decide) (by decide) (by decide) (by decide)
    (by decide) (by decide)
  dsimp only at hsame
  rw [programmedLba_dataSector 0 hcons (by decide) (by decide) (by decide),
    programmedLba_dataSector 0 hcons (by decide) (by decide) (by decide), hspc] at hsame
  exact absurd (hsame (by omega)).1 (by decide)

end Layout

end Magnos
