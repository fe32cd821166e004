import Mathlib.Tactic

/-!
# Byte-addressed memory

A 32-bit address space whose addresses wrap, the runs of addresses that byte loops write,
and when such a run stays inside a window of the address space.
-/

namespace Magnos.Framework

abbrev Memory := UInt32 → UInt8

namespace Memory

def set (mem : Memory) (addr : UInt32) (byte : UInt8) : Memory :=
  fun a => if a = addr then byte else mem a

/-- The stores of a loop, in order. -/
def storeAll (mem : Memory) (stores : List (UInt32 × UInt8)) : Memory :=
  stores.foldl (fun m store => m.set store.1 store.2) mem

/-- The bytes from an address on. -/
def view (mem : Memory) (base : UInt32) : Nat → UInt8 := fun i => mem (base + .ofNat i)

/-- A memory with bytes from an address on and zeros elsewhere. -/
def ofBytes (base : UInt32) (bytes : List UInt8) : Memory := fun a => bytes.getD (a - base).toNat 0

theorem ofBytes_add (base : UInt32) (bytes : List UInt8) (i : Nat) (hi : i < 2 ^ 32) :
    ofBytes base bytes (base + .ofNat i) = bytes.getD i 0 := by
  have hsub : base + .ofNat i - base = UInt32.ofNat i := by
    rw [UInt32.add_comm, UInt32.add_sub_cancel]
  rw [ofBytes, hsub, UInt32.toNat_ofNat_of_lt' hi]

theorem view_add (mem : Memory) (base : UInt32) (off i : Nat) :
    mem.view (base + .ofNat off) i = mem (base + .ofNat (off + i)) := by
  rw [view, UInt32.ofNat_add, UInt32.add_assoc]

theorem set_of_ne (mem : Memory) {addr a : UInt32} (byte : UInt8) (hne : a ≠ addr) :
    mem.set addr byte a = mem a := if_neg hne

theorem storeAll_of_not_mem (mem : Memory) (stores : List (UInt32 × UInt8)) (a : UInt32)
    (hout : ∀ store ∈ stores, store.1 ≠ a) : mem.storeAll stores a = mem a := by
  induction stores generalizing mem with
  | nil => rfl
  | cons store stores ih =>
      have hrest := ih (mem.set store.1 store.2) fun s hs => hout s (List.mem_cons_of_mem _ hs)
      have hne : a ≠ store.1 := Ne.symm (hout store List.mem_cons_self)
      exact hrest.trans (mem.set_of_ne store.2 hne)

theorem storeAll_append (mem : Memory) (stores stores' : List (UInt32 × UInt8)) :
    mem.storeAll (stores ++ stores') = (mem.storeAll stores).storeAll stores' :=
  List.foldl_append

theorem storeAll_congr {mem mem' : Memory} {a : UInt32} (hsame : mem' a = mem a)
    (stores : List (UInt32 × UInt8)) : mem'.storeAll stores a = mem.storeAll stores a := by
  induction stores generalizing mem mem' with
  | nil => exact hsame
  | cons store stores ih =>
      apply ih
      simp only [set, hsame]

end Memory

/-- The bytes of a 32-bit word in memory. -/
def leBytes (n : Nat) : List UInt8 :=
  [.ofNat n, .ofNat (n / 2 ^ 8), .ofNat (n / 2 ^ 16), .ofNat (n / 2 ^ 24)]

/-- The stores that put bytes at consecutive addresses. -/
def storesAt (addr : UInt32) (bytes : List UInt8) : List (UInt32 × UInt8) :=
  bytes.mapIdx fun i b => (addr + .ofNat i, b)

theorem mem_storesAt {addr : UInt32} {bytes : List UInt8} {store : UInt32 × UInt8} :
    store ∈ storesAt addr bytes ↔ ∃ i, ∃ _ : i < bytes.length, (addr + .ofNat i, bytes[i]) = store :=
  List.mem_mapIdx

theorem storesAt_bytes (addr : UInt32) (bytes : List UInt8) :
    (storesAt addr bytes).map Prod.snd = bytes := by
  apply List.ext_getElem
  · simp [storesAt]
  · intro i _ _
    simp [storesAt]

theorem eq_add_ofNat_iff {a base : UInt32} {n : Nat} (hn : n < 2 ^ 32) :
    a = base + .ofNat n ↔ (a - base).toNat = n := by
  constructor
  · rintro rfl
    rw [UInt32.add_comm, UInt32.add_sub_cancel, UInt32.toNat_ofNat_of_lt' hn]
  · rintro rfl
    rw [UInt32.ofNat_toNat, UInt32.add_comm, UInt32.sub_add_cancel]

theorem toNat_add_ofNat_sub {base : UInt32} {n : Nat} (hn : n < 2 ^ 32) :
    (base + .ofNat n - base).toNat = n :=
  (eq_add_ofNat_iff hn).mp rfl

theorem toNat_sub_add_ofNat {a base : UInt32} {n : Nat} (hn : n < 2 ^ 32) :
    (a - (base + .ofNat n)).toNat = if n ≤ (a - base).toNat then (a - base).toNat - n
      else (a - base).toNat + 2 ^ 32 - n := by
  have ha := a.toNat_lt
  have hb := base.toNat_lt
  rw [UInt32.toNat_sub, UInt32.toNat_sub, UInt32.toNat_add, UInt32.toNat_ofNat_of_lt' hn]
  split <;> omega

theorem Memory.storeAll_storesAt (mem : Memory) (addr : UInt32) {bytes : List UInt8}
    (hlen : bytes.length ≤ 2 ^ 32) (a : UInt32) :
    mem.storeAll (storesAt addr bytes) a =
      if (a - addr).toNat < bytes.length then bytes.getD (a - addr).toNat 0 else mem a := by
  induction bytes using List.reverseRecOn with
  | nil => rfl
  | append_singleton bytes b ih =>
      simp only [List.length_append, List.length_singleton] at hlen
      have hsnoc : mem.storeAll (storesAt addr (bytes ++ [b])) =
          (mem.storeAll (storesAt addr bytes)).set (addr + .ofNat bytes.length) b := by
        rw [storesAt, List.mapIdx_append, Memory.storeAll_append]
        simp [Memory.storeAll, storesAt]
      rw [hsnoc, Memory.set]
      by_cases hlast : (a - addr).toNat = bytes.length
      · rw [if_pos ((eq_add_ofNat_iff (by omega)).mpr hlast), hlast]
        simp
      · rw [if_neg fun heq => hlast ((eq_add_ofNat_iff (by omega)).mp heq), ih (by omega)]
        by_cases hin : (a - addr).toNat < bytes.length
        · simp [hin, Nat.lt_succ_of_lt hin]
        · have hout : ¬ (a - addr).toNat < bytes.length + 1 := by omega
          simp [hin, hout]

/-- The addresses of a byte loop. -/
def addressRun (addr : UInt32) (n : Nat) : List UInt32 := (List.range n).map fun i => addr + .ofNat i

theorem storesAt_addresses (addr : UInt32) (bytes : List UInt8) :
    (storesAt addr bytes).map Prod.fst = addressRun addr bytes.length := by
  apply List.ext_getElem
  · simp [storesAt, addressRun]
  · intro i _ _
    simp [storesAt, addressRun]

/-- The stores of `memcpy`, which copies byte by byte and sees what it has already copied. -/
def copyStores (mem : Memory) (dest src : UInt32) : Nat → List (UInt32 × UInt8)
  | 0 => []
  | n + 1 => (dest, mem src) :: copyStores (mem.set dest (mem src)) (dest + 1) (src + 1) n

theorem add_one_add_ofNat (addr : UInt32) (i : Nat) : addr + 1 + .ofNat i = addr + .ofNat (i + 1) := by
  rw [Nat.add_comm i 1, UInt32.ofNat_add, UInt32.add_assoc]
  rfl

theorem addressRun_succ (addr : UInt32) (n : Nat) :
    addressRun addr (n + 1) = addr :: addressRun (addr + 1) n := by
  rw [addressRun, addressRun, List.range_succ_eq_map, List.map_cons, List.map_map]
  congr 1
  · simp
  · apply List.map_congr_left
    intro i _
    exact (add_one_add_ofNat addr i).symm

theorem copyStores_addresses (mem : Memory) (dest src : UInt32) (n : Nat) :
    (copyStores mem dest src n).map Prod.fst = addressRun dest n := by
  induction n generalizing mem dest src with
  | zero => rfl
  | succ n ih => rw [copyStores, List.map_cons, ih, addressRun_succ]

/-- Two memories with the same bytes in the source and its overlap give the same copy. -/
theorem copyStores_congr {P : UInt32 → Prop} {mem mem' : Memory} (hsame : ∀ a, P a → mem' a = mem a)
    {src : UInt32} {n : Nat} (hsrc : ∀ a ∈ addressRun src n, P a) (dest : UInt32) :
    copyStores mem' dest src n = copyStores mem dest src n := by
  induction n generalizing mem mem' dest src with
  | zero => rfl
  | succ n ih =>
      rw [addressRun_succ, List.forall_mem_cons] at hsrc
      rw [copyStores, copyStores, hsame src hsrc.1, ih _ hsrc.2]
      intro a ha
      simp only [Memory.set, hsame a ha]

theorem copyStores_eq (mem : Memory) (dest src : UInt32) (n : Nat)
    (hapart : ∀ i < n, ∀ j < n, src + .ofNat i ≠ dest + .ofNat j) :
    copyStores mem dest src n = storesAt dest ((List.range n).map fun i => mem (src + .ofNat i)) := by
  induction n generalizing mem dest src with
  | zero => rfl
  | succ n ih =>
      have hrest : ∀ i < n, ∀ j < n, src + 1 + .ofNat i ≠ dest + 1 + .ofNat j := by
        intro i hi j hj
        rw [add_one_add_ofNat, add_one_add_ofNat]
        exact hapart (i + 1) (by omega) (j + 1) (by omega)
      have hbytes : ((List.range n).map fun i => mem.set dest (mem src) (src + 1 + .ofNat i)) =
          (List.range n).map fun i => mem (src + .ofNat (i + 1)) := by
        apply List.map_congr_left
        intro i hi
        have hne := hapart (i + 1) (by simpa using hi) 0 (by omega)
        rw [add_one_add_ofNat, Memory.set_of_ne]
        simpa using hne
      rw [copyStores, ih _ _ _ hrest, hbytes, List.range_succ_eq_map]
      simp [storesAt, List.mapIdx_cons, Function.comp_def, add_one_add_ofNat]

/-- The addresses from `lo` up to but not including `hi`. -/
def Window (lo hi : Nat) (a : UInt32) : Prop := lo ≤ a.toNat ∧ a.toNat < hi

instance (lo hi : Nat) (a : UInt32) : Decidable (Window lo hi a) :=
  inferInstanceAs (Decidable (_ ∧ _))

/-- A run of `n` addresses from `addr` on that lies in a window without wrapping. -/
def RunFits (lo hi : Nat) (addr : UInt32) (n : Nat) : Prop :=
  n = 0 ∨ lo ≤ addr.toNat ∧ addr.toNat + n ≤ hi

instance (lo hi : Nat) (addr : UInt32) (n : Nat) : Decidable (RunFits lo hi addr n) :=
  inferInstanceAs (Decidable (_ ∨ _))

theorem toNat_add_ofNat {addr : UInt32} {i : Nat} (hfit : addr.toNat + i < 2 ^ 32) :
    (addr + .ofNat i).toNat = addr.toNat + i := by
  rw [UInt32.toNat_add, UInt32.toNat_ofNat_of_lt' (show i < 2 ^ 32 by omega), Nat.mod_eq_of_lt hfit]

section Runs

variable {lo hi : Nat} {addr : UInt32} {n : Nat}

theorem RunFits.window (hhi : hi ≤ 2 ^ 32) (hfits : RunFits lo hi addr n) (i : Nat) (hi' : i < n) :
    Window lo hi (addr + .ofNat i) := by
  rcases hfits with hzero | ⟨hlo, hend⟩
  · omega
  · unfold Window
    rw [toNat_add_ofNat (by omega)]
    omega

theorem runFits_iff (hhi : hi < 2 ^ 32) :
    RunFits lo hi addr n ↔ ∀ i < n, Window lo hi (addr + .ofNat i) := by
  refine ⟨fun hfits => hfits.window (Nat.le_of_lt hhi), ?_⟩
  intro hwindow
  by_cases hzero : n = 0
  · exact .inl hzero
  · have hfirst := hwindow 0 (by omega)
    unfold Window at hfirst
    rw [toNat_add_ofNat (by simpa using addr.toNat_lt)] at hfirst
    refine .inr ⟨by omega, ?_⟩
    by_contra hlong
    have hlast := hwindow (hi - addr.toNat) (by omega)
    unfold Window at hlast
    rw [toNat_add_ofNat (by omega)] at hlast
    omega

theorem runFits_iff_addressRun (hhi : hi < 2 ^ 32) :
    RunFits lo hi addr n ↔ ∀ a ∈ addressRun addr n, Window lo hi a := by
  rw [runFits_iff hhi]
  simp [addressRun]

theorem runFits_add (hhi : hi < 2 ^ 32) (k : Nat) :
    RunFits lo hi addr (n + k) ↔ RunFits lo hi addr n ∧ RunFits lo hi (addr + .ofNat n) k := by
  have hlt := addr.toNat_lt
  by_cases hn : n = 0
  · subst hn
    simp [RunFits]
  by_cases hfit : addr.toNat + n < 2 ^ 32
  · unfold RunFits
    rw [toNat_add_ofNat hfit]
    omega
  · unfold RunFits
    omega

theorem RunFits.mono {m : Nat} (hfits : RunFits lo hi addr n) (hm : m ≤ n) :
    RunFits lo hi addr m := by
  unfold RunFits at *
  omega

end Runs

end Magnos.Framework
