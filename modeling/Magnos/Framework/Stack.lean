import Magnos.Framework.ByteMemory

/-!
# Words on a stack

32-bit words in byte-addressed memory, and a stack that grows down.  Addresses wrap, so that
whether an address is in a run of addresses is told by its distance from the first of them.
-/

namespace Magnos.Framework

/-- The `n` addresses from `lo` on. -/
def Covers (lo : UInt32) (n : Nat) (a : UInt32) : Prop := (a - lo).toNat < n

instance (lo : UInt32) (n : Nat) (a : UInt32) : Decidable (Covers lo n a) :=
  inferInstanceAs (Decidable (_ < _))

theorem Covers.mono {lo a : UInt32} {n m : Nat} (h : Covers lo n a) (hle : n ≤ m) :
    Covers lo m a := lt_of_lt_of_le h hle

theorem Covers.distance {lo a : UInt32} {off n : Nat} (h : Covers (lo + .ofNat off) n a)
    (hfits : off + n ≤ 2 ^ 32) : off ≤ (a - lo).toNat ∧ (a - lo).toNat < off + n := by
  unfold Covers at h
  rw [UInt32.toNat_sub, UInt32.toNat_add, UInt32.toNat_ofNat'] at h
  rw [UInt32.toNat_sub]
  have ha := a.toNat_lt
  have hlo := lo.toNat_lt
  omega

theorem Covers.within {lo a : UInt32} {off n m : Nat} (h : Covers (lo + .ofNat off) n a)
    (hpart : off + n ≤ m) (hm : m ≤ 2 ^ 32) : Covers lo m a :=
  lt_of_lt_of_le (h.distance (hpart.trans hm)).2 hpart

theorem Covers.not_behind {lo a : UInt32} {n m : Nat} (h : Covers (lo + .ofNat n) m a)
    (hfits : n + m ≤ 2 ^ 32) : ¬ Covers lo n a :=
  not_lt_of_ge (h.distance hfits).1

namespace Memory

def storeWord (mem : Memory) (addr w : UInt32) : Memory :=
  mem.storeAll (storesAt addr (leBytes w.toNat))

def loadWord (mem : Memory) (addr : UInt32) : UInt32 :=
  .ofNat ((mem addr).toNat + (mem (addr + 1)).toNat * 2 ^ 8 + (mem (addr + 2)).toNat * 2 ^ 16 +
    (mem (addr + 3)).toNat * 2 ^ 24)

theorem storeWord_of_outside (mem : Memory) {addr a : UInt32} (w : UInt32)
    (hout : ¬ Covers addr 4 a) : mem.storeWord addr w a = mem a := by
  apply storeAll_of_not_mem
  intro store hstore heq
  obtain ⟨i, hi, rfl⟩ := mem_storesAt.mp hstore
  apply hout
  have hlt : i < 4 := hi
  rw [Covers, ← heq, UInt32.add_comm, UInt32.add_sub_cancel,
    UInt32.toNat_ofNat_of_lt' (hlt.trans (by decide))]
  exact hlt

theorem loadWord_storeWord (mem : Memory) (addr w : UInt32) :
    (mem.storeWord addr w).loadWord addr = w := by
  have hstore : mem.storeWord addr w =
      (((mem.set (addr + 0) (.ofNat w.toNat)).set (addr + 1) (.ofNat (w.toNat / 2 ^ 8))).set
        (addr + 2) (.ofNat (w.toNat / 2 ^ 16))).set (addr + 3) (.ofNat (w.toNat / 2 ^ 24)) := rfl
  have hself : ∀ i j : UInt32, addr + i = addr + j ↔ i = j := fun i j => UInt32.add_right_inj addr
  have hzero : ∀ i : UInt32, addr = addr + i ↔ 0 = i := by
    intro i
    rw [← hself 0 i, UInt32.add_zero]
  have hw := w.toNat_lt
  apply UInt32.toNat_inj.mp
  rw [hstore, loadWord, UInt32.toNat_ofNat']
  simp +decide only [set, hself, hzero, if_true, if_false, UInt8.toNat_ofNat']
  omega

theorem loadWord_congr {mem mem' : Memory} {addr : UInt32}
    (hsame : ∀ a, Covers addr 4 a → mem' a = mem a) : mem'.loadWord addr = mem.loadWord addr := by
  have hbyte : ∀ i : UInt32, i.toNat < 4 → mem' (addr + i) = mem (addr + i) := by
    intro i hi
    apply hsame
    rw [Covers, UInt32.add_comm, UInt32.add_sub_cancel]
    exact hi
  have hfirst := hbyte 0 (by decide)
  rw [UInt32.add_zero] at hfirst
  rw [loadWord, loadWord, hfirst, hbyte 1 (by decide), hbyte 2 (by decide), hbyte 3 (by decide)]

/-- A word that is kept apart from memory, after stores to memory where it has an address. -/
def overwriteWord (addr w : UInt32) (stores : List (UInt32 × UInt8)) : UInt32 :=
  ((storeWord (fun _ => 0) addr w).storeAll stores).loadWord addr

theorem overwriteWord_of_outside {addr : UInt32} {stores : List (UInt32 × UInt8)}
    (hout : ∀ store ∈ stores, ¬ Covers addr 4 store.1) (w : UInt32) :
    overwriteWord addr w stores = w := by
  have hsame : ∀ a, Covers addr 4 a →
      (storeWord (fun _ => 0) addr w).storeAll stores a = storeWord (fun _ => 0) addr w a := by
    intro a ha
    apply storeAll_of_not_mem
    intro store hstore heq
    exact hout store hstore (heq ▸ ha)
  rw [overwriteWord, loadWord_congr hsame, loadWord_storeWord]

/-- `push` for each word in turn. -/
def pushAll (mem : Memory) (sp : UInt32) : List UInt32 → Memory × UInt32
  | [] => (mem, sp)
  | w :: ws => pushAll (mem.storeWord (sp - 4) w) (sp - 4) ws

theorem sub_wordBytes_succ (sp : UInt32) (n : Nat) :
    sp - .ofNat (4 * (n + 1)) = sp - 4 - .ofNat (4 * n) := by
  apply UInt32.toNat_inj.mp
  have hfour : (4 : UInt32).toNat = 4 := rfl
  have hlt := sp.toNat_lt
  simp only [UInt32.toNat_sub, UInt32.toNat_ofNat', hfour]
  omega

theorem pushAll_sp (mem : Memory) (sp : UInt32) (ws : List UInt32) :
    (mem.pushAll sp ws).2 = sp - .ofNat (4 * ws.length) := by
  induction ws generalizing mem sp with
  | nil => exact (UInt32.sub_zero sp).symm
  | cons w ws ih =>
      rw [pushAll, ih, List.length_cons, sub_wordBytes_succ]

theorem pushAll_append (mem : Memory) (sp : UInt32) (ws ws' : List UInt32) :
    mem.pushAll sp (ws ++ ws') = (mem.pushAll sp ws).1.pushAll (mem.pushAll sp ws).2 ws' := by
  induction ws generalizing mem sp with
  | nil => rfl
  | cons w ws ih => exact ih ..

theorem pushAll_of_outside (mem : Memory) (sp : UInt32) (ws : List UInt32) {a : UInt32}
    (hfits : 4 * ws.length ≤ 2 ^ 32)
    (hout : ¬ Covers (sp - .ofNat (4 * ws.length)) (4 * ws.length) a) :
    (mem.pushAll sp ws).1 a = mem a := by
  induction ws generalizing mem sp with
  | nil => rfl
  | cons w ws ih =>
      rw [List.length_cons] at hfits
      have hfirst : sp - 4 = sp - 4 - .ofNat (4 * ws.length) + .ofNat (4 * ws.length) :=
        (UInt32.sub_add_cancel ..).symm
      rw [List.length_cons, sub_wordBytes_succ] at hout
      rw [pushAll, ih _ _ (by omega)]
      · apply storeWord_of_outside
        intro hcover
        rw [hfirst] at hcover
        exact hout (hcover.within (by omega) hfits)
      · intro hcover
        exact hout (hcover.mono (by omega))

/-- The words that have been pushed, from the stack pointer upwards. -/
theorem pushAll_load (mem : Memory) (sp : UInt32) (ws : List UInt32) {i : Nat} {w : UInt32}
    (hfits : 4 * ws.length ≤ 2 ^ 32) (hi : ws.reverse[i]? = some w) :
    (mem.pushAll sp ws).1.loadWord ((mem.pushAll sp ws).2 + .ofNat (4 * i)) = w := by
  induction ws generalizing mem sp with
  | nil => cases hi
  | cons v ws ih =>
      rw [List.length_cons] at hfits
      rw [pushAll]
      rw [List.reverse_cons, List.getElem?_append, List.length_reverse] at hi
      split at hi
      · exact ih _ _ (by omega) hi
      · next hlast =>
          obtain ⟨hzero, rfl⟩ : i - ws.length = 0 ∧ v = w := by
            simpa [List.getElem?_singleton] using hi
          obtain rfl : i = ws.length := by omega
          have hkept : ((mem.storeWord (sp - 4) v).pushAll (sp - 4) ws).1.loadWord (sp - 4) =
              (mem.storeWord (sp - 4) v).loadWord (sp - 4) := by
            apply loadWord_congr
            intro a hcover
            rw [← UInt32.sub_add_cancel (sp - 4) (.ofNat (4 * ws.length))] at hcover
            exact pushAll_of_outside _ _ _ (by omega) (hcover.not_behind (by omega))
          rw [pushAll_sp, UInt32.sub_add_cancel, hkept, loadWord_storeWord]

end Memory
end Magnos.Framework
