import NiosHps.Foundation.Words

/-!
# Little-endian words in a memory of bytes

`loadNat mem addr k` is the number in the `k` bytes from `addr` on, the least
significant byte first, and `storeNat mem addr k value` writes such a number.
An `int` is four of these bytes and a `bool` is one.
-/

namespace NiosHps.Foundation

def loadNat (mem : Nat → UInt8) : Nat → Nat → Nat
  | _, 0 => 0
  | addr, k + 1 => (mem addr).toNat + 256 * loadNat mem (addr + 1) k

def storeNat (mem : Nat → UInt8) : Nat → Nat → Nat → Nat → UInt8
  | _, 0, _ => mem
  | addr, k + 1, value =>
      Function.update (storeNat mem (addr + 1) k (value / 256)) addr
        (UInt8.ofNat value)

theorem loadNat_congr {mem mem' : Nat → UInt8} {addr k : Nat}
    (hagree : ∀ i, addr ≤ i → i < addr + k → mem i = mem' i) :
    loadNat mem addr k = loadNat mem' addr k := by
  induction k generalizing addr with
  | zero => rfl
  | succ k ih =>
      have hrest : loadNat mem (addr + 1) k = loadNat mem' (addr + 1) k :=
        ih fun i hlow hhigh => hagree i (by omega) (by omega)
      rw [loadNat, loadNat, hrest, hagree addr le_rfl (by omega)]

theorem loadNat_shift (mem : Nat → UInt8) (base addr k : Nat) :
    loadNat mem (base + addr) k = loadNat (fun i => mem (base + i)) addr k := by
  induction k generalizing addr with
  | zero => rfl
  | succ k ih => rw [loadNat, loadNat, Nat.add_assoc, ih]

theorem storeNat_outside {mem : Nat → UInt8} {addr k value i : Nat}
    (hi : i < addr ∨ addr + k ≤ i) : storeNat mem addr k value i = mem i := by
  induction k generalizing addr value with
  | zero => rfl
  | succ k ih =>
      rw [storeNat, Function.update_of_ne (by omega)]
      exact ih (by omega)

theorem loadNat_storeNat (mem : Nat → UInt8) (addr k value : Nat) :
    loadNat (storeNat mem addr k value) addr k = value % 256 ^ k := by
  induction k generalizing addr value with
  | zero => rw [loadNat, Nat.pow_zero, Nat.mod_one]
  | succ k ih =>
      -- the first byte lies outside the store of the others
      have hrest : loadNat (storeNat mem addr (k + 1) value) (addr + 1) k =
          value / 256 % 256 ^ k := by
        rw [← ih (addr + 1) (value / 256)]
        refine loadNat_congr fun i hlow _ => ?_
        rw [storeNat, Function.update_of_ne (by omega)]
      have hpow : 256 ^ (k + 1) = 256 * 256 ^ k := Nat.pow_succ'
      rw [loadNat, hrest, storeNat, Function.update_self, UInt8.toNat_ofNat',
        hpow, Nat.mod_mul]

theorem loadNat_storeNat_of_disjoint {mem : Nat → UInt8}
    {addr k addr' k' value : Nat}
    (hdisjoint : addr + k ≤ addr' ∨ addr' + k' ≤ addr) :
    loadNat (storeNat mem addr' k' value) addr k = loadNat mem addr k :=
  loadNat_congr fun i hlow hhigh => storeNat_outside (by omega)

/-! ## `int` and `bool` -/

def loadInt (mem : Nat → UInt8) (addr : Nat) : Int32 :=
  (UInt32.ofNat (loadNat mem addr 4)).toInt32

def storeInt (mem : Nat → UInt8) (addr : Nat) (value : Int32) : Nat → UInt8 :=
  storeNat mem addr 4 value.toUInt32.toNat

def loadBool (mem : Nat → UInt8) (addr : Nat) : Bool := mem addr != 0

def storeBool (mem : Nat → UInt8) (addr : Nat) (value : Bool) : Nat → UInt8 :=
  Function.update mem addr (if value then 1 else 0)

section Fields

variable {mem : Nat → UInt8} {addr addr' i : Nat}

@[simp] theorem loadInt_storeInt (mem : Nat → UInt8) (addr : Nat)
    (value : Int32) : loadInt (storeInt mem addr value) addr = value := by
  have hlt : value.toUInt32.toNat < 256 ^ 4 := value.toUInt32.toNat_lt
  rw [loadInt, storeInt, loadNat_storeNat, Nat.mod_eq_of_lt hlt,
    UInt32.ofNat_toNat]
  rfl

@[simp] theorem loadBool_storeBool (mem : Nat → UInt8) (addr : Nat)
    (value : Bool) : loadBool (storeBool mem addr value) addr = value := by
  cases value <;> simp [loadBool, storeBool]

theorem loadInt_congr {mem' : Nat → UInt8}
    (hagree : ∀ i, addr ≤ i → i < addr + 4 → mem i = mem' i) :
    loadInt mem addr = loadInt mem' addr := by
  rw [loadInt, loadInt, loadNat_congr hagree]

theorem loadInt_of_storeInt {mem' : Nat → UInt8} {value : Int32}
    (hbytes : ∀ k < 4, mem (addr + k) = storeInt mem' 0 value k) :
    loadInt mem addr = value := by
  rw [← loadInt_storeInt mem' 0 value, loadInt, loadInt, ← Nat.add_zero addr,
    loadNat_shift]
  refine congrArg (fun n => (UInt32.ofNat n).toInt32) (loadNat_congr ?_)
  intro i _ hi
  exact hbytes i (by omega)

theorem loadInt_storeInt_of_disjoint {value : Int32}
    (hdisjoint : addr + 4 ≤ addr' ∨ addr' + 4 ≤ addr) :
    loadInt (storeInt mem addr' value) addr = loadInt mem addr := by
  rw [loadInt, storeInt, loadNat_storeNat_of_disjoint hdisjoint, loadInt]

theorem loadInt_storeBool_of_disjoint {value : Bool}
    (hdisjoint : addr' < addr ∨ addr + 4 ≤ addr') :
    loadInt (storeBool mem addr' value) addr = loadInt mem addr :=
  loadInt_congr fun i hlow hhigh => Function.update_of_ne (by omega) _ _

theorem loadBool_storeInt_of_disjoint {value : Int32}
    (hdisjoint : addr < addr' ∨ addr' + 4 ≤ addr) :
    loadBool (storeInt mem addr' value) addr = loadBool mem addr := by
  rw [loadBool, storeInt, storeNat_outside hdisjoint, loadBool]

theorem loadBool_storeBool_of_ne {value : Bool} (hne : addr ≠ addr') :
    loadBool (storeBool mem addr' value) addr = loadBool mem addr := by
  rw [loadBool, storeBool, Function.update_of_ne hne, loadBool]

theorem storeInt_outside {value : Int32} (hi : i < addr ∨ addr + 4 ≤ i) :
    storeInt mem addr value i = mem i :=
  storeNat_outside hi

theorem storeBool_outside {value : Bool} (hi : i ≠ addr) :
    storeBool mem addr value i = mem i :=
  Function.update_of_ne hi _ _

end Fields

end NiosHps.Foundation
