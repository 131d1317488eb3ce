import Mathlib.Algebra.Group.Int.Defs
import Mathlib.Algebra.Group.Nat.Defs
import Mathlib.Data.Int.Basic

/-!
# Small values in 32-bit words

Reading a word as signed or unsigned makes no difference below `2 ^ 31`, where
sums, differences and products that stay in range are exact.
-/

namespace NiosHps.Foundation

section Words

variable {x y : UInt32}

theorem toNat_add_exact (h : x.toNat + y.toNat < 2 ^ 32) :
    (x + y).toNat = x.toNat + y.toNat := by
  rw [UInt32.toNat_add, Nat.mod_eq_of_lt h]

theorem toNat_mul_exact (h : x.toNat * y.toNat < 2 ^ 32) :
    (x * y).toNat = x.toNat * y.toNat := by
  rw [UInt32.toNat_mul, Nat.mod_eq_of_lt h]

theorem toNat_sub_exact (h : y.toNat ≤ x.toNat) :
    (x - y).toNat = x.toNat - y.toNat :=
  UInt32.toNat_sub_of_le _ _ (UInt32.le_iff_toNat_le.mpr h)

theorem word_sub_eq_zero : x - y = 0 ↔ x = y := by
  constructor
  · intro hzero
    rw [← UInt32.sub_add_cancel x y, hzero, UInt32.zero_add]
  · rintro rfl
    exact UInt32.sub_self x

theorem toInt32_toInt (h : x.toNat < 2 ^ 31) : x.toInt32.toInt = x.toNat := by
  have hhalf : 2 * x.toBitVec.toNat < 2 ^ 32 := by
    rw [UInt32.toNat_toBitVec]
    omega
  exact BitVec.toInt_eq_toNat_of_lt hhalf

end Words

section SignedWords

variable {x y : Int32} {k : Nat}

theorem toUInt32_toNat (h : x.toInt = k) : x.toUInt32.toNat = k := by
  have hcond := BitVec.toInt_eq_toNat_cond x.toBitVec
  have hlt := x.toUInt32.toNat_lt
  rw [Int32.toInt_toBitVec, Int32.toNat_toBitVec, h] at hcond
  split_ifs at hcond <;> omega

theorem mul_toUInt32_toNat (h : x.toInt * y.toInt = k) (hlt : k < 2 ^ 31) :
    (x * y).toUInt32.toNat = k := by
  apply toUInt32_toNat
  rw [Int32.toInt_mul, h]
  exact Int.bmod_eq_of_le (by omega) (by omega)

theorem toInt_succ_exact (h : x.toInt = k) (hlt : k + 1 < 2 ^ 31) :
    (x + 1).toInt = x.toInt + 1 := by
  rw [Int32.toInt_add, Int32.toInt_one, h]
  exact Int.bmod_eq_of_le (by omega) (by omega)

end SignedWords

end NiosHps.Foundation
