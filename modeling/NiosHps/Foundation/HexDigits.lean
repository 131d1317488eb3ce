import Mathlib.Data.BitVec
import Mathlib.Tactic.IntervalCases

/-!
# Hexadecimal digits of a word

Digit `k` of a word is the group of four bits from bit `4 * k` on.  Replacing one
group leaves the others, and words with the same digits are equal.
-/

namespace NiosHps.Foundation

section HexDigits

variable {w : Nat}

def hexDigit (x : BitVec w) (k : Nat) : BitVec 4 := x.extractLsb' (4 * k) 4

def digitMask (w k : Nat) : BitVec w := 15#w <<< (4 * k)

/-- Clear the group of digit `k`, then put the low four bits of `digit` there. -/
def withHexDigit (x : BitVec w) (k : Nat) (digit : BitVec w) : BitVec w :=
  (x &&& ~~~digitMask w k) ||| ((digit &&& 15#w) <<< (4 * k))

theorem getLsbD_fifteen (i : Nat) :
    (15#w).getLsbD i = (decide (i < w) && decide (i < 4)) := by
  rw [BitVec.getLsbD_ofNat, show 15 = 2 ^ 4 - 1 from rfl,
    Nat.testBit_two_pow_sub_one]

theorem getLsbD_digitMask (k i : Nat) :
    (digitMask w k).getLsbD i =
      (decide (i < w) && decide (4 * k ≤ i) && decide (i < 4 * k + 4)) := by
  rw [digitMask, BitVec.getLsbD_shiftLeft, getLsbD_fifteen]
  by_cases hlow : i < 4 * k
  · simp [hlow]
  · have hgroup : i - 4 * k < 4 ↔ i < 4 * k + 4 := by omega
    have hword : i < w → i - 4 * k < w := by omega
    by_cases hi : i < w <;> simp [hlow, hgroup, hi, hword, not_lt.mp hlow]

theorem getLsbD_hexDigit (x : BitVec w) (k : Nat) {i : Nat} (hi : i < 4) :
    (hexDigit x k).getLsbD i = x.getLsbD (4 * k + i) := by
  rw [hexDigit, BitVec.getLsbD_extractLsb', decide_eq_true hi, Bool.true_and]

theorem hexDigit_ext {x y : BitVec w}
    (h : ∀ k, 4 * k < w → hexDigit x k = hexDigit y k) : x = y := by
  apply BitVec.eq_of_getLsbD_eq
  intro i hi
  have hdigit := congrArg (fun digit => digit.getLsbD (i % 4))
    (h (i / 4) (by omega))
  have hgroup : i % 4 < 4 := Nat.mod_lt _ (by decide)
  simp only [getLsbD_hexDigit _ _ hgroup, Nat.div_add_mod] at hdigit
  exact hdigit

theorem hexDigit_withHexDigit_self {x digit : BitVec w} {k : Nat}
    (hk : 4 * k + 4 ≤ w) :
    hexDigit (withHexDigit x k digit) k = digit.setWidth 4 := by
  apply BitVec.eq_of_getLsbD_eq
  intro i hi
  have hlow : ¬4 * k + i < 4 * k := by omega
  rw [getLsbD_hexDigit _ _ hi, withHexDigit, BitVec.getLsbD_or,
    BitVec.getLsbD_and, BitVec.getLsbD_not, getLsbD_digitMask,
    BitVec.getLsbD_shiftLeft, Nat.add_sub_cancel_left, BitVec.getLsbD_and,
    getLsbD_fifteen, BitVec.getLsbD_setWidth]
  simp [hi, hlow, (by omega : 4 * k + i < w), (by omega : i < w)]

theorem hexDigit_withHexDigit_of_ne {x digit : BitVec w} {j k : Nat}
    (hne : j ≠ k) : hexDigit (withHexDigit x k digit) j = hexDigit x j := by
  apply BitVec.eq_of_getLsbD_eq
  intro i hi
  have houtside : ¬(4 * k ≤ 4 * j + i ∧ 4 * j + i < 4 * k + 4) := by omega
  rw [getLsbD_hexDigit _ _ hi, getLsbD_hexDigit _ _ hi, withHexDigit,
    BitVec.getLsbD_or, BitVec.getLsbD_and, BitVec.getLsbD_not,
    getLsbD_digitMask, BitVec.getLsbD_shiftLeft, BitVec.getLsbD_and,
    getLsbD_fifteen]
  by_cases hword : 4 * j + i < w
  · by_cases hlow : 4 * j + i < 4 * k
    · simp [hword, hlow]
    · have hhigh : ¬4 * j + i < 4 * k + 4 := by omega
      have hdigit : ¬4 * j + i - 4 * k < 4 := by omega
      simp [hword, hhigh, hdigit]
  · simp [hword, BitVec.getLsbD_of_ge x _ (not_lt.mp hword)]

theorem hexDigit_of_ge {x : BitVec w} {k : Nat} (hk : w ≤ 4 * k) :
    hexDigit x k = 0 := by
  apply BitVec.eq_of_getLsbD_eq
  intro i hi
  rw [getLsbD_hexDigit _ _ hi, BitVec.getLsbD_of_ge _ _ (by omega)]
  simp

theorem toNat_lt_of_hexDigit {x : BitVec w} {k : Nat}
    (hzero : ∀ j, k ≤ j → hexDigit x j = 0#4) : x.toNat < 2 ^ (4 * k) := by
  apply Nat.lt_pow_two_of_testBit
  intro i hi
  have hgroup : i % 4 < 4 := Nat.mod_lt _ (by decide)
  have hbit := getLsbD_hexDigit x (i / 4) hgroup
  rw [hzero (i / 4) (by omega), Nat.div_add_mod] at hbit
  rw [BitVec.testBit_toNat, ← hbit]
  exact BitVec.getLsbD_zero

theorem hexDigit_setWidth {v : Nat} (hwide : w ≤ v) (x : BitVec w) (k : Nat) :
    hexDigit (x.setWidth v) k = hexDigit x k := by
  apply BitVec.eq_of_getLsbD_eq
  intro i hi
  rw [getLsbD_hexDigit _ _ hi, getLsbD_hexDigit _ _ hi, BitVec.getLsbD_setWidth]
  by_cases hword : 4 * k + i < v
  · simp [hword]
  · rw [BitVec.getLsbD_of_ge x _ (by omega), Bool.and_false]

theorem setWidth_sshiftRight {x : BitVec w} {k : Nat} (hk : 4 * k + 4 ≤ w) :
    (x.sshiftRight (4 * k) &&& 15#w).setWidth 4 = hexDigit x k := by
  apply BitVec.eq_of_getLsbD_eq
  intro i hi
  rw [getLsbD_hexDigit _ _ hi, BitVec.getLsbD_setWidth, BitVec.getLsbD_and,
    getLsbD_fifteen, BitVec.getLsbD_sshiftRight]
  simp [hi, (by omega : 4 * k + i < w), (by omega : i < w)]

end HexDigits

end NiosHps.Foundation
