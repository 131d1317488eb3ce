import Mathlib.Algebra.Order.Floor.Ring
import Mathlib.Data.Int.Log
import Mathlib.Data.Rat.Floor
import Mathlib.Tactic.Linarith
import Mathlib.Tactic.Ring

/-!
# Rounding to a binary significand

`roundTo p` rounds a rational to the nearest one with a significand of `p` bits,
ties to even.  The exponent is not bounded, so there are neither subnormal
numbers nor infinities.  Representable numbers are fixed, and no nonnegative
number is rounded past a representable one.
-/

namespace NiosHps.Foundation

/-! ## To the nearest integer -/

def nearestEven (q : ℚ) : ℤ :=
  if q - ⌊q⌋ < 1 / 2 then ⌊q⌋
  else if 1 / 2 < q - ⌊q⌋ then ⌊q⌋ + 1
  else if ⌊q⌋ % 2 = 0 then ⌊q⌋
  else ⌊q⌋ + 1

@[simp] theorem nearestEven_intCast (k : ℤ) : nearestEven k = k := by
  simp [nearestEven]

theorem floor_le_nearestEven (q : ℚ) : ⌊q⌋ ≤ nearestEven q := by
  unfold nearestEven
  split_ifs <;> omega

theorem nearestEven_nonneg {q : ℚ} (hq : 0 ≤ q) : 0 ≤ nearestEven q :=
  (Int.floor_nonneg.mpr hq).trans (floor_le_nearestEven q)

theorem nearestEven_le {q : ℚ} {k : ℤ} (hq : q ≤ k) : nearestEven q ≤ k := by
  have hfloor : ⌊q⌋ ≤ k := by
    rw [← Int.floor_intCast (R := ℚ) k]
    exact Int.floor_le_floor hq
  rcases hfloor.eq_or_lt with heq | hlt
  · have hexact : q = k := le_antisymm hq (heq ▸ Int.floor_le q)
    rw [hexact, nearestEven_intCast]
  · unfold nearestEven
    split_ifs <;> omega

/-! ## To a significand of `p` bits -/

section Significand

variable {p : ℕ} {x : ℚ}

/-- The exponent of the last bit of the significand. -/
def unitExponent (p : ℕ) (x : ℚ) : ℤ := Int.log 2 |x| + 1 - p

def roundTo (p : ℕ) (x : ℚ) : ℚ :=
  nearestEven (x / 2 ^ unitExponent p x) * 2 ^ unitExponent p x

/-- The significand `2 ^ p` is admitted: it is the `1` of the next binade. -/
def Representable (p : ℕ) (x : ℚ) : Prop :=
  ∃ m e : ℤ, |m| ≤ 2 ^ p ∧ x = m * 2 ^ e

theorem representable_natCast {n : ℕ} (hn : n ≤ 2 ^ p) :
    Representable p n := by
  refine ⟨n, 0, ?_, by simp⟩
  rw [Nat.abs_cast]
  exact_mod_cast hn

theorem Representable.exists_lt (hp : 0 < p) (h : Representable p x) :
    ∃ m e : ℤ, |m| < 2 ^ p ∧ x = m * 2 ^ e := by
  obtain ⟨m, e, hm, rfl⟩ := h
  rcases hm.lt_or_eq with hlt | heq
  · exact ⟨m, e, hlt, rfl⟩
  · obtain ⟨p, rfl⟩ := Nat.exists_eq_succ_of_ne_zero hp.ne'
    have heven : (2 : ℤ) ∣ m := by
      rw [← dvd_abs, heq]
      exact dvd_pow_self 2 (Nat.succ_ne_zero p)
    obtain ⟨half, rfl⟩ := heven
    refine ⟨half, e + 1, ?_, ?_⟩
    · rw [abs_mul, abs_two, pow_succ] at heq
      have hpos : (0 : ℤ) < 2 ^ p := by positivity
      rw [pow_succ]
      omega
    · rw [zpow_add_one₀ (by norm_num)]
      push_cast
      ring

theorem Representable.exists_units (hp : 0 < p) (h : Representable p x) :
    ∃ k : ℤ, x = k * 2 ^ unitExponent p x := by
  obtain ⟨m, e, hm, hx⟩ := h.exists_lt hp
  rcases eq_or_ne x 0 with hzero | hne
  · exact ⟨0, by simp [hzero]⟩
  have hlt : |x| < (2 : ℕ) ^ (e + p : ℤ) := by
    have hm' : |(m : ℚ)| < 2 ^ p := by exact_mod_cast hm
    have hunit : (0 : ℚ) < 2 ^ e := zpow_pos (by norm_num) e
    rw [hx, abs_mul, abs_of_pos hunit, Nat.cast_two, zpow_add₀ (by norm_num),
      zpow_natCast, mul_comm]
    exact mul_lt_mul_of_pos_left hm' hunit
  have hlog : Int.log 2 |x| < e + p :=
    (Int.lt_zpow_iff_log_lt (by decide) (abs_pos.mpr hne)).mp hlt
  obtain ⟨k, hk⟩ := Int.eq_ofNat_of_zero_le
    (show 0 ≤ e - unitExponent p x by rw [unitExponent]; omega)
  refine ⟨m * 2 ^ k, ?_⟩
  have hsplit : (2 : ℚ) ^ e = 2 ^ k * 2 ^ unitExponent p x := by
    rw [← zpow_natCast, ← zpow_add₀ (by norm_num)]
    congr 1
    omega
  push_cast
  rw [mul_assoc, ← hsplit]
  exact hx

theorem roundTo_units {k : ℤ} (hx : x = k * 2 ^ unitExponent p x) :
    roundTo p x = x := by
  have hunit : (2 : ℚ) ^ unitExponent p x ≠ 0 := zpow_ne_zero _ (by norm_num)
  have hquotient : x / 2 ^ unitExponent p x = k := (div_eq_iff hunit).mpr hx
  rw [roundTo, hquotient, nearestEven_intCast, ← hx]

theorem roundTo_representable (hp : 0 < p) (h : Representable p x) :
    roundTo p x = x := by
  obtain ⟨k, hk⟩ := h.exists_units hp
  exact roundTo_units hk

theorem roundTo_eq_self_iff :
    roundTo p x = x ↔ ∃ k : ℤ, x = k * 2 ^ unitExponent p x := by
  constructor
  · intro hexact
    exact ⟨nearestEven (x / 2 ^ unitExponent p x), hexact.symm⟩
  · rintro ⟨k, hk⟩
    exact roundTo_units hk

theorem unitExponent_natCast (n : ℕ) :
    unitExponent p n = (Nat.log 2 n : ℤ) + 1 - p := by
  rw [unitExponent, Nat.abs_cast, Int.log_natCast]

theorem roundTo_natCast_iff {n : ℕ} :
    roundTo p n = n ↔ 2 ^ (Nat.log 2 n + 1 - p) ∣ n := by
  rw [roundTo_eq_self_iff, unitExponent_natCast]
  rcases le_or_gt (Nat.log 2 n + 1) p with hshort | hlong
  · obtain ⟨j, rfl⟩ := Nat.exists_eq_add_of_le hshort
    have hunit : ((Nat.log 2 n : ℤ) + 1 - (Nat.log 2 n + 1 + j : ℕ)) = -j := by
      push_cast
      ring
    rw [hunit, Nat.sub_eq_zero_of_le hshort, pow_zero]
    refine iff_of_true ⟨n * 2 ^ j, ?_⟩ (one_dvd n)
    push_cast
    rw [zpow_neg, zpow_natCast, mul_assoc, mul_inv_cancel₀ (by positivity),
      mul_one]
  · obtain ⟨j, hj⟩ := Nat.exists_eq_add_of_lt hlong
    have hunit : ((Nat.log 2 n : ℤ) + 1 - p) = (j + 1 : ℕ) := by
      omega
    have hbits : Nat.log 2 n + 1 - p = j + 1 := by omega
    rw [hunit, hbits, zpow_natCast, ← Int.natCast_dvd_natCast]
    constructor
    · rintro ⟨k, hk⟩
      refine ⟨k, ?_⟩
      rw [mul_comm]
      exact_mod_cast hk
    · rintro ⟨k, hk⟩
      refine ⟨k, ?_⟩
      rw [mul_comm] at hk
      exact_mod_cast hk

theorem roundTo_nonneg (hx : 0 ≤ x) : 0 ≤ roundTo p x := by
  have hunit : (0 : ℚ) < 2 ^ unitExponent p x := zpow_pos (by norm_num) _
  have hrounded := nearestEven_nonneg (div_nonneg hx hunit.le)
  exact mul_nonneg (by exact_mod_cast hrounded) hunit.le

theorem exists_natCast_roundTo (n : ℕ) : ∃ m : ℕ, roundTo p n = m := by
  rcases le_or_gt (Nat.log 2 n + 1) p with hshort | hlong
  · refine ⟨n, roundTo_natCast_iff.mpr ?_⟩
    rw [Nat.sub_eq_zero_of_le hshort, pow_zero]
    exact one_dvd n
  · obtain ⟨j, hj⟩ := Nat.exists_eq_add_of_lt hlong
    have hexponent : unitExponent p n = (j + 1 : ℕ) := by
      rw [unitExponent_natCast]
      omega
    have hunit : (0 : ℚ) < 2 ^ unitExponent p (n : ℚ) := zpow_pos (by norm_num) _
    have hquotient : 0 ≤ (n : ℚ) / 2 ^ unitExponent p (n : ℚ) :=
      div_nonneg (Nat.cast_nonneg n) hunit.le
    obtain ⟨k, hk⟩ := Int.eq_ofNat_of_zero_le (nearestEven_nonneg hquotient)
    refine ⟨k * 2 ^ (j + 1), ?_⟩
    rw [roundTo, hk, hexponent, zpow_natCast]
    push_cast
    rfl

theorem roundTo_le_units {k : ℤ} (hx : x ≤ k * 2 ^ unitExponent p x) :
    roundTo p x ≤ k * 2 ^ unitExponent p x := by
  have hunit : (0 : ℚ) < 2 ^ unitExponent p x := zpow_pos (by norm_num) _
  have hrounded := nearestEven_le ((div_le_iff₀ hunit).mpr hx)
  exact mul_le_mul_of_nonneg_right (by exact_mod_cast hrounded) hunit.le

theorem le_next_binade (hx : 0 < x) :
    x ≤ ((2 ^ p : ℤ) : ℚ) * 2 ^ unitExponent p x ∧
      ((2 ^ p : ℤ) : ℚ) * 2 ^ unitExponent p x = 2 ^ (Int.log 2 x + 1) := by
  have hbinade : ((2 ^ p : ℤ) : ℚ) * 2 ^ unitExponent p x =
      2 ^ (Int.log 2 x + 1) := by
    rw [unitExponent, abs_of_pos hx]
    push_cast
    rw [← zpow_natCast, ← zpow_add₀ (by norm_num)]
    congr 1
    omega
  have habove : x < ((2 : ℕ) : ℚ) ^ (Int.log 2 x + 1) :=
    Int.lt_zpow_succ_log_self (by decide) x
  rw [Nat.cast_two] at habove
  exact ⟨hbinade ▸ habove.le, hbinade⟩

theorem representable_roundTo (hx : 0 ≤ x) : Representable p (roundTo p x) := by
  rcases hx.eq_or_lt with rfl | hpos
  · exact ⟨0, 0, by simp, by simp [roundTo, nearestEven]⟩
  have hunit : (0 : ℚ) < 2 ^ unitExponent p x := zpow_pos (by norm_num) _
  refine ⟨nearestEven (x / 2 ^ unitExponent p x), unitExponent p x, ?_, rfl⟩
  rw [abs_of_nonneg (nearestEven_nonneg (div_nonneg hx hunit.le))]
  exact nearestEven_le ((div_le_iff₀ hunit).mpr (le_next_binade hpos).1)

/-- Either `c` is in the binade of `x`, or the next power of two is between. -/
theorem roundTo_le (hp : 0 < p) {c : ℚ} (hc : Representable p c) (hx : 0 ≤ x)
    (hle : x ≤ c) : roundTo p x ≤ c := by
  rcases hx.eq_or_lt with rfl | hpos
  · have hzero : Representable p 0 := representable_natCast (n := 0) (by simp)
    rw [roundTo_representable hp hzero]
    exact hle
  have hlog := Int.log_mono_right (b := 2) hpos hle
  rcases hlog.eq_or_lt with heq | hlt
  · obtain ⟨k, hk⟩ := hc.exists_units hp
    have hunits : unitExponent p c = unitExponent p x := by
      rw [unitExponent, unitExponent, abs_of_pos hpos,
        abs_of_pos (hpos.trans_le hle), heq]
    rw [hunits] at hk
    rw [hk] at hle ⊢
    exact roundTo_le_units hle
  · obtain ⟨habove, hbinade⟩ := le_next_binade (p := p) hpos
    have hbelow : ((2 : ℕ) : ℚ) ^ Int.log 2 c ≤ c :=
      Int.zpow_log_le_self (by decide) (hpos.trans_le hle)
    rw [Nat.cast_two] at hbelow
    calc roundTo p x ≤ ((2 ^ p : ℤ) : ℚ) * 2 ^ unitExponent p x :=
          roundTo_le_units habove
      _ = 2 ^ (Int.log 2 x + 1) := hbinade
      _ ≤ 2 ^ Int.log 2 c := zpow_le_zpow_right₀ (by norm_num) hlt
      _ ≤ c := hbelow

end Significand

end NiosHps.Foundation
