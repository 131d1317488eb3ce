import Mathlib.Algebra.Group.Defs
import Mathlib.Algebra.Group.Basic
import Mathlib.Tactic.Ring

/-!
# Right-to-left binary exponentiation

The loop is stated for an arbitrary multiplication.  It computes a power in
every monoid that the multiplication maps to, as long as all its operands stay
in a domain on which the map is multiplicative.  For machine words this is the
domain on which no product wraps, or on which wrapping does no harm.
-/

namespace NiosHps.Foundation

def binaryPow {α : Type*} (mul : α → α → α) (result base : α)
    (exponent : Nat) : α :=
  if exponent = 0 then result
  else
    binaryPow mul (if exponent % 2 = 1 then mul result base else result)
      (mul base base) (exponent / 2)

section BinaryPow

variable {α : Type*} {mul : α → α → α}

theorem binaryPow_zero (result base : α) :
    binaryPow mul result base 0 = result := by
  rw [binaryPow, if_pos rfl]

theorem binaryPow_pos {exponent : Nat} (h : 0 < exponent) (result base : α) :
    binaryPow mul result base exponent =
      binaryPow mul (if exponent % 2 = 1 then mul result base else result)
        (mul base base) (exponent / 2) := by
  rw [binaryPow, if_neg h.ne']

/-- A multiplication that is a product on `domain`, seen through `φ`. -/
structure MulHomOn {M : Type*} [Monoid M] (mul : α → α → α)
    (domain : α → Prop) (φ : α → M) : Prop where
  closed : ∀ x y, domain x → domain y → domain (mul x y)
  map_mul : ∀ x y, domain x → domain y → φ (mul x y) = φ x * φ y

theorem MulHomOn.binaryPow {M : Type*} [Monoid M] {domain : α → Prop}
    {φ : α → M} (h : MulHomOn mul domain φ) {result base : α}
    (hresult : domain result) (hbase : domain base) (exponent : Nat) :
    domain (binaryPow mul result base exponent) ∧
      φ (binaryPow mul result base exponent) = φ result * φ base ^ exponent := by
  induction exponent using Nat.strong_induction_on generalizing result base with
  | _ exponent ih =>
      rcases Nat.eq_zero_or_pos exponent with rfl | hpos
      · rw [binaryPow_zero, pow_zero, mul_one]
        exact ⟨hresult, rfl⟩
      · rw [binaryPow_pos hpos]
        have hlt : exponent / 2 < exponent := Nat.div_lt_self hpos (by decide)
        have hsquare := h.closed base base hbase hbase
        have hmap := h.map_mul base base hbase hbase
        have hhalves := Nat.div_add_mod exponent 2
        by_cases hodd : exponent % 2 = 1
        · rw [if_pos hodd]
          obtain ⟨hdomain, hpow⟩ :=
            ih _ hlt (h.closed result base hresult hbase) hsquare
          refine ⟨hdomain, ?_⟩
          rw [hpow, h.map_mul result base hresult hbase, hmap, ← pow_two,
            ← pow_mul, mul_assoc, ← pow_succ']
          rw [hodd] at hhalves
          rw [hhalves]
        · rw [if_neg hodd]
          obtain ⟨hdomain, hpow⟩ := ih _ hlt hresult hsquare
          refine ⟨hdomain, ?_⟩
          rw [hpow, hmap, ← pow_two, ← pow_mul]
          rw [show 2 * (exponent / 2) = exponent by omega]

theorem binaryPow_absorbing {zero : α} (hzero : ∀ x, mul x zero = zero)
    {exponent : Nat} (hpos : 0 < exponent) (result : α) :
    binaryPow mul result zero exponent = zero := by
  induction exponent using Nat.strong_induction_on generalizing result with
  | _ exponent ih =>
      rw [binaryPow_pos hpos, hzero, hzero]
      by_cases hlast : exponent / 2 = 0
      · have hone : exponent % 2 = 1 := by omega
        rw [hlast, if_pos hone, binaryPow_zero]
      · exact ih _ (Nat.div_lt_self hpos (by decide)) (by omega) _

theorem binaryPow_eq_zero {zero : α} (hzero : ∀ x, mul x zero = zero)
    {squarings : Nat} {base : α} {exponent : Nat}
    (hreach : (fun x => mul x x)^[squarings] base = zero)
    (hlarge : 2 ^ squarings ≤ exponent) (result : α) :
    binaryPow mul result base exponent = zero := by
  induction squarings generalizing base exponent result with
  | zero =>
      rw [Function.iterate_zero_apply] at hreach
      rw [hreach]
      exact binaryPow_absorbing hzero (by omega) result
  | succ squarings ih =>
      rw [Function.iterate_succ_apply] at hreach
      rw [pow_succ] at hlarge
      have hpos : 0 < 2 ^ squarings := Nat.two_pow_pos squarings
      rw [binaryPow_pos (by omega)]
      exact ih hreach (by omega) _

/-! ## One chain of products -/

/-- `P` holds of the operands of every product that still counts. -/
def ChainAll (P : α → α → Prop) (mul : α → α → α) (result base : α)
    (exponent : Nat) : Prop :=
  if exponent = 0 then True
  else
    (exponent % 2 = 1 → P result base) ∧
      (exponent / 2 ≠ 0 → P base base) ∧
      ChainAll P mul (if exponent % 2 = 1 then mul result base else result)
        (mul base base) (exponent / 2)

variable {P : α → α → Prop}

theorem chainAll_zero (result base : α) : ChainAll P mul result base 0 := by
  rw [ChainAll, if_pos rfl]
  trivial

theorem chainAll_pos {exponent : Nat} (h : 0 < exponent) (result base : α) :
    ChainAll P mul result base exponent ↔
      (exponent % 2 = 1 → P result base) ∧
        (exponent / 2 ≠ 0 → P base base) ∧
        ChainAll P mul (if exponent % 2 = 1 then mul result base else result)
          (mul base base) (exponent / 2) := by
  rw [ChainAll, if_neg h.ne']

section Map

variable {β : Type*} {mul' : β → β → β} {φ : α → β}

theorem map_next {odd : Prop} [Decidable odd]
    (hmul : ∀ x y, P x y → φ (mul x y) = mul' (φ x) (φ y)) {result base : α}
    (hresult : odd → P result base) :
    φ (if odd then mul result base else result) =
      if odd then mul' (φ result) (φ base) else φ result := by
  split_ifs with hodd
  · exact hmul _ _ (hresult hodd)
  · rfl

theorem ChainAll.map_binaryPow
    (hmul : ∀ x y, P x y → φ (mul x y) = mul' (φ x) (φ y))
    {result base : α} {exponent : Nat}
    (h : ChainAll P mul result base exponent) :
    φ (binaryPow mul result base exponent) =
      binaryPow mul' (φ result) (φ base) exponent := by
  induction exponent using Nat.strong_induction_on generalizing result base with
  | _ exponent ih =>
      rcases Nat.eq_zero_or_pos exponent with rfl | hpos
      · rw [binaryPow_zero, binaryPow_zero]
      · obtain ⟨hresult, hbase, hrest⟩ := (chainAll_pos hpos result base).mp h
        rw [binaryPow_pos hpos, binaryPow_pos hpos, ← map_next hmul hresult]
        by_cases hlast : exponent / 2 = 0
        · rw [hlast, binaryPow_zero, binaryPow_zero]
        · rw [← hmul _ _ (hbase hlast)]
          exact ih _ (Nat.div_lt_self hpos (by decide)) hrest

theorem chainAll_iff {Q : β → β → Prop} {domain : α → Prop}
    (hiff : ∀ x y, domain x → domain y → (P x y ↔ Q (φ x) (φ y)))
    (hmul : ∀ x y, P x y → φ (mul x y) = mul' (φ x) (φ y))
    (hclosed : ∀ x y, domain x → domain y → domain (mul x y))
    {result base : α} (hresult : domain result) (hbase : domain base)
    (exponent : Nat) :
    ChainAll P mul result base exponent ↔
      ChainAll Q mul' (φ result) (φ base) exponent := by
  induction exponent using Nat.strong_induction_on generalizing result base with
  | _ exponent ih =>
      rcases Nat.eq_zero_or_pos exponent with rfl | hpos
      · exact iff_of_true (chainAll_zero _ _) (chainAll_zero _ _)
      · rw [chainAll_pos hpos, chainAll_pos hpos]
        have hresultIff := hiff _ _ hresult hbase
        have hbaseIff := hiff _ _ hbase hbase
        rw [← hresultIff, ← hbaseIff]
        refine and_congr_right fun hodd => and_congr_right fun hhalf => ?_
        rw [← map_next hmul hodd]
        by_cases hlast : exponent / 2 = 0
        · rw [hlast]
          exact iff_of_true (chainAll_zero _ _) (chainAll_zero _ _)
        · rw [← hmul _ _ (hhalf hlast)]
          refine ih _ (Nat.div_lt_self hpos (by decide)) ?_ (hclosed _ _ hbase hbase)
          split_ifs
          · exact hclosed _ _ hresult hbase
          · exact hresult

end Map

end BinaryPow

end NiosHps.Foundation
