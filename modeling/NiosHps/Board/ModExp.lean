import NiosHps.Foundation.BinaryPow
import NiosHps.Foundation.Rsa
import NiosHps.Foundation.Words
import Mathlib.Data.ZMod.Basic

/-!
# `mod_exp` on 32-bit words

The products are words, so the loop is an exact modular power as long as the
square of the modulus fits in 32 bits, or where wrapping keeps the residue.
Above that bound already the repeated squares of two wrap to zero.

A remainder by zero is undefined in the source.  Here, as in `UInt32`, it
leaves the dividend; `decrypt_wh` reaches it at start-up, with exponent zero,
where the result does not depend on it.
-/

namespace NiosHps.Board

open NiosHps.Foundation

def modExpLoop (modulus result base exponent : UInt32) : UInt32 :=
  if exponent > 0 then
    let result :=
      if exponent % 2 = 1 then (result * base) % modulus else result
    modExpLoop modulus result ((base * base) % modulus) (exponent / 2)
  else result
termination_by exponent.toNat
decreasing_by
  simp_all only [gt_iff_lt, UInt32.lt_iff_toNat_lt, UInt32.toNat_div]
  exact Nat.div_lt_self ‹_› (by decide)

def modExp (base exponent modulus : UInt32) : UInt32 :=
  modExpLoop modulus 1 (base % modulus) exponent

/-! ## The loop as a binary power -/

def mulMod (modulus x y : UInt32) : UInt32 := (x * y) % modulus

theorem odd_iff (exponent : UInt32) :
    exponent % 2 = 1 ↔ exponent.toNat % 2 = 1 := by
  rw [← UInt32.toNat_inj, UInt32.toNat_mod]
  rfl

theorem modExpLoop_eq_binaryPow (modulus result base exponent : UInt32) :
    modExpLoop modulus result base exponent =
      binaryPow (mulMod modulus) result base exponent.toNat := by
  induction result, base, exponent using modExpLoop.induct modulus with
  | case1 result base exponent hpos result' ih =>
      have hpos' : 0 < exponent.toNat := UInt32.lt_iff_toNat_lt.mp hpos
      have hhalf : (exponent / 2).toNat = exponent.toNat / 2 :=
        UInt32.toNat_div exponent 2
      rw [modExpLoop, if_pos hpos, binaryPow_pos hpos', ← hhalf]
      simp only [← odd_iff]
      exact ih
  | case2 result base exponent hzero =>
      have hzero' : exponent.toNat = 0 :=
        Nat.eq_zero_of_not_pos fun hpos => hzero (UInt32.lt_iff_toNat_lt.mpr hpos)
      rw [modExpLoop, if_neg hzero, hzero', binaryPow_zero]

@[simp] theorem modExp_zero (base modulus : UInt32) :
    modExp base 0 modulus = 1 := by
  rw [modExp, modExpLoop_eq_binaryPow]
  exact binaryPow_zero 1 _

/-! ## Moduli with exact products -/

/-- No product of two residues is changed by its reduction to a word. -/
def ProductsExact (modulus : UInt32) : Prop :=
  ∀ x y : UInt32, x.toNat < modulus.toNat → y.toNat < modulus.toNat →
    (mulMod modulus x y).toNat = x.toNat * y.toNat % modulus.toNat

section Exact

variable {modulus : UInt32}

theorem productsExact_of_le (hfits : modulus.toNat ≤ 65536) :
    ProductsExact modulus := by
  intro x y hx hy
  have hword : x.toNat * y.toNat < 2 ^ 32 :=
    calc x.toNat * y.toNat < 65536 * 65536 :=
          Nat.mul_lt_mul'' (by omega) (by omega)
      _ = 2 ^ 32 := by norm_num
  rw [mulMod, UInt32.toNat_mod, toNat_mul_exact hword]

theorem productsExact_of_two_pow {k : Nat} (hpow : modulus.toNat = 2 ^ k) :
    ProductsExact modulus := by
  intro x y _ _
  have hk : k ≤ 32 := by
    have hlt := modulus.toNat_lt
    rw [hpow] at hlt
    exact ((Nat.pow_lt_pow_iff_right (by decide)).mp hlt).le
  rw [mulMod, UInt32.toNat_mod, UInt32.toNat_mul, hpow]
  exact Nat.mod_mod_of_dvd _ (pow_dvd_pow 2 hk)

theorem ProductsExact.mulMod_hom (h : ProductsExact modulus) :
    MulHomOn (mulMod modulus) (fun x => x.toNat < modulus.toNat)
      (fun x => (x.toNat : ZMod modulus.toNat)) where
  closed x y hx hy := by
    rw [h x y hx hy]
    exact Nat.mod_lt _ (by omega)
  map_mul x y hx hy := by
    rw [h x y hx hy, ZMod.natCast_mod, Nat.cast_mul]

theorem ProductsExact.modExp_toNat (h : ProductsExact modulus)
    (hone : 1 < modulus.toNat) (base exponent : UInt32) :
    (modExp base exponent modulus).toNat =
      base.toNat ^ exponent.toNat % modulus.toNat := by
  have hbase : (base % modulus).toNat < modulus.toNat := by
    rw [UInt32.toNat_mod]
    exact Nat.mod_lt _ (by omega)
  have hresult : (1 : UInt32).toNat < modulus.toNat := hone
  obtain ⟨hlt, hpow⟩ := h.mulMod_hom.binaryPow hresult hbase exponent.toNat
  rw [modExp, modExpLoop_eq_binaryPow]
  rw [UInt32.toNat_mod, ZMod.natCast_mod, UInt32.toNat_one, Nat.cast_one,
    one_mul, ← Nat.cast_pow] at hpow
  rw [← Nat.mod_eq_of_lt hlt]
  exact (ZMod.natCast_eq_natCast_iff' _ _ _).mp hpow

theorem modExp_toNat (hone : 1 < modulus.toNat) (hfits : modulus.toNat ≤ 65536)
    (base exponent : UInt32) :
    (modExp base exponent modulus).toNat =
      base.toNat ^ exponent.toNat % modulus.toNat :=
  (productsExact_of_le hfits).modExp_toNat hone base exponent

theorem modExp_undoes_rsa {p q : Nat} (hp : p.Prime) (hq : q.Prime) (hne : p ≠ q)
    (hmodulus : modulus.toNat = p * q) (hfits : p * q ≤ 65536)
    {e : Nat} {d : UInt32} (hed : e * d.toNat ≡ 1 [MOD (p - 1) * (q - 1)])
    {m : Nat} (hm : m < p * q) {cipher : UInt32}
    (hcipher : cipher.toNat = m ^ e % (p * q)) :
    (modExp cipher d modulus).toNat = m := by
  have hone : 1 < p * q :=
    lt_of_lt_of_le hp.one_lt (Nat.le_mul_of_pos_right p hq.pos)
  rw [modExp_toNat (by omega) (by omega), hmodulus, hcipher, ← Nat.pow_mod,
    ← pow_mul]
  calc
    m ^ (e * d.toNat) % (p * q) = m % (p * q) :=
      rsa_pow_modEq hp hq hne hed m
    _ = m := Nat.mod_eq_of_lt hm

end Exact

/-! ## One exponentiation with exact products -/

def FitsWord (x y : Nat) : Prop := x * y < 2 ^ 32

def mulModNat (modulus x y : Nat) : Nat := x * y % modulus

/-- No product of exact residues that still counts has more than 32 bits. -/
def ChainFits (modulus base exponent : Nat) : Prop :=
  ChainAll FitsWord (mulModNat modulus) 1 (base % modulus) exponent

def ProductExact (modulus x y : UInt32) : Prop :=
  (mulMod modulus x y).toNat = mulModNat modulus.toNat x.toNat y.toNat

/-- Every product of the loop that still counts leaves the exact residue. -/
def ChainExact (modulus base exponent : UInt32) : Prop :=
  ChainAll (ProductExact modulus) (mulMod modulus) 1 (base % modulus) exponent.toNat

theorem mulModNat_hom {n : Nat} (hn : 0 < n) :
    MulHomOn (mulModNat n) (fun x => x < n) (fun x => (x : ZMod n)) where
  closed _ _ _ _ := Nat.mod_lt _ hn
  map_mul x y _ _ := by rw [mulModNat, ZMod.natCast_mod, Nat.cast_mul]

section Chain

variable {modulus base exponent : UInt32}

theorem ChainExact.modExp_toNat (h : ChainExact modulus base exponent)
    (hone : 1 < modulus.toNat) :
    (modExp base exponent modulus).toNat =
      base.toNat ^ exponent.toNat % modulus.toNat := by
  have hpos : 0 < modulus.toNat := by omega
  have hbase : base.toNat % modulus.toNat < modulus.toNat := Nat.mod_lt _ hpos
  obtain ⟨hlt, hpow⟩ :=
    (mulModNat_hom hpos).binaryPow hone hbase exponent.toNat
  have hchain : (binaryPow (mulMod modulus) 1 (base % modulus) exponent.toNat).toNat =
      binaryPow (mulModNat modulus.toNat) (1 : UInt32).toNat
        (base % modulus).toNat exponent.toNat :=
    ChainAll.map_binaryPow (fun _ _ hexact => hexact) h
  rw [UInt32.toNat_one, UInt32.toNat_mod] at hchain
  rw [Nat.cast_one, one_mul, ZMod.natCast_mod, ← Nat.cast_pow] at hpow
  rw [modExp, modExpLoop_eq_binaryPow, hchain, ← Nat.mod_eq_of_lt hlt]
  exact (ZMod.natCast_eq_natCast_iff' _ _ _).mp hpow

theorem dvd_two_mul_of_dvd {p k : Nat} (hp : p.Prime) (hdvd : p ∣ 2 ^ 32 * k) :
    p ∣ 2 * k := by
  rcases hp.dvd_mul.mp hdvd with htwo | hk
  · exact (hp.dvd_of_dvd_pow htwo).mul_right k
  · exact hk.mul_left 2

/-- Of residues modulo two primes, a product that wraps is a wrong one. -/
theorem productExact_iff {p q : Nat} (hp : p.Prime) (hq : q.Prime) (hne : p ≠ q)
    (hkey : p * q < 2 ^ 24) (hmodulus : modulus.toNat = p * q) {x y : UInt32}
    (hx : x.toNat < modulus.toNat) (hy : y.toNat < modulus.toNat) :
    ProductExact modulus x y ↔ FitsWord x.toNat y.toNat := by
  rw [ProductExact, FitsWord, mulMod, mulModNat, UInt32.toNat_mod]
  refine ⟨fun hexact => ?_, fun hword => by rw [toNat_mul_exact hword]⟩
  rw [UInt32.toNat_mul, hmodulus] at hexact
  have hsplit := Nat.div_add_mod (x.toNat * y.toNat) (2 ^ 32)
  by_contra hwraps
  have hk : 0 < x.toNat * y.toNat / 2 ^ 32 :=
    Nat.div_pos (Nat.le_of_not_lt hwraps) (by decide)
  have hdvd : p * q ∣ 2 ^ 32 * (x.toNat * y.toNat / 2 ^ 32) := by
    have hsub := (Nat.modEq_iff_dvd' (Nat.mod_le _ _)).mp hexact
    rwa [show x.toNat * y.toNat - x.toNat * y.toNat % 2 ^ 32 =
      2 ^ 32 * (x.toNat * y.toNat / 2 ^ 32) by omega] at hsub
  have hcoprime : Nat.Coprime p q := (Nat.coprime_primes hp hq).mpr hne
  have hle : p * q ≤ 2 * (x.toNat * y.toNat / 2 ^ 32) :=
    Nat.le_of_dvd (by omega) (hcoprime.mul_dvd_of_dvd_of_dvd
      (dvd_two_mul_of_dvd hp ((Dvd.intro _ rfl).trans hdvd))
      (dvd_two_mul_of_dvd hq ((Dvd.intro_left _ rfl).trans hdvd)))
  -- the residues are too small for that many wraps
  have hproduct : x.toNat * y.toNat < p * q * 2 ^ 24 :=
    Nat.mul_lt_mul'' (by omega) (by omega)
  omega

theorem chainExact_iff {p q : Nat} (hp : p.Prime) (hq : q.Prime) (hne : p ≠ q)
    (hkey : p * q < 2 ^ 24) (hmodulus : modulus.toNat = p * q) :
    ChainExact modulus base exponent ↔
      ChainFits (p * q) base.toNat exponent.toNat := by
  have hone : 1 < p * q :=
    lt_of_lt_of_le hp.one_lt (Nat.le_mul_of_pos_right p hq.pos)
  have hbase : (base % modulus).toNat < modulus.toNat := by
    rw [UInt32.toNat_mod]
    exact Nat.mod_lt _ (by omega)
  have hclosed (x y : UInt32) (_ : x.toNat < modulus.toNat)
      (_ : y.toNat < modulus.toNat) : (mulMod modulus x y).toNat < modulus.toNat := by
    rw [mulMod, UInt32.toNat_mod]
    exact Nat.mod_lt _ (by omega)
  have hfirst : (1 : UInt32).toNat < modulus.toNat := by
    rw [UInt32.toNat_one]
    omega
  have hiff : ChainExact modulus base exponent ↔
      ChainAll FitsWord (mulModNat modulus.toNat) (1 : UInt32).toNat
        (base % modulus).toNat exponent.toNat :=
    @chainAll_iff UInt32 (mulMod modulus) _ Nat _ UInt32.toNat _ _
      (fun _ _ => productExact_iff hp hq hne hkey hmodulus)
      (fun _ _ hexact => hexact) hclosed _ _ hfirst hbase exponent.toNat
  rwa [UInt32.toNat_one, UInt32.toNat_mod, hmodulus] at hiff

end Chain

/-! ## Larger moduli -/

section Wrapping

variable {modulus : UInt32}

theorem mulMod_zero (modulus x : UInt32) : mulMod modulus x 0 = 0 := by
  rw [mulMod, UInt32.mul_zero, UInt32.zero_mod]

theorem mulMod_small {x y z : UInt32} (hprod : x * y = z)
    (hz : z.toNat < modulus.toNat) : mulMod modulus x y = z := by
  rw [mulMod, hprod, ← UInt32.toNat_inj, UInt32.toNat_mod, Nat.mod_eq_of_lt hz]

/-- `2, 4, 16, 256, 65536` and then zero: the fifth square has 33 bits. -/
theorem squares_of_two (hwide : 65536 < modulus.toNat) :
    (fun x => mulMod modulus x x)^[5] 2 = 0 := by
  have h₁ : mulMod modulus 2 2 = 4 :=
    mulMod_small (by decide) (lt_trans (by decide) hwide)
  have h₂ : mulMod modulus 4 4 = 16 :=
    mulMod_small (by decide) (lt_trans (by decide) hwide)
  have h₃ : mulMod modulus 16 16 = 256 :=
    mulMod_small (by decide) (lt_trans (by decide) hwide)
  have h₄ : mulMod modulus 256 256 = 65536 :=
    mulMod_small (by decide) hwide
  have h₅ : mulMod modulus 65536 65536 = 0 :=
    mulMod_small (by decide) (lt_trans (by decide) hwide)
  simp only [Function.iterate_succ_apply, Function.iterate_zero_apply, h₁, h₂, h₃,
    h₄, h₅]

theorem modExp_two_of_wide (hwide : 65536 < modulus.toNat) {exponent : UInt32}
    (hlarge : 32 ≤ exponent.toNat) : modExp 2 exponent modulus = 0 := by
  have htwo : (2 : UInt32) % modulus = 2 := by
    rw [← UInt32.toNat_inj, UInt32.toNat_mod]
    exact Nat.mod_eq_of_lt (lt_trans (by decide) hwide)
  rw [modExp, modExpLoop_eq_binaryPow, htwo]
  exact binaryPow_eq_zero (mulMod_zero modulus) (squares_of_two hwide) hlarge 1

theorem modExp_square_of_wide (hwide : 65536 < modulus.toNat) :
    modExp 65536 2 modulus = 0 := by
  have hbase : (65536 : UInt32) % modulus = 65536 := by
    rw [← UInt32.toNat_inj, UInt32.toNat_mod]
    exact Nat.mod_eq_of_lt hwide
  have hsquare : (fun x => mulMod modulus x x)^[1] 65536 = 0 :=
    mulMod_small (by decide) (lt_trans (by decide) hwide)
  rw [modExp, modExpLoop_eq_binaryPow, hbase]
  exact binaryPow_eq_zero (mulMod_zero modulus) hsquare (by decide) 1

end Wrapping

/-! ## The exact domain -/

/--
The loop is modular exponentiation up to the modulus `65536`, and above it for
the powers of two only: any other modulus already fails to square `65536`.
-/
theorem modExp_exact_iff {modulus : UInt32} (htwo : 2 ≤ modulus.toNat) :
    (∀ base exponent : UInt32,
      (modExp base exponent modulus).toNat =
        base.toNat ^ exponent.toNat % modulus.toNat) ↔
      modulus.toNat ≤ 65536 ∨ ∃ k, modulus.toNat = 2 ^ k := by
  constructor
  · intro hexact
    rcases Nat.lt_or_ge 65536 modulus.toNat with hwide | hfits
    · have hsquare := hexact 65536 2
      rw [modExp_square_of_wide hwide, UInt32.toNat_zero] at hsquare
      have hdvd : modulus.toNat ∣ 2 ^ 32 := Nat.dvd_of_mod_eq_zero hsquare.symm
      obtain ⟨k, -, hpow⟩ := (Nat.dvd_prime_pow Nat.prime_two).mp hdvd
      exact .inr ⟨k, hpow⟩
    · exact .inl hfits
  · rintro (hfits | ⟨k, hpow⟩)
    · exact modExp_toNat htwo hfits
    · exact (productsExact_of_two_pow hpow).modExp_toNat htwo

theorem modExp_exact_two_pow :
    (modExp 70001 3 0x20000).toNat = 70001 ^ 3 % 0x20000 :=
  (@modExp_exact_iff 0x20000 (by decide)).mpr (.inr ⟨17, by decide⟩) 70001 3

end NiosHps.Board
