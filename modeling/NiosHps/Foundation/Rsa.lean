import Mathlib.FieldTheory.Finite.Basic

/-!
# Powers modulo a product of two primes

Exponents congruent to one modulo `(p - 1) * (q - 1)` act as the identity
modulo `p * q`, on multiples of `p` and `q` as well.
-/

namespace NiosHps.Foundation

theorem pow_modEq_self_of_prime {p : Nat} (hp : p.Prime) {k : Nat}
    (hpos : 0 < k) (hk : p - 1 ∣ k - 1) (m : Nat) : m ^ k ≡ m [MOD p] := by
  have : Fact p.Prime := ⟨hp⟩
  obtain ⟨j, hj⟩ := hk
  have hsplit : k = (p - 1) * j + 1 := by omega
  apply (ZMod.natCast_eq_natCast_iff _ _ _).mp
  rw [Nat.cast_pow]
  by_cases hzero : (m : ZMod p) = 0
  · rw [hzero, zero_pow hpos.ne']
  · rw [hsplit, pow_succ, pow_mul, ZMod.pow_card_sub_one_eq_one hzero, one_pow,
      one_mul]

theorem totient_ne_one {p q : Nat} (hp : p.Prime) (hq : q.Prime) (hne : p ≠ q) :
    (p - 1) * (q - 1) ≠ 1 := by
  have hp2 := hp.two_le
  have hq2 := hq.two_le
  intro hone
  have hp1 := Nat.eq_one_of_mul_eq_one_right hone
  have hq1 := Nat.eq_one_of_mul_eq_one_left hone
  omega

theorem rsa_pow_modEq {p q : Nat} (hp : p.Prime) (hq : q.Prime) (hne : p ≠ q)
    {k : Nat} (hk : k ≡ 1 [MOD (p - 1) * (q - 1)]) (m : Nat) :
    m ^ k ≡ m [MOD p * q] := by
  have hpos : 0 < k := by
    rcases Nat.eq_zero_or_pos k with rfl | hpos
    · have hdvd := (Nat.modEq_zero_iff_dvd.mp hk.symm)
      exact absurd (Nat.dvd_one.mp hdvd) (totient_ne_one hp hq hne)
    · exact hpos
  have hdvd : (p - 1) * (q - 1) ∣ k - 1 := (Nat.modEq_iff_dvd' hpos).mp hk.symm
  have hcoprime : Nat.Coprime p q := (Nat.coprime_primes hp hq).mpr hne
  exact (Nat.modEq_and_modEq_iff_modEq_mul hcoprime).mp
    ⟨pow_modEq_self_of_prime hp hpos ((Dvd.intro _ rfl).trans hdvd) m,
      pow_modEq_self_of_prime hq hpos ((Dvd.intro_left _ rfl).trans hdvd) m⟩

end NiosHps.Foundation
