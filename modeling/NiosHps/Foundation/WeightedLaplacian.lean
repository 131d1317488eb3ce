import Mathlib.Algebra.BigOperators.Ring.Finset
import Mathlib.Algebra.Order.BigOperators.Group.Finset
import Mathlib.Algebra.Order.Field.Basic
import Mathlib.Tactic.Linarith
import Mathlib.Tactic.Ring

/-!
# Weighted Laplacians

The operator that adds up the weighted differences to the other points of a
finite set.  With symmetric weights it is symmetric, and its sums cancel; with
weights that are not negative it takes energy from a function, and none exactly
if the function is the same wherever two points have a weight.
-/

namespace NiosHps.Foundation

open Finset

section WeightedLaplacian

variable {ι R : Type*} [Field R] (s : Finset ι) (K : ι → ι → R)

def weightedLaplacian (f : ι → R) (i : ι) : R := ∑ j ∈ s, K i j * (f j - f i)

def dirichletForm (f g : ι → R) : R :=
  ∑ i ∈ s, ∑ j ∈ s, K i j * ((f j - f i) * (g j - g i))

def SymmetricOn : Prop := ∀ i ∈ s, ∀ j ∈ s, K i j = K j i

variable {s K}

theorem dirichletForm_comm (f g : ι → R) :
    dirichletForm s K f g = dirichletForm s K g f := by
  refine sum_congr rfl fun i _ => sum_congr rfl fun j _ => ?_
  rw [mul_comm (f j - f i)]

theorem two_mul_sum_mul_weightedLaplacian (hK : SymmetricOn s K) (f g : ι → R) :
    2 * ∑ i ∈ s, g i * weightedLaplacian s K f i = -dirichletForm s K f g := by
  have hexpand : ∑ i ∈ s, g i * weightedLaplacian s K f i =
      ∑ i ∈ s, ∑ j ∈ s, K i j * ((f j - f i) * g i) := by
    refine sum_congr rfl fun i _ => ?_
    rw [weightedLaplacian, mul_sum]
    exact sum_congr rfl fun j _ => by ring
  have hswap : ∑ i ∈ s, ∑ j ∈ s, K i j * ((f j - f i) * g i) =
      ∑ i ∈ s, ∑ j ∈ s, -(K i j * ((f j - f i) * g j)) := by
    rw [sum_comm]
    refine sum_congr rfl fun i hi => sum_congr rfl fun j hj => ?_
    rw [hK j hj i hi]
    ring
  calc
    2 * ∑ i ∈ s, g i * weightedLaplacian s K f i =
        ∑ i ∈ s, ∑ j ∈ s, K i j * ((f j - f i) * g i) +
          ∑ i ∈ s, ∑ j ∈ s, -(K i j * ((f j - f i) * g j)) := by
      rw [two_mul, hexpand, ← hswap]
    _ = -dirichletForm s K f g := by
      rw [dirichletForm, ← sum_add_distrib, ← sum_neg_distrib]
      refine sum_congr rfl fun i _ => ?_
      rw [← sum_add_distrib, ← sum_neg_distrib]
      exact sum_congr rfl fun j _ => by ring

section Order

variable [LinearOrder R] [IsStrictOrderedRing R]

theorem sum_weightedLaplacian (hK : SymmetricOn s K) (f : ι → R) :
    ∑ i ∈ s, weightedLaplacian s K f i = 0 := by
  have htwice := two_mul_sum_mul_weightedLaplacian hK f fun _ => 1
  have hzero : dirichletForm s K f (fun _ => 1) = 0 :=
    sum_eq_zero fun i _ => sum_eq_zero fun j _ => by ring
  simp only [one_mul, hzero, neg_zero] at htwice
  linarith

theorem sum_mul_weightedLaplacian_comm (hK : SymmetricOn s K) (f g : ι → R) :
    ∑ i ∈ s, g i * weightedLaplacian s K f i =
      ∑ i ∈ s, f i * weightedLaplacian s K g i := by
  have hfg := two_mul_sum_mul_weightedLaplacian hK f g
  have hgf := two_mul_sum_mul_weightedLaplacian hK g f
  rw [dirichletForm_comm] at hfg
  linarith

theorem dirichletForm_self_nonneg (hpos : ∀ i ∈ s, ∀ j ∈ s, 0 ≤ K i j)
    (f : ι → R) : 0 ≤ dirichletForm s K f f :=
  sum_nonneg fun i hi => sum_nonneg fun j hj =>
    mul_nonneg (hpos i hi j hj) (mul_self_nonneg _)

theorem dirichletForm_self_eq_zero_iff (hpos : ∀ i ∈ s, ∀ j ∈ s, 0 ≤ K i j)
    (f : ι → R) :
    dirichletForm s K f f = 0 ↔ ∀ i ∈ s, ∀ j ∈ s, K i j ≠ 0 → f j = f i := by
  have hterm : ∀ i ∈ s, ∀ j ∈ s, 0 ≤ K i j * ((f j - f i) * (f j - f i)) :=
    fun i hi j hj => mul_nonneg (hpos i hi j hj) (mul_self_nonneg _)
  have hrow : ∀ i ∈ s, 0 ≤ ∑ j ∈ s, K i j * ((f j - f i) * (f j - f i)) :=
    fun i hi => sum_nonneg (hterm i hi)
  rw [dirichletForm, sum_eq_zero_iff_of_nonneg hrow]
  constructor
  · intro hzero i hi j hj hweight
    have hone := (sum_eq_zero_iff_of_nonneg (hterm i hi)).mp (hzero i hi) j hj
    have hsquare := (mul_eq_zero.mp hone).resolve_left hweight
    exact sub_eq_zero.mp (mul_self_eq_zero.mp hsquare)
  · intro hequal i hi
    refine sum_eq_zero fun j hj => ?_
    by_cases hweight : K i j = 0
    · rw [hweight, zero_mul]
    · rw [hequal i hi j hj hweight, sub_self, zero_mul, mul_zero]

/-- No function gains energy, and only one that its weights cannot tell from a constant keeps it. -/
theorem sum_mul_weightedLaplacian_self (hK : SymmetricOn s K)
    (hpos : ∀ i ∈ s, ∀ j ∈ s, 0 ≤ K i j) (f : ι → R) :
    ∑ i ∈ s, f i * weightedLaplacian s K f i ≤ 0 ∧
      (∑ i ∈ s, f i * weightedLaplacian s K f i = 0 ↔
        ∀ i ∈ s, ∀ j ∈ s, K i j ≠ 0 → f j = f i) := by
  have htwice := two_mul_sum_mul_weightedLaplacian hK f f
  have hnonneg := dirichletForm_self_nonneg hpos f
  rw [← dirichletForm_self_eq_zero_iff hpos f]
  refine ⟨by linarith, fun hzero => by linarith, fun hzero => by linarith⟩

end Order

end WeightedLaplacian

end NiosHps.Foundation
