import NiosHps.Filter.OutputRange
import NiosHps.Filter.Symmetries
import NiosHps.Foundation.WeightedLaplacian

/-!
# What the filter does to an image as a whole

The kernel is a product of two smoothing kernels, less the centre.  With the
borders extended each of the two is still symmetric, so the sums of the filter
are the values of a weighted Laplacian on the pixels.
-/

namespace NiosHps.Filter

open NiosHps.Foundation

variable {α : Type*}

/-! ## One row or column -/

def smoothing : Fin 3 → ℚ := ![1 / 2, 1, 1 / 2]

/-- How much a place of a row weighs for another, borders extended. -/
def reach (n i i' : Nat) : ℚ := ∑ j, if extend n i j = i' then smoothing j else 0

theorem reach_of_lt {n i i' : Nat} (hlt : i < i') (hi' : i' < n) :
    reach n i i' = (if i' = i + 1 then smoothing 2 else 0) ∧
      reach n i' i = if i' = i + 1 then smoothing 0 else 0 := by
  have hbefore : extend n i 0 ≠ i' ∧ extend n i 1 ≠ i' := by
    simp only [extend]
    omega
  have hafter : extend n i' 1 ≠ i ∧ extend n i' 2 ≠ i := by
    simp only [extend]
    omega
  have hnext : extend n i 2 = i' ↔ i' = i + 1 := by
    simp only [extend]
    omega
  have hprevious : extend n i' 0 = i ↔ i' = i + 1 := by
    simp only [extend]
    omega
  constructor
  · rw [reach, Fin.sum_univ_three, if_neg hbefore.1, if_neg hbefore.2, zero_add,
      zero_add]
    exact if_congr hnext rfl rfl
  · rw [reach, Fin.sum_univ_three, if_neg hafter.1, if_neg hafter.2, add_zero,
      add_zero]
    exact if_congr hprevious rfl rfl

theorem reach_comm {n i i' : Nat} (hi : i < n) (hi' : i' < n) :
    reach n i i' = reach n i' i := by
  have hsides : smoothing 2 = smoothing 0 := rfl
  rcases Nat.lt_trichotomy i i' with hlt | rfl | hgt
  · rw [(reach_of_lt hlt hi').1, (reach_of_lt hlt hi').2, hsides]
  · rfl
  · rw [(reach_of_lt hgt hi).1, (reach_of_lt hgt hi).2, hsides]

/-! ## The weights of the samples -/

def sampleWeight (k : Fin 9) : ℚ :=
  smoothing (sampleRow k) * smoothing (sampleColumn k)

theorem sampleWeight_pos (k : Fin 9) : 0 < sampleWeight k := by
  fin_cases k <;> norm_num [sampleWeight, smoothing, sampleRow, sampleColumn]

theorem sum_rows_columns (f g : Fin 3 → ℚ) :
    ∑ k, f (sampleRow k) * g (sampleColumn k) = (∑ a, f a) * ∑ b, g b := by
  simp only [Fin.sum_univ_castSucc]
  simp [sampleRow, sampleColumn]
  ring

theorem filterSum_eq_differences (value : α → ℚ) (image : Nat → α)
    (idx w h : Nat) :
    filterSum value image idx w h =
      ∑ k, sampleWeight k *
        (value (image (sampleIndex idx w h k)) - value (image idx)) := by
  have hcentre : sampleIndex idx w h 4 = idx := rfl
  rw [filterSum_eq_sum]
  simp only [Fin.sum_univ_castSucc]
  simp [filter, sampleWeight, smoothing, sampleRow, sampleColumn, hcentre]
  ring

def pixelWeight (w h idx idx' : Nat) : ℚ :=
  ∑ k, if sampleIndex idx w h k = idx' then sampleWeight k else 0

theorem pixelWeight_grid {w h x y x' y' : Nat} (hx : x < w) (hy : y < h)
    (hx' : x' < w) :
    pixelWeight w h (y * w + x) (y' * w + x') =
      reach h y y' * reach w x x' := by
  rw [reach, reach, ← sum_rows_columns, pixelWeight]
  refine Finset.sum_congr rfl fun k _ => ?_
  have hcolumn := extend_lt hx (sampleColumn k)
  have hindex : sampleIndex (y * w + x) w h k = y' * w + x' ↔
      extend h y (sampleRow k) = y' ∧ extend w x (sampleColumn k) = x' := by
    rw [sampleIndex_grid hx hy]
    constructor
    · intro heq
      have hdiv := congrArg (· / w) heq
      have hmod := congrArg (· % w) heq
      simp only [grid_div hcolumn, grid_div hx', grid_mod hcolumn,
        grid_mod hx'] at hdiv hmod
      exact ⟨hdiv, hmod⟩
    · rintro ⟨hrow, hcol⟩
      rw [hrow, hcol]
  by_cases hrow : extend h y (sampleRow k) = y' <;>
    by_cases hcol : extend w x (sampleColumn k) = x' <;>
    simp [hindex, hrow, hcol, sampleWeight]

/-! ## The filter as a Laplacian -/

theorem pixelWeight_symmetricOn (w h : Nat) :
    SymmetricOn (Finset.range (w * h)) (pixelWeight w h) := by
  intro i hi j hj
  obtain ⟨y, x, hy, hx, rfl⟩ := exists_grid (Finset.mem_range.mp hi)
  obtain ⟨y', x', hy', hx', rfl⟩ := exists_grid (Finset.mem_range.mp hj)
  rw [pixelWeight_grid hx hy hx', pixelWeight_grid hx' hy' hx, reach_comm hy hy',
    reach_comm hx hx']

theorem pixelWeight_nonneg (w h i j : Nat) : 0 ≤ pixelWeight w h i j := by
  refine Finset.sum_nonneg fun k _ => ?_
  split_ifs
  · exact (sampleWeight_pos k).le
  · exact le_rfl

theorem pixelWeight_sample_pos (w h idx : Nat) (k : Fin 9) :
    0 < pixelWeight w h idx (sampleIndex idx w h k) := by
  refine Finset.sum_pos' (fun k' _ => ?_) ⟨k, Finset.mem_univ k, ?_⟩
  · split_ifs
    · exact (sampleWeight_pos k').le
    · exact le_rfl
  · rw [if_pos rfl]
    exact sampleWeight_pos k

theorem filterSum_eq_weightedLaplacian (value : α → ℚ) (image : Nat → α)
    {w h idx : Nat} (hidx : idx < w * h) :
    filterSum value image idx w h =
      weightedLaplacian (Finset.range (w * h)) (pixelWeight w h)
        (fun i => value (image i)) idx := by
  rw [filterSum_eq_differences, weightedLaplacian]
  have hspread (j : Nat) :
      pixelWeight w h idx j * (value (image j) - value (image idx)) =
        ∑ k, if sampleIndex idx w h k = j then
          sampleWeight k * (value (image j) - value (image idx)) else 0 := by
    rw [pixelWeight, Finset.sum_mul]
    refine Finset.sum_congr rfl fun k _ => ?_
    rw [ite_mul, zero_mul]
  simp only [hspread]
  rw [Finset.sum_comm]
  refine Finset.sum_congr rfl fun k _ => ?_
  have hmem := Finset.mem_range.mpr (sampleIndex_lt hidx k)
  rw [Finset.sum_ite_eq, if_pos hmem]

theorem constant_of_samples {value : α → ℚ} {image : Nat → α} {w h : Nat}
    (hequal : ∀ idx < w * h, ∀ k,
      value (image (sampleIndex idx w h k)) = value (image idx)) :
    ∀ i < w * h, value (image i) = value (image 0) := by
  intro i hi
  have hpos : 0 < w * h := Nat.zero_lt_of_lt hi
  apply forall_of_samples (P := fun j => value (image j) = value (image 0)) _ hpos
    rfl i hi
  exact fun idx hidx heq k => (hequal idx hidx k).trans heq

/-- What the sums of the filter, one for each pixel, do to the images as a whole:
they cancel, the filter may be moved from one factor of a correlation to the
other, and the correlation of an image with its own sums is negative, unless all
its pixels are equal. -/
structure TakesEnergy (value : α → ℚ) (sums : (Nat → α) → Nat → ℚ)
    (image other : Nat → α) (n : Nat) : Prop where
  cancel : ∑ idx ∈ Finset.range n, sums image idx = 0
  symmetric :
    ∑ idx ∈ Finset.range n, value (other idx) * sums image idx =
      ∑ idx ∈ Finset.range n, value (image idx) * sums other idx
  nonpos : ∑ idx ∈ Finset.range n, value (image idx) * sums image idx ≤ 0
  zero_iff : ∑ idx ∈ Finset.range n, value (image idx) * sums image idx = 0 ↔
    ∀ idx < n, value (image idx) = value (image 0)

theorem filterSum_takesEnergy (value : α → ℚ) (image other : Nat → α)
    (w h : Nat) :
    TakesEnergy value (fun img idx => filterSum value img idx w h) image other
      (w * h) := by
  have hsum (weight : Nat → ℚ) (img : Nat → α) :
      ∑ idx ∈ Finset.range (w * h), weight idx * filterSum value img idx w h =
        ∑ idx ∈ Finset.range (w * h), weight idx *
          weightedLaplacian (Finset.range (w * h)) (pixelWeight w h)
            (fun i => value (img i)) idx :=
    Finset.sum_congr rfl fun idx hidx => by
      rw [filterSum_eq_weightedLaplacian value img (Finset.mem_range.mp hidx)]
  have hsymmetric := pixelWeight_symmetricOn w h
  have hnonneg : ∀ i ∈ Finset.range (w * h), ∀ j ∈ Finset.range (w * h),
      0 ≤ pixelWeight w h i j := fun i _ j _ => pixelWeight_nonneg w h i j
  obtain ⟨henergy, hzero⟩ := sum_mul_weightedLaplacian_self hsymmetric hnonneg
    fun i => value (image i)
  refine ⟨?_, ?_, ?_, ?_⟩
  · have hone := hsum (fun _ => 1) image
    simp only [one_mul] at hone
    rw [hone]
    exact sum_weightedLaplacian hsymmetric _
  · rw [hsum _ image, hsum _ other]
    exact sum_mul_weightedLaplacian_comm hsymmetric _ _
  · rw [hsum]
    exact henergy
  · rw [hsum, hzero]
    constructor
    · intro hequal
      refine constant_of_samples fun idx hidx k => ?_
      exact hequal idx (Finset.mem_range.mpr hidx) _
        (Finset.mem_range.mpr (sampleIndex_lt hidx k))
        (pixelWeight_sample_pos w h idx k).ne'
    · intro hconstant i hi j hj _
      rw [hconstant i (Finset.mem_range.mp hi), hconstant j (Finset.mem_range.mp hj)]

theorem TakesEnergy.congr {value : α → ℚ} {sums sums' : (Nat → α) → Nat → ℚ}
    {image other : Nat → α} {n : Nat} (h : TakesEnergy value sums image other n)
    (himage : ∀ idx < n, sums' image idx = sums image idx)
    (hother : ∀ idx < n, sums' other idx = sums other idx) :
    TakesEnergy value sums' image other n := by
  have hcongr {img : Nat → α} (heq : ∀ idx < n, sums' img idx = sums img idx)
      (weight : Nat → ℚ) :
      ∑ idx ∈ Finset.range n, weight idx * sums' img idx =
        ∑ idx ∈ Finset.range n, weight idx * sums img idx :=
    Finset.sum_congr rfl fun idx hidx => by
      rw [heq idx (Finset.mem_range.mp hidx)]
  refine ⟨?_, ?_, ?_, ?_⟩
  · have hone := hcongr himage fun _ => 1
    simp only [one_mul] at hone
    rw [hone, h.cancel]
  · rw [hcongr himage, hcongr hother, h.symmetric]
  · rw [hcongr himage]
    exact h.nonpos
  · rw [hcongr himage]
    exact h.zero_iff

/-! ## In single precision -/

theorem floatWeightingLoop_eq_filterSum (image : Nat → UInt8) (idx w h : Nat) :
    floatWeightingLoop (samples image idx w h) 9 =
      filterSum byteValue image idx w h := by
  rw [floatWeightingLoop_eq, weightingLoop_eq_valueLoop]
  rfl

def HoldsBytes (image : Nat → UInt32) (n : Nat) : Prop :=
  ∀ i < n, (image i).toNat ≤ 255

theorem floatWideWeightingLoop_eq_filterSum {image : Nat → UInt32} {w h idx : Nat}
    (hbytes : HoldsBytes image (w * h)) (hidx : idx < w * h) :
    floatWideWeightingLoop (wideSamples image idx w h) 9 =
      filterSum wordValue image idx w h := by
  have hvalue (k : Fin 9) : (wideSamples image idx w h k).toNat =
      (UInt8.ofNat (wideSamples image idx w h k).toNat).toNat := by
    have hbyte := hbytes _ (sampleIndex_lt hidx k)
    rw [UInt8.toNat_ofNat', wideSamples]
    omega
  rw [floatWideWeightingLoop_eq hvalue, ← wideWeightingLoop_eq hvalue,
    wideWeightingLoop_eq_valueLoop]
  rfl

/--
The sums that `filter_pixel` rounds, in single precision: on every byte image,
and in the copies on all words that hold bytes.
-/
theorem filter_takes_energy (w h : Nat) :
    (∀ image other : Nat → UInt8,
      TakesEnergy byteValue
        (fun img idx => floatWeightingLoop (samples img idx w h) 9)
        image other (w * h)) ∧
    ∀ image other : Nat → UInt32,
      HoldsBytes image (w * h) → HoldsBytes other (w * h) →
      TakesEnergy wordValue
        (fun img idx => floatWideWeightingLoop (wideSamples img idx w h) 9)
        image other (w * h) := by
  constructor
  · intro image other
    exact (filterSum_takesEnergy byteValue image other w h).congr
      (fun idx _ => floatWeightingLoop_eq_filterSum image idx w h)
      (fun idx _ => floatWeightingLoop_eq_filterSum other idx w h)
  · intro image other himage hother
    exact (filterSum_takesEnergy wordValue image other w h).congr
      (fun idx hidx => floatWideWeightingLoop_eq_filterSum himage hidx)
      (fun idx hidx => floatWideWeightingLoop_eq_filterSum hother hidx)

theorem filter_takes_energy_two_pixels :
    TakesEnergy wordValue
      (fun img idx => floatWideWeightingLoop (wideSamples img idx 2 1) 9)
      (fun i => if i = 0 then 255 else 0) (fun _ => 128) (2 * 1) := by
  refine (filter_takes_energy 2 1).2 _ _ (fun i _ => ?_) fun i _ => ?_
  · split_ifs <;> decide
  · decide

/-- On larger words `float` rounds, and the sum of a constant image remains. -/
example : floatWideWeightingLoop (fun _ => 16777215) 9 = 5 / 4 := by
  decide +kernel

end NiosHps.Filter
