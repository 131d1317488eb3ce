import NiosHps.Filter.Laplacian

/-!
# When the filtered values fit a byte

`filter_pixel` converts its rounded sum to `uint8_t` without clamping it.  The
sum is nonnegative where the pixel is at most the weighted mean of its
neighbours.  At the brightest pixel of an image that forces all the neighbours
to be as bright, and so the whole image, row by row: the sums of an image all
fit a byte only if the image is constant.
-/

namespace NiosHps.Filter

/-- The sum of a pixel is a value of a byte. -/
def FitsByte (image : Nat → UInt8) (w h idx : Nat) : Prop :=
  0 ≤ weightingLoop (samples image idx w h) 9 ∧
    weightingLoop (samples image idx w h) 9 ≤ 255

/-- Every target, whatever it does outside the bytes, stores the same value. -/
def SameByte (image : Nat → UInt8) (w h idx : Nat) : Prop :=
  ∀ conv conv' : FloatToU8,
    filterPixel conv image idx w h = filterPixel conv' image idx w h

/-! ## The sum in quarters -/

def neighbourSum (pixels : Fin 9 → UInt8) : Nat :=
  (pixels 0).toNat + 2 * (pixels 1).toNat + (pixels 2).toNat +
    2 * (pixels 3).toNat + 2 * (pixels 5).toNat +
    (pixels 6).toNat + 2 * (pixels 7).toNat + (pixels 8).toNat

theorem quarterLoop_nine (pixels : Fin 9 → UInt8) :
    quarterLoop pixels 9 = neighbourSum pixels - 12 * (pixels 4).toNat := by
  simp [quarterLoop, quarterWeight, neighbourSum]
  ring

theorem weightingLoop_neighbourSum (image : Nat → UInt8) (w h idx : Nat) :
    weightingLoop (samples image idx w h) 9 =
      ((neighbourSum (samples image idx w h) : ℤ) -
        12 * ((image idx).toNat : ℤ) : ℤ) / 4 := by
  have hcentre : samples image idx w h 4 = image idx := rfl
  rw [weightingLoop_eq_quarterLoop, quarterLoop_nine, hcentre]

theorem quarter_mem_byte (m : ℤ) :
    (0 ≤ (m / 4 : ℚ) ∧ (m / 4 : ℚ) ≤ 255) ↔ 0 ≤ m ∧ m ≤ 1020 := by
  rw [le_div_iff₀ (by norm_num), div_le_iff₀ (by norm_num), zero_mul,
    Int.cast_nonneg_iff]
  norm_num
  norm_cast
  exact fun _ => Iff.rfl

theorem fitsByte_iff (image : Nat → UInt8) (w h idx : Nat) :
    FitsByte image w h idx ↔
      12 * (image idx).toNat ≤ neighbourSum (samples image idx w h) ∧
        neighbourSum (samples image idx w h) ≤
          12 * (image idx).toNat + 1020 := by
  rw [FitsByte, weightingLoop_neighbourSum, quarter_mem_byte]
  omega

/-! ## The conversion -/

theorem round_mem_byte (q : ℚ) :
    (0 ≤ round q ∧ round q ≤ 255) ↔ -1 / 2 < q ∧ q < 511 / 2 := by
  rw [round]
  split_ifs with hq
  · rw [Int.floor_nonneg, ← Int.lt_add_one_iff, Int.floor_lt]
    norm_num
    constructor
    · rintro ⟨-, hhigh⟩
      constructor <;> linarith
    · rintro ⟨-, hhigh⟩
      constructor <;> linarith
  · rw [← Int.sub_one_lt_iff, Int.lt_ceil, Int.ceil_le]
    norm_num
    constructor
    · rintro ⟨hlow, -⟩
      constructor <;> linarith
    · rintro ⟨hlow, -⟩
      constructor <;> linarith

theorem quarter_rounds_to_byte (m : ℤ) :
    (-1 / 2 < (m / 4 : ℚ) ∧ (m / 4 : ℚ) < 511 / 2) ↔ -1 ≤ m ∧ m ≤ 1021 := by
  rw [lt_div_iff₀ (by norm_num), div_lt_iff₀ (by norm_num)]
  norm_num
  norm_cast
  omega

/-- A target that stores `other` for every value that is no byte. -/
def byteOr (other : UInt8) : FloatToU8 where
  toFun v := if 0 ≤ v ∧ v ≤ 255 then UInt8.ofNat v.toNat else other
  exact v := by
    have hbyte := v.toNat_lt
    rw [if_pos (by omega), Int.toNat_natCast, UInt8.ofNat_toNat]

theorem sameByte_iff_round (image : Nat → UInt8) (w h idx : Nat) :
    SameByte image w h idx ↔
      0 ≤ round (weightingLoop (samples image idx w h) 9) ∧
        round (weightingLoop (samples image idx w h) 9) ≤ 255 := by
  constructor
  · intro hsame
    by_contra hout
    have hstored := hsame (byteOr 0) (byteOr 1)
    simp only [filterPixel, byteOr, if_neg hout] at hstored
    exact absurd hstored (by decide)
  · rintro ⟨hlow, hhigh⟩ conv conv'
    obtain ⟨v, hv⟩ := Int.eq_ofNat_of_zero_le hlow
    have hbyte : v < 256 := by omega
    have hvalue : (UInt8.ofNat v).toNat = v := UInt8.toNat_ofNat_of_lt hbyte
    rw [filterPixel, filterPixel, hv, ← hvalue, conv.exact, conv'.exact]

theorem sameByte_iff (image : Nat → UInt8) (w h idx : Nat) :
    SameByte image w h idx ↔
      12 * (image idx).toNat ≤ neighbourSum (samples image idx w h) + 1 ∧
        neighbourSum (samples image idx w h) ≤
          12 * (image idx).toNat + 1021 := by
  rw [sameByte_iff_round, round_mem_byte, weightingLoop_neighbourSum,
    quarter_rounds_to_byte]
  omega

theorem FitsByte.sameByte {image : Nat → UInt8} {w h idx : Nat}
    (hfits : FitsByte image w h idx) : SameByte image w h idx := by
  rw [fitsByte_iff] at hfits
  rw [sameByte_iff]
  omega

/-! ## The maximum principle -/

theorem forall_of_extend {n : Nat} {P : Nat → Prop}
    (hdown : ∀ i < n, P i → P (extend n i 0))
    (hup : ∀ i < n, P i → P (extend n i 2)) {i : Nat} (hi : i < n) (hP : P i) :
    ∀ j < n, P j := by
  have hzero : P 0 := by
    induction i with
    | zero => exact hP
    | succ i ih => exact ih (by omega) (hdown (i + 1) hi hP)
  intro j hj
  induction j with
  | zero => exact hzero
  | succ j ih =>
      have hnext : extend n j 2 = j + 1 := by
        rw [extend]
        omega
      rw [← hnext]
      exact hup j (by omega) (ih (by omega))

theorem forall_of_samples {w h : Nat} {P : Nat → Prop}
    (hsample : ∀ idx < w * h, P idx → ∀ k, P (sampleIndex idx w h k))
    {idx : Nat} (hidx : idx < w * h) (hP : P idx) : ∀ i < w * h, P i := by
  have hstep : ∀ y < h, ∀ x < w, P (y * w + x) → ∀ k,
      P (extend h y (sampleRow k) * w + extend w x (sampleColumn k)) := by
    intro y hy x hx hpixel k
    rw [← sampleIndex_grid hx hy]
    exact hsample _ (grid_lt hx hy) hpixel k
  obtain ⟨y, x, hy, hx, rfl⟩ := exists_grid hidx
  intro i hi
  obtain ⟨y', x', hy', hx', rfl⟩ := exists_grid hi
  -- along the column of the pixel to the row wanted, then along that row
  have hcolumn : P (y' * w + x) := by
    apply forall_of_extend (P := fun row => P (row * w + x)) _ _ hy hP y' hy'
    · exact fun row hrow hpixel => hstep row hrow x hx hpixel 1
    · exact fun row hrow hpixel => hstep row hrow x hx hpixel 7
  apply forall_of_extend (P := fun column => P (y' * w + column)) _ _ hx hcolumn
    x' hx'
  · exact fun column hcol hpixel => hstep y' hy' column hcol hpixel 3
  · exact fun column hcol hpixel => hstep y' hy' column hcol hpixel 5

theorem sample_eq_of_le {image : Nat → UInt8} {w h idx : Nat}
    (hfits : FitsByte image w h idx)
    (hmax : ∀ k, (samples image idx w h k).toNat ≤ (image idx).toNat)
    (k : Fin 9) : samples image idx w h k = image idx := by
  have hlow := ((fitsByte_iff image w h idx).mp hfits).1
  have h₀ := hmax 0
  have h₁ := hmax 1
  have h₂ := hmax 2
  have h₃ := hmax 3
  have h₅ := hmax 5
  have h₆ := hmax 6
  have h₇ := hmax 7
  have h₈ := hmax 8
  rw [neighbourSum] at hlow
  apply UInt8.toNat.inj
  fin_cases k <;> simp only [Fin.reduceFinMk] <;> first | omega | rfl

theorem constant_of_fitsByte {image : Nat → UInt8} {w h : Nat}
    (hfits : ∀ idx < w * h, FitsByte image w h idx) :
    ∀ i < w * h, image i = image 0 := by
  intro i hi
  have hpos : 0 < w * h := Nat.zero_lt_of_lt hi
  obtain ⟨top, htop, hmax⟩ := Finset.exists_max_image (Finset.range (w * h))
    (fun j => (image j).toNat) ⟨i, Finset.mem_range.mpr hi⟩
  rw [Finset.mem_range] at htop
  have hbright : ∀ j < w * h, image j = image top := by
    apply forall_of_samples (P := fun j => image j = image top) _ htop rfl
    intro idx hidx heq k
    rw [← heq]
    -- a pixel as bright as the brightest has no brighter neighbour
    apply sample_eq_of_le (hfits idx hidx) (fun k => ?_) k
    rw [heq]
    exact hmax _ (Finset.mem_range.mpr (sampleIndex_lt hidx k))
  rw [hbright i hi, hbright 0 hpos]

theorem fitsByte_of_constant {image : Nat → UInt8} {w h : Nat}
    (hconstant : ∀ i < w * h, image i = image 0) {idx : Nat}
    (hidx : idx < w * h) : FitsByte image w h idx := by
  have hsample : ∀ k, samples image idx w h k = image 0 := fun k =>
    hconstant _ (sampleIndex_lt hidx k)
  rw [fitsByte_iff, neighbourSum]
  simp only [hsample, hconstant idx hidx]
  omega

/--
The sum of a pixel is a byte as long as its neighbours weigh at least as much as
the pixel and at most a full byte more.  All the sums of an image are bytes, and
all their conversions defined, exactly when the image is constant.
-/
theorem output_fits_byte_iff (image : Nat → UInt8) (w h : Nat) :
    (∀ idx, FitsByte image w h idx ↔
      12 * (image idx).toNat ≤ neighbourSum (samples image idx w h) ∧
        neighbourSum (samples image idx w h) ≤ 12 * (image idx).toNat + 1020) ∧
    (∀ idx, SameByte image w h idx ↔
      12 * (image idx).toNat ≤ neighbourSum (samples image idx w h) + 1 ∧
        neighbourSum (samples image idx w h) ≤ 12 * (image idx).toNat + 1021) ∧
    ((∀ idx < w * h, FitsByte image w h idx ∧ SameByte image w h idx) ↔
      ∀ i < w * h, image i = image 0) := by
  refine ⟨fitsByte_iff image w h, sameByte_iff image w h, ?_⟩
  constructor
  · intro hall
    exact constant_of_fitsByte fun idx hidx => (hall idx hidx).1
  · intro hconstant idx hidx
    have hfits := fitsByte_of_constant hconstant hidx
    exact ⟨hfits, hfits.sameByte⟩

theorem bright_pixel_below_zero :
    ¬FitsByte (fun i => if i = 0 then 0 else 255) 2 1 1 ∧
      ¬SameByte (fun i => if i = 0 then 0 else 255) 2 1 1 := by
  rw [fitsByte_iff, sameByte_iff]
  decide

end NiosHps.Filter
