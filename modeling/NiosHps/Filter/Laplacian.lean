import NiosHps.Filter.Pixel
import NiosHps.Foundation.NearestEven
import Mathlib.Algebra.BigOperators.Fin
import Mathlib.Algebra.BigOperators.Ring.Finset
import Mathlib.Tactic.IntervalCases
import Mathlib.Tactic.NormNum

/-!
# The filter as a convolution

The nine-point stencil of the discrete Laplace operator, with the border of the
image extended, and what `filter_pixel` makes of it: the same sum, gathered at
indices inside the image by subtractions that never go below zero, and summed in
single precision without rounding anything.
-/

namespace NiosHps.Filter

open NiosHps.Foundation

/-! ## The stencil -/

def offsets : Finset ℤ := {-1, 0, 1}

def kernel (dy dx : ℤ) : ℚ :=
  if dy = 0 ∧ dx = 0 then -3
  else if dy = 0 ∨ dx = 0 then 1 / 2
  else 1 / 4

def clamp (v low high : ℤ) : ℤ := max low (min v high)

def clampedIndex (y x : Nat) (w h : Nat) (dy dx : ℤ) : Nat :=
  (clamp (y + dy) 0 (h - 1)).toNat * w + (clamp (x + dx) 0 (w - 1)).toNat

def laplacian (image : Nat → UInt8) (y x w h : Nat) : ℚ :=
  ∑ dy ∈ offsets, ∑ dx ∈ offsets,
    kernel dy dx * (image (clampedIndex y x w h dy dx)).toNat

theorem sum_offsets (f : ℤ → ℚ) :
    ∑ d ∈ offsets, f d = f (-1) + f 0 + f 1 := by
  rw [offsets, Finset.sum_insert (by decide), Finset.sum_insert (by decide),
    Finset.sum_singleton, add_assoc]

def offset (j : Fin 3) : ℤ := (j : ℤ) - 1

theorem extend_eq_clamp {n i : Nat} (hi : i < n) (j : Fin 3) :
    extend n i j = (clamp (i + offset j) 0 (n - 1)).toNat := by
  fin_cases j <;> simp [extend, clamp, offset] <;> omega

theorem sampleIndex_eq_clamped {w h y x : Nat} (hx : x < w) (hy : y < h)
    (k : Fin 9) :
    sampleIndex (y * w + x) w h k =
      clampedIndex y x w h (offset (sampleRow k)) (offset (sampleColumn k)) := by
  rw [sampleIndex_grid hx hy, extend_eq_clamp hy, extend_eq_clamp hx]
  rfl

theorem filter_eq_kernel (k : Fin 9) :
    filter k = kernel (offset (sampleRow k)) (offset (sampleColumn k)) := by
  fin_cases k <;> simp [filter, kernel, offset, sampleRow, sampleColumn]

theorem weightingLoop_nine (pixels : Fin 9 → UInt8) :
    weightingLoop pixels 9 = ∑ k, (pixels k).toNat * filter k := by
  simp [Fin.sum_univ_castSucc, weightingLoop]

theorem sum_stencil (f : ℤ → ℤ → ℚ) :
    ∑ dy ∈ offsets, ∑ dx ∈ offsets, f dy dx =
      ∑ k, f (offset (sampleRow k)) (offset (sampleColumn k)) := by
  simp only [sum_offsets, Fin.sum_univ_castSucc]
  simp [offset, sampleRow, sampleColumn]
  ring

theorem weightingLoop_eq_laplacian (image : Nat → UInt8) {w h idx : Nat}
    (hidx : idx < w * h) :
    weightingLoop (samples image idx w h) 9 =
      laplacian image (idx / w) (idx % w) w h := by
  obtain ⟨y, x, hy, hx, rfl⟩ := exists_grid hidx
  rw [weightingLoop_nine, laplacian, sum_stencil, grid_div hx, grid_mod hx]
  refine Finset.sum_congr rfl fun k _ => ?_
  rw [samples, sampleIndex_eq_clamped hx hy, filter_eq_kernel, mul_comm]

/-! ## Indices without underflow -/

def checkedSub (a b : Nat) : Option Nat := if b ≤ a then some (a - b) else none

theorem checkedSub_eq {a b : Nat} (h : b ≤ a) : checkedSub a b = some (a - b) :=
  if_pos h

/-- `sampleIndex` with every subtraction of the source checked. -/
def checkedSampleIndex (idx imageW imageH : Nat) (k : Fin 9) : Option Nat := do
  let y := idx / imageW
  let x ← checkedSub idx (y * imageW)
  let lastColumn ← checkedSub imageW 1
  let lastRow ← checkedSub imageH 1
  let leftBorder : Bool := x == 0
  let rightBorder : Bool := x == lastColumn
  let topBorder : Bool := y == 0
  let bottomBorder : Bool := y == lastRow
  match k with
  | 0 =>
      if topBorder then
        if leftBorder then some idx else checkedSub idx 1
      else if leftBorder then checkedSub idx imageW
      else
        let above ← checkedSub idx imageW
        checkedSub above 1
  | 1 => if topBorder then some idx else checkedSub idx imageW
  | 2 =>
      if topBorder then
        if rightBorder then some idx else some (idx + 1)
      else if rightBorder then checkedSub idx imageW
      else
        let above ← checkedSub idx imageW
        some (above + 1)
  | 3 => if leftBorder then some idx else checkedSub idx 1
  | 4 => some idx
  | 5 => if rightBorder then some idx else some (idx + 1)
  | 6 =>
      if bottomBorder then
        if leftBorder then some idx else checkedSub idx 1
      else if leftBorder then some (idx + imageW)
      else checkedSub (idx + imageW) 1
  | 7 => if bottomBorder then some idx else some (idx + imageW)
  | 8 =>
      if bottomBorder then
        if rightBorder then some idx else some (idx + 1)
      else if rightBorder then some (idx + imageW)
      else some (idx + imageW + 1)

theorem checkedSampleIndex_eq {w h idx : Nat} (hidx : idx < w * h) (k : Fin 9) :
    checkedSampleIndex idx w h k = some (sampleIndex idx w h k) := by
  have hw : 1 ≤ w := Nat.pos_of_mul_pos_right (Nat.zero_lt_of_lt hidx)
  have hh : 1 ≤ h := Nat.pos_of_mul_pos_left (Nat.zero_lt_of_lt hidx)
  have hrow : idx / w * w ≤ idx := Nat.div_mul_le_self idx w
  have habove : idx / w ≠ 0 → w ≤ idx / w * w := fun htop =>
    Nat.le_mul_of_pos_left w (Nat.pos_of_ne_zero htop)
  have hwest : ¬idx - idx / w * w = 0 → checkedSub idx 1 = some (idx - 1) :=
    fun hleft => checkedSub_eq (by omega)
  have hnorth : ¬idx / w = 0 → checkedSub idx w = some (idx - w) :=
    fun htop => checkedSub_eq ((habove htop).trans hrow)
  have hcorner : ¬idx / w = 0 → ¬idx - idx / w * w = 0 →
      checkedSub (idx - w) 1 = some (idx - w - 1) := by
    intro htop hleft
    have hfull := habove htop
    exact checkedSub_eq (by omega)
  have hsouth : checkedSub (idx + w) 1 = some (idx + w - 1) :=
    checkedSub_eq (by omega)
  simp only [checkedSampleIndex, checkedSub_eq hrow, checkedSub_eq hw,
    checkedSub_eq hh, Option.bind_eq_bind, Option.bind_some, sampleIndex,
    beq_iff_eq]
  fin_cases k
  all_goals
    simp only
    try split_ifs
  all_goals first
    | rfl
    | exact hwest ‹_›
    | exact hnorth ‹_›
    | exact hsouth
    | simp only [hnorth ‹_›, hcorner ‹_› ‹_›, Option.bind_some]
    | simp only [hnorth ‹_›, Option.bind_some]

/-! ## Sums of quarters -/

def quarterWeight : Fin 9 → ℤ := ![1, 2, 1, 2, -12, 2, 1, 2, 1]

def quarterLoop (pixels : Fin 9 → UInt8) : Nat → ℤ
  | 0 => 0
  | n + 1 =>
      if h : n < 9 then
        quarterLoop pixels n + (pixels ⟨n, h⟩).toNat * quarterWeight ⟨n, h⟩
      else quarterLoop pixels n

theorem filter_eq_quarterWeight (k : Fin 9) : filter k = quarterWeight k / 4 := by
  fin_cases k <;> norm_num [filter, quarterWeight]

theorem weightingLoop_eq_quarterLoop (pixels : Fin 9 → UInt8) (n : Nat) :
    weightingLoop pixels n = quarterLoop pixels n / 4 := by
  induction n with
  | zero => simp [weightingLoop, quarterLoop]
  | succ n ih =>
      rw [weightingLoop, quarterLoop]
      split_ifs with hn
      · rw [ih, filter_eq_quarterWeight]
        push_cast
        ring
      · exact ih

/-- The positive weights add up to three, the negative one is minus three. -/
theorem abs_quarterLoop_le (pixels : Fin 9 → UInt8) {n : Nat} (hn : n ≤ 9) :
    |quarterLoop pixels n| ≤ 3060 := by
  have hbyte : ∀ k, (pixels k).toNat ≤ 255 := fun k =>
    Nat.le_of_lt_succ (pixels k).toNat_lt
  have h₀ := hbyte 0
  have h₁ := hbyte 1
  have h₂ := hbyte 2
  have h₃ := hbyte 3
  have h₄ := hbyte 4
  have h₅ := hbyte 5
  have h₆ := hbyte 6
  have h₇ := hbyte 7
  have h₈ := hbyte 8
  rw [abs_le]
  interval_cases n <;> simp [quarterLoop, quarterWeight] <;> omega

theorem abs_weightingLoop_le (pixels : Fin 9 → UInt8) {n : Nat} (hn : n ≤ 9) :
    |weightingLoop pixels n| ≤ 765 := by
  have hquarters : |(quarterLoop pixels n : ℚ)| ≤ 3060 := by
    exact_mod_cast abs_quarterLoop_le pixels hn
  rw [weightingLoop_eq_quarterLoop, abs_div]
  norm_num
  linarith

/-! ## Single precision -/

def floatPrecision : Nat := 24

def floatWeightingLoop (pixels : Fin 9 → UInt8) : Nat → ℚ
  | 0 => 0
  | n + 1 =>
      if h : n < 9 then
        let pixel := roundTo floatPrecision (pixels ⟨n, h⟩).toNat
        roundTo floatPrecision
          (floatWeightingLoop pixels n +
            roundTo floatPrecision (pixel * filter ⟨n, h⟩))
      else floatWeightingLoop pixels n

theorem representable_quarters {m : ℤ} (hm : |m| ≤ 3060) :
    Representable floatPrecision (m / 4) := by
  refine ⟨m, -2, hm.trans (by decide), ?_⟩
  rw [zpow_neg, div_eq_mul_inv]
  norm_num

theorem representable_product (pixel : UInt8) (k : Fin 9) :
    Representable floatPrecision (pixel.toNat * filter k) := by
  have hbyte : pixel.toNat ≤ 255 := Nat.le_of_lt_succ pixel.toNat_lt
  have hweight : |quarterWeight k| ≤ 12 := by
    fin_cases k <;> simp [quarterWeight]
  have hbound : |(pixel.toNat : ℤ) * quarterWeight k| ≤ 3060 := by
    rw [abs_mul, Nat.abs_cast]
    calc (pixel.toNat : ℤ) * |quarterWeight k| ≤ 255 * 12 :=
          mul_le_mul (by omega) hweight (abs_nonneg _) (by decide)
      _ = 3060 := by norm_num
  have hquarters := representable_quarters hbound
  rw [filter_eq_quarterWeight, ← mul_div_assoc]
  exact_mod_cast hquarters

theorem floatWeightingLoop_eq (pixels : Fin 9 → UInt8) (n : Nat) :
    floatWeightingLoop pixels n = weightingLoop pixels n := by
  have hp : 0 < floatPrecision := by decide
  induction n with
  | zero => rfl
  | succ n ih =>
      rw [floatWeightingLoop]
      split_ifs with hn
      · have hbyte := (pixels ⟨n, hn⟩).toNat_lt
        have hpixel : Representable floatPrecision (pixels ⟨n, hn⟩).toNat :=
          representable_natCast (hbyte.le.trans (by decide))
        have hsum : Representable floatPrecision (weightingLoop pixels (n + 1)) := by
          rw [weightingLoop_eq_quarterLoop]
          exact representable_quarters (abs_quarterLoop_le pixels hn)
        simp only [ih, roundTo_representable hp hpixel,
          roundTo_representable hp (representable_product _ _)]
        rw [weightingLoop, dif_pos hn] at hsum ⊢
        exact roundTo_representable hp hsum
      · rw [ih, weightingLoop, dif_neg hn]

/-! ## The copies of the board -/

def wideSamples (image : Nat → UInt32) (idx imageW imageH : Nat) (k : Fin 9) :
    UInt32 :=
  image (sampleIndex idx imageW imageH k)

/-- In exact arithmetic, as `weightingLoop`. -/
def wideWeightingLoop (pixels : Fin 9 → UInt32) : Nat → ℚ
  | 0 => 0
  | n + 1 =>
      if h : n < 9 then
        wideWeightingLoop pixels n + (pixels ⟨n, h⟩).toNat * filter ⟨n, h⟩
      else wideWeightingLoop pixels n

/-- Here the conversion to `float` rounds a word of more than 24 bits. -/
def floatWideWeightingLoop (pixels : Fin 9 → UInt32) : Nat → ℚ
  | 0 => 0
  | n + 1 =>
      if h : n < 9 then
        let pixel := roundTo floatPrecision (pixels ⟨n, h⟩).toNat
        roundTo floatPrecision
          (floatWideWeightingLoop pixels n +
            roundTo floatPrecision (pixel * filter ⟨n, h⟩))
      else floatWideWeightingLoop pixels n

theorem wideWeightingLoop_eq {wide : Fin 9 → UInt32} {pixels : Fin 9 → UInt8}
    (hvalue : ∀ k, (wide k).toNat = (pixels k).toNat) (n : Nat) :
    wideWeightingLoop wide n = weightingLoop pixels n := by
  induction n with
  | zero => rfl
  | succ n ih => simp only [wideWeightingLoop, weightingLoop, ih, hvalue]

theorem floatWideWeightingLoop_eq {wide : Fin 9 → UInt32} {pixels : Fin 9 → UInt8}
    (hvalue : ∀ k, (wide k).toNat = (pixels k).toNat) (n : Nat) :
    floatWideWeightingLoop wide n = weightingLoop pixels n := by
  rw [← floatWeightingLoop_eq]
  induction n with
  | zero => rfl
  | succ n ih =>
      simp only [floatWideWeightingLoop, floatWeightingLoop, ih, hvalue]

/--
At every pixel of every image, also of one row, one column or one pixel:
`filter_pixel` reads inside the image without underflow, the value it rounds is
the Laplacian of the image with extended borders, its partial sums are quarters
of at most 765, and in single precision they are exact.  So are those of the
copies, on words that hold bytes.
-/
theorem filter_pixel_is_laplacian (image : Nat → UInt8) {w h idx : Nat}
    (hidx : idx < w * h) :
    (∀ k, checkedSampleIndex idx w h k = some (sampleIndex idx w h k) ∧
      sampleIndex idx w h k < w * h) ∧
    weightingLoop (samples image idx w h) 9 =
      laplacian image (idx / w) (idx % w) w h ∧
    (∀ n ≤ 9, (∃ m : ℤ, weightingLoop (samples image idx w h) n = m / 4) ∧
      |weightingLoop (samples image idx w h) n| ≤ 765) ∧
    (∀ n, floatWeightingLoop (samples image idx w h) n =
      weightingLoop (samples image idx w h) n) ∧
    ∀ wide : Nat → UInt32, (∀ i < w * h, (wide i).toNat = (image i).toNat) →
      ∀ n, wideWeightingLoop (wideSamples wide idx w h) n =
          weightingLoop (samples image idx w h) n ∧
        floatWideWeightingLoop (wideSamples wide idx w h) n =
          weightingLoop (samples image idx w h) n := by
  refine ⟨fun k => ?_, weightingLoop_eq_laplacian image hidx, fun n hn => ?_,
    floatWeightingLoop_eq _, fun wide hwide n => ?_⟩
  · exact ⟨checkedSampleIndex_eq hidx k, sampleIndex_lt hidx k⟩
  · exact ⟨⟨_, weightingLoop_eq_quarterLoop _ n⟩, abs_weightingLoop_le _ hn⟩
  · have hvalue (k : Fin 9) := hwide _ (sampleIndex_lt hidx k)
    exact ⟨wideWeightingLoop_eq hvalue n, floatWideWeightingLoop_eq hvalue n⟩

def squares (i : Nat) : UInt8 := (7 * i * i).toUInt8

def wideSquares (i : Nat) : UInt32 := (squares i).toUInt32

theorem filter_pixel_is_laplacian_interior :
    laplacian squares 1 1 3 3 = -52 ∧
    weightingLoop (samples squares 4 3 3) 9 = laplacian squares 1 1 3 3 ∧
    floatWeightingLoop (samples squares 4 3 3) 9 =
      weightingLoop (samples squares 4 3 3) 9 ∧
    floatWideWeightingLoop (wideSamples wideSquares 4 3 3) 9 =
      weightingLoop (samples squares 4 3 3) 9 := by
  obtain ⟨-, hlaplacian, -, hfloat, hwide⟩ :=
    filter_pixel_is_laplacian squares (by decide : 4 < 3 * 3)
  have hwords : ∀ i < 3 * 3, (wideSquares i).toNat = (squares i).toNat :=
    fun i _ => UInt8.toNat_toUInt32 _
  refine ⟨?_, hlaplacian, hfloat 9, (hwide wideSquares hwords 9).2⟩
  rw [show laplacian squares 1 1 3 3 = weightingLoop (samples squares 4 3 3) 9
    from hlaplacian.symm]
  simp [weightingLoop, samples, sampleIndex, squares, filter]
  norm_num

end NiosHps.Filter
