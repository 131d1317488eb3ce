import NiosHps.Filter.Laplacian
import Mathlib.Data.Fin.Rev

/-!
# Symmetries of the filter

Mirroring the image, or exchanging its two axes, permutes the nine samples of a
pixel, and the weights do not notice: the permutation sends the branches of one
border onto those of another.  A constant added everywhere is cancelled because
the weights add up to zero.

The sums are those of the source before rounding, in exact arithmetic and for
elements of any type with a rational value.  In single precision the source
computes them as long as the elements, also the words of the board, hold bytes.
-/

namespace NiosHps.Filter

variable {α : Type*}

def valueLoop (value : α → ℚ) (pixels : Fin 9 → α) : Nat → ℚ
  | 0 => 0
  | n + 1 =>
      if h : n < 9 then
        valueLoop value pixels n + value (pixels ⟨n, h⟩) * filter ⟨n, h⟩
      else valueLoop value pixels n

def filterSum (value : α → ℚ) (image : Nat → α) (idx imageW imageH : Nat) : ℚ :=
  valueLoop value (fun k => image (sampleIndex idx imageW imageH k)) 9

def byteValue (v : UInt8) : ℚ := v.toNat

def wordValue (v : UInt32) : ℚ := v.toNat

theorem weightingLoop_eq_valueLoop (pixels : Fin 9 → UInt8) (n : Nat) :
    weightingLoop pixels n = valueLoop byteValue pixels n := by
  induction n with
  | zero => rfl
  | succ n ih => simp only [weightingLoop, valueLoop, ih, byteValue]

theorem wideWeightingLoop_eq_valueLoop (pixels : Fin 9 → UInt32) (n : Nat) :
    wideWeightingLoop pixels n = valueLoop wordValue pixels n := by
  induction n with
  | zero => rfl
  | succ n ih => simp only [wideWeightingLoop, valueLoop, ih, wordValue]

theorem filterPixel_eq_round (conv : FloatToU8) (image : Nat → UInt8)
    (idx w h : Nat) :
    filterPixel conv image idx w h =
      conv.toFun (round (filterSum byteValue image idx w h)) := by
  rw [filterPixel, weightingLoop_eq_valueLoop]
  rfl

theorem filterSum_eq_sum (value : α → ℚ) (image : Nat → α) (idx w h : Nat) :
    filterSum value image idx w h =
      ∑ k, value (image (sampleIndex idx w h k)) * filter k := by
  simp [filterSum, valueLoop, Fin.sum_univ_castSucc]

/-! ## Permutations of the samples -/

theorem filterSum_of_perm (value : α → ℚ) {image image' : Nat → α}
    {idx idx' w w' h h' : Nat} (σ : Equiv.Perm (Fin 9))
    (hfilter : ∀ k, filter (σ k) = filter k)
    (hsample : ∀ k, image' (sampleIndex idx' w' h' k) =
      image (sampleIndex idx w h (σ k))) :
    filterSum value image' idx' w' h' = filterSum value image idx w h := by
  rw [filterSum_eq_sum, filterSum_eq_sum]
  calc
    ∑ k, value (image' (sampleIndex idx' w' h' k)) * filter k =
        ∑ k, value (image (sampleIndex idx w h (σ k))) * filter (σ k) :=
      Finset.sum_congr rfl fun k _ => by rw [hsample, hfilter]
    _ = ∑ k, value (image (sampleIndex idx w h k)) * filter k :=
      Equiv.sum_comp σ fun k => value (image (sampleIndex idx w h k)) * filter k

def sampleAt (row column : Fin 3) : Fin 9 := ⟨3 * row + column, by omega⟩

@[simp] theorem sampleRow_sampleAt (row column : Fin 3) :
    sampleRow (sampleAt row column) = row := by
  apply Fin.ext
  simp only [sampleRow, sampleAt]
  omega

@[simp] theorem sampleColumn_sampleAt (row column : Fin 3) :
    sampleColumn (sampleAt row column) = column := by
  apply Fin.ext
  simp only [sampleColumn, sampleAt]
  omega

theorem sampleAt_sample (k : Fin 9) :
    sampleAt (sampleRow k) (sampleColumn k) = k := by
  apply Fin.ext
  simp only [sampleAt, sampleRow, sampleColumn]
  omega

def flipColumns : Equiv.Perm (Fin 9) :=
  Function.Involutive.toPerm
    (fun k => sampleAt (sampleRow k) (sampleColumn k).rev)
    fun k => by simp [sampleAt_sample]

def flipRows : Equiv.Perm (Fin 9) :=
  Function.Involutive.toPerm
    (fun k => sampleAt (sampleRow k).rev (sampleColumn k))
    fun k => by simp [sampleAt_sample]

def swapAxes : Equiv.Perm (Fin 9) :=
  Function.Involutive.toPerm
    (fun k => sampleAt (sampleColumn k) (sampleRow k))
    fun k => by simp [sampleAt_sample]

theorem filter_flipColumns (k : Fin 9) : filter (flipColumns k) = filter k := by
  fin_cases k <;> rfl

theorem filter_flipRows (k : Fin 9) : filter (flipRows k) = filter k := by
  fin_cases k <;> rfl

theorem filter_swapAxes (k : Fin 9) : filter (swapAxes k) = filter k := by
  fin_cases k <;> rfl

/-! ## The transformed images -/

def mirrorColumns (w : Nat) (image : Nat → α) (i : Nat) : α :=
  image (i / w * w + (w - 1 - i % w))

def mirrorRows (w h : Nat) (image : Nat → α) (i : Nat) : α :=
  image ((h - 1 - i / w) * w + i % w)

/-- The image of `w` by `h` read by columns: it has `h` columns and `w` rows. -/
def transpose (w h : Nat) (image : Nat → α) (i : Nat) : α :=
  image (i % h * w + i / h)

theorem mirrorColumns_grid (image : Nat → α) {w x : Nat} (hx : x < w)
    (y : Nat) :
    mirrorColumns w image (y * w + x) = image (y * w + (w - 1 - x)) := by
  rw [mirrorColumns, grid_div hx, grid_mod hx]

theorem mirrorRows_grid (image : Nat → α) {w x : Nat} (hx : x < w)
    (h y : Nat) :
    mirrorRows w h image (y * w + x) = image ((h - 1 - y) * w + x) := by
  rw [mirrorRows, grid_div hx, grid_mod hx]

theorem transpose_grid (image : Nat → α) {h y : Nat} (hy : y < h)
    (w x : Nat) :
    transpose w h image (x * h + y) = image (y * w + x) := by
  rw [transpose, grid_div hy, grid_mod hy]

theorem extend_mirror {n i : Nat} (hi : i < n) (j : Fin 3) :
    n - 1 - extend n (n - 1 - i) j = extend n i j.rev := by
  match j with
  | 0 =>
      change n - 1 - (n - 1 - i - 1) = min (i + 1) (n - 1)
      omega
  | 1 =>
      change n - 1 - (n - 1 - i) = i
      omega
  | 2 =>
      change n - 1 - min (n - 1 - i + 1) (n - 1) = i - 1
      omega

section Grid

variable (value : α → ℚ) (image : Nat → α) {w h x y : Nat} (hx : x < w)
  (hy : y < h)

include hx hy

theorem filterSum_mirrorColumns :
    filterSum value (mirrorColumns w image) (y * w + (w - 1 - x)) w h =
      filterSum value image (y * w + x) w h := by
  have hx' : w - 1 - x < w := by omega
  apply filterSum_of_perm value flipColumns filter_flipColumns
  intro k
  have hcolumn : sampleColumn (flipColumns k) = (sampleColumn k).rev :=
    sampleColumn_sampleAt _ _
  have hrow : sampleRow (flipColumns k) = sampleRow k := sampleRow_sampleAt _ _
  rw [sampleIndex_grid hx' hy, mirrorColumns_grid image (extend_lt hx' _),
    extend_mirror hx, sampleIndex_grid hx hy, hcolumn, hrow]

theorem filterSum_mirrorRows :
    filterSum value (mirrorRows w h image) ((h - 1 - y) * w + x) w h =
      filterSum value image (y * w + x) w h := by
  have hy' : h - 1 - y < h := by omega
  apply filterSum_of_perm value flipRows filter_flipRows
  intro k
  have hcolumn : sampleColumn (flipRows k) = sampleColumn k :=
    sampleColumn_sampleAt _ _
  have hrow : sampleRow (flipRows k) = (sampleRow k).rev := sampleRow_sampleAt _ _
  rw [sampleIndex_grid hx hy', mirrorRows_grid image (extend_lt hx _),
    extend_mirror hy, sampleIndex_grid hx hy, hcolumn, hrow]

theorem filterSum_transpose :
    filterSum value (transpose w h image) (x * h + y) h w =
      filterSum value image (y * w + x) w h := by
  apply filterSum_of_perm value swapAxes filter_swapAxes
  intro k
  have hcolumn : sampleColumn (swapAxes k) = sampleRow k :=
    sampleColumn_sampleAt _ _
  have hrow : sampleRow (swapAxes k) = sampleColumn k := sampleRow_sampleAt _ _
  rw [sampleIndex_grid hy hx, transpose_grid image (extend_lt hy _),
    sampleIndex_grid hx hy, hcolumn, hrow]

end Grid

theorem sum_filter : ∑ k, filter k = 0 := by
  simp [Fin.sum_univ_succ, filter]
  norm_num

theorem filterSum_add_const (value : α → ℚ) {image image' : Nat → α}
    {w h idx : Nat} (hidx : idx < w * h) {c : ℚ}
    (hshift : ∀ i < w * h, value (image' i) = value (image i) + c) :
    filterSum value image' idx w h = filterSum value image idx w h := by
  rw [filterSum_eq_sum, filterSum_eq_sum]
  calc
    ∑ k, value (image' (sampleIndex idx w h k)) * filter k =
        ∑ k, (value (image (sampleIndex idx w h k)) * filter k +
          c * filter k) :=
      Finset.sum_congr rfl fun k _ => by
        rw [hshift _ (sampleIndex_lt hidx k), add_mul]
    _ = ∑ k, value (image (sampleIndex idx w h k)) * filter k +
          c * ∑ k, filter k := by
      rw [Finset.sum_add_distrib, Finset.mul_sum]
    _ = ∑ k, value (image (sampleIndex idx w h k)) * filter k := by
      rw [sum_filter, mul_zero, add_zero]

/--
At every position of every image, borders included, the sum `filter_pixel`
rounds is the one of the mirrored image at the mirrored position, in either
direction, and of the transposed image at the transposed position; and it does
not see a constant added to the whole image.
-/
theorem filter_pixel_respects_symmetries (value : α → ℚ) (image : Nat → α)
    {w h x y : Nat} (hx : x < w) (hy : y < h) :
    filterSum value (mirrorColumns w image) (y * w + (w - 1 - x)) w h =
      filterSum value image (y * w + x) w h ∧
    filterSum value (mirrorRows w h image) ((h - 1 - y) * w + x) w h =
      filterSum value image (y * w + x) w h ∧
    filterSum value (transpose w h image) (x * h + y) h w =
      filterSum value image (y * w + x) w h ∧
    ∀ (image' : Nat → α) (c : ℚ),
      (∀ i < w * h, value (image' i) = value (image i) + c) →
      filterSum value image' (y * w + x) w h =
        filterSum value image (y * w + x) w h := by
  refine ⟨filterSum_mirrorColumns value image hx hy,
    filterSum_mirrorRows value image hx hy,
    filterSum_transpose value image hx hy, ?_⟩
  intro image' c hshift
  exact filterSum_add_const value (grid_lt hx hy) hshift

theorem filter_pixel_respects_symmetries_corner :
    filterSum byteValue (mirrorColumns 3 (fun i => UInt8.ofNat i)) 0 3 2 =
      filterSum byteValue (fun i => UInt8.ofNat i) 2 3 2 ∧
    filterSum (fun q : ℚ => q) (fun i => i + 40) 2 3 2 =
      filterSum (fun q : ℚ => q) (fun i => i) 2 3 2 := by
  have hcolumn : 2 < 3 := by decide
  have hrow : 0 < 2 := by decide
  refine ⟨(filter_pixel_respects_symmetries byteValue
    (fun i => UInt8.ofNat i) hcolumn hrow).1, ?_⟩
  have hvalues := filter_pixel_respects_symmetries (fun q : ℚ => q)
    (fun i => (i : ℚ)) hcolumn hrow
  exact hvalues.2.2.2 (fun i => i + 40) 40 fun _ _ => rfl

end NiosHps.Filter
