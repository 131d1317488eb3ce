import Mathlib.Algebra.Order.Floor.Ring
import Mathlib.Data.Rat.Floor
import Mathlib.Data.Fin.VecNotation
import Mathlib.Data.Fintype.Basic
import Mathlib.Tactic.FinCases
import Mathlib.Tactic.Ring

/-!
# The Laplacian filter (`filter.c`)

The three programs share one `filter.c`; only the width of the image elements
differs.  Indices are `size_t` values, modelled as naturals.  The weights are
multiples of `1/4` and the pixels are bytes, so the single-precision sum of the
source is the exact rational computed here.

`samples` is what a lone call has gathered in `pixels` before its weighting
loop, and `weightingLoop pixels n` is its `result` after `n` iterations.
-/

namespace NiosHps.Filter

def filter : Fin 9 → ℚ :=
  ![1 / 4, 1 / 2, 1 / 4, 1 / 2, -3, 1 / 2, 1 / 4, 1 / 2, 1 / 4]

/--
The index of `image` that `filter_pixel` stores into `pixels[k]`, with the
branches of the source in the order of its border flags.
-/
def sampleIndex (idx imageW imageH : Nat) (k : Fin 9) : Nat :=
  let y := idx / imageW
  let x := idx - y * imageW
  let leftBorder : Bool := x == 0
  let rightBorder : Bool := x == imageW - 1
  let topBorder : Bool := y == 0
  let bottomBorder : Bool := y == imageH - 1
  match k with
  | 0 =>
      if topBorder then
        if leftBorder then idx else idx - 1
      else if leftBorder then idx - imageW else idx - imageW - 1
  | 1 => if topBorder then idx else idx - imageW
  | 2 =>
      if topBorder then
        if rightBorder then idx else idx + 1
      else if rightBorder then idx - imageW else idx - imageW + 1
  | 3 => if leftBorder then idx else idx - 1
  | 4 => idx
  | 5 => if rightBorder then idx else idx + 1
  | 6 =>
      if bottomBorder then
        if leftBorder then idx else idx - 1
      else if leftBorder then idx + imageW else idx + imageW - 1
  | 7 => if bottomBorder then idx else idx + imageW
  | 8 =>
      if bottomBorder then
        if rightBorder then idx else idx + 1
      else if rightBorder then idx + imageW else idx + imageW + 1

def samples (image : Nat → UInt8) (idx imageW imageH : Nat) (k : Fin 9) : UInt8 :=
  image (sampleIndex idx imageW imageH k)

def weightingLoop (pixels : Fin 9 → UInt8) : Nat → ℚ
  | 0 => 0
  | n + 1 =>
      if h : n < 9 then
        weightingLoop pixels n + (pixels ⟨n, h⟩).toNat * filter ⟨n, h⟩
      else weightingLoop pixels n

/-- `round` of the C library: to the nearest integer, halves away from zero. -/
def round (q : ℚ) : ℤ :=
  if 0 ≤ q then ⌊q + 1 / 2⌋ else ⌈q - 1 / 2⌉

/--
The conversion from an integral `float` to `uint8_t`.  The language defines it
on `0 .. 255` only; outside, each target does something of its own, so the
model takes the whole function and relies on the defined part.
-/
structure FloatToU8 where
  toFun : ℤ → UInt8
  exact : ∀ v : UInt8, toFun v.toNat = v

def filterPixel (conv : FloatToU8) (image : Nat → UInt8)
    (idx imageW imageH : Nat) : UInt8 :=
  conv.toFun (round (weightingLoop (samples image idx imageW imageH) 9))

/--
`apply_filter` on one memory, with the two buffers given by their addresses:
pixel `i` is computed from the memory the earlier pixels have left.
-/
def applyFilter (conv : FloatToU8) (image outBuf startIdx numPixels imageW
    imageH : Nat) (mem : Nat → UInt8) : Nat → UInt8 :=
  (List.range' startIdx numPixels).foldl
    (fun mem i =>
      Function.update mem (outBuf + i)
        (filterPixel conv (fun j => mem (image + j)) i imageW imageH))
    mem

/-!
## Rows and columns

The nested border branches amount to a step along the rows followed by a step
along the columns, each of them kept inside the image by `extend`.
-/

def extend (n i : Nat) : Fin 3 → Nat
  | 0 => i - 1
  | 1 => i
  | 2 => min (i + 1) (n - 1)

theorem extend_lt {n i : Nat} (hi : i < n) (j : Fin 3) : extend n i j < n := by
  fin_cases j <;> simp [extend] <;> omega

theorem extend_le_last {n i : Nat} (hi : i < n) (j : Fin 3) :
    extend n i j ≤ extend n i 2 := by
  fin_cases j <;> simp [extend] <;> omega

theorem grid_lt {w h x y : Nat} (hx : x < w) (hy : y < h) :
    y * w + x < w * h := by
  calc
    y * w + x < y * w + w := by omega
    _ = w * (y + 1) := by ring
    _ ≤ w * h := Nat.mul_le_mul_left w hy

theorem grid_div {w x : Nat} (hx : x < w) (y : Nat) : (y * w + x) / w = y := by
  rw [Nat.mul_comm, Nat.mul_add_div (by omega), Nat.div_eq_of_lt hx, Nat.add_zero]

theorem grid_mod {w x : Nat} (hx : x < w) (y : Nat) : (y * w + x) % w = x := by
  rw [Nat.mul_comm, Nat.mul_add_mod, Nat.mod_eq_of_lt hx]

theorem exists_grid {w h idx : Nat} (hidx : idx < w * h) :
    ∃ y x, y < h ∧ x < w ∧ idx = y * w + x := by
  have hw : 0 < w := Nat.pos_of_mul_pos_right (Nat.zero_lt_of_lt hidx)
  refine ⟨idx / w, idx % w, Nat.div_lt_of_lt_mul hidx, Nat.mod_lt _ hw, ?_⟩
  rw [Nat.mul_comm]
  exact (Nat.div_add_mod idx w).symm

def sampleRow (k : Fin 9) : Fin 3 := ⟨k / 3, by omega⟩

def sampleColumn (k : Fin 9) : Fin 3 := ⟨k % 3, by omega⟩

def borderStep (base stride last i : Nat) : Fin 3 → Nat
  | 0 => if i = 0 then base else base - stride
  | 1 => base
  | 2 => if i = last then base else base + stride

theorem sampleIndex_eq_borderStep (idx w h : Nat) (k : Fin 9) :
    sampleIndex idx w h k =
      borderStep (borderStep idx w (h - 1) (idx / w) (sampleRow k))
        1 (w - 1) (idx - idx / w * w) (sampleColumn k) := by
  fin_cases k <;>
    simp [sampleIndex, borderStep, sampleRow, sampleColumn] <;>
    split_ifs <;> rfl

theorem borderStep_eq_extend {n i : Nat} (hi : i < n) (stride rest : Nat)
    (j : Fin 3) :
    borderStep (i * stride + rest) stride (n - 1) i j =
      extend n i j * stride + rest := by
  match j with
  | 0 =>
      cases i with
      | zero => simp [borderStep, extend]
      | succ i =>
          simp only [borderStep, extend, Nat.succ_mul, Nat.succ_ne_zero,
            if_false, Nat.add_sub_cancel]
          omega
  | 1 => rfl
  | 2 =>
      by_cases hlast : i = n - 1
      · simp [borderStep, extend, hlast]
      · have hnext : min (i + 1) (n - 1) = i + 1 := by omega
        simp only [borderStep, extend, hlast, if_false, hnext, Nat.succ_mul]
        omega

theorem sampleIndex_grid {w h x y : Nat} (hx : x < w) (hy : y < h) (k : Fin 9) :
    sampleIndex (y * w + x) w h k =
      extend h y (sampleRow k) * w + extend w x (sampleColumn k) := by
  rw [sampleIndex_eq_borderStep, grid_div hx, Nat.add_sub_cancel_left,
    borderStep_eq_extend hy]
  simpa [Nat.add_comm] using
    borderStep_eq_extend hx 1 (extend h y (sampleRow k) * w) (sampleColumn k)

theorem sampleIndex_lt {w h idx : Nat} (hidx : idx < w * h) (k : Fin 9) :
    sampleIndex idx w h k < w * h := by
  obtain ⟨y, x, hy, hx, rfl⟩ := exists_grid hidx
  rw [sampleIndex_grid hx hy]
  exact grid_lt (extend_lt hx _) (extend_lt hy _)

theorem filterPixel_congr (conv : FloatToU8) {image image' : Nat → UInt8}
    {w h idx : Nat} (hagree : ∀ i < w * h, image i = image' i)
    (hidx : idx < w * h) :
    filterPixel conv image idx w h = filterPixel conv image' idx w h := by
  have hsamples : samples image idx w h = samples image' idx w h :=
    funext fun k => hagree _ (sampleIndex_lt hidx k)
  simp only [filterPixel, hsamples]

theorem sampleIndex_le_last {w h idx : Nat} (hidx : idx < w * h) (k : Fin 9) :
    sampleIndex idx w h k ≤ sampleIndex idx w h 8 := by
  obtain ⟨y, x, hy, hx, rfl⟩ := exists_grid hidx
  rw [sampleIndex_grid hx hy, sampleIndex_grid hx hy]
  exact Nat.add_le_add
    (Nat.mul_le_mul_right w (extend_le_last hy _)) (extend_le_last hx _)

end NiosHps.Filter
