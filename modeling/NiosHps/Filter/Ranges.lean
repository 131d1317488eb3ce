import NiosHps.Filter.Pixel
import NiosHps.Foundation.Scatter

/-!
# Calls of `apply_filter` on any ranges

Both processors filter their share of the image in chunks, with one call for
each.  The memory that any list of calls leaves depends on the pixels they
cover and on nothing else.
-/

namespace NiosHps.Filter

open NiosHps.Foundation

structure PixelRange where
  startIdx : Nat
  numPixels : Nat
  deriving DecidableEq, Repr

def PixelRange.indices (r : PixelRange) : List Nat :=
  List.range' r.startIdx r.numPixels

def applyCalls (conv : FloatToU8) (image outBuf imageW imageH : Nat)
    (calls : List PixelRange) (mem : Nat → UInt8) : Nat → UInt8 :=
  calls.foldl
    (fun mem call =>
      applyFilter conv image outBuf call.startIdx call.numPixels imageW imageH mem)
    mem

def Covered (calls : List PixelRange) (i : Nat) : Prop :=
  ∃ call ∈ calls, call.startIdx ≤ i ∧ i < call.startIdx + call.numPixels

def Apart (image outBuf size : Nat) : Prop :=
  image + size ≤ outBuf ∨ outBuf + size ≤ image

/-! ## The calls as one loop -/

def pixelStores (conv : FloatToU8) (image outBuf imageW imageH : Nat) :
    Scatter Nat Nat UInt8 where
  cell i := outBuf + i
  compute mem i := filterPixel conv (fun j => mem (image + j)) i imageW imageH

def imageCells (image size : Nat) : Set Nat := { a | ∃ j < size, a = image + j }

def coveredIndices (calls : List PixelRange) : List Nat :=
  calls.flatMap PixelRange.indices

theorem mem_coveredIndices {calls : List PixelRange} {i : Nat} :
    i ∈ coveredIndices calls ↔ Covered calls i := by
  simp [coveredIndices, PixelRange.indices, Covered]

section Calls

variable (conv : FloatToU8) {image outBuf w h : Nat}

theorem applyCalls_eq_stores (calls : List PixelRange) (mem : Nat → UInt8) :
    applyCalls conv image outBuf w h calls mem =
      (pixelStores conv image outBuf w h).stores mem (coveredIndices calls) := by
  rw [Scatter.stores, coveredIndices, List.foldl_flatMap]
  rfl

theorem pixelStores_separated (hapart : Apart image outBuf (w * h)) :
    (pixelStores conv image outBuf w h).Separated (Set.Iio (w * h))
      (imageCells image (w * h)) := by
  constructor
  · intro i _ j _ hcell
    exact Nat.add_left_cancel hcell
  · rintro i hi ⟨j, hj, hcell⟩
    rw [Set.mem_Iio] at hi
    change outBuf + i = image + j at hcell
    rcases hapart with hbelow | habove <;> omega
  · intro i hi mem mem' hagree
    apply filterPixel_congr conv _ hi
    intro j hj
    exact hagree _ ⟨j, hj, rfl⟩

theorem Covered.lt {calls : List PixelRange}
    (hcalls : ∀ call ∈ calls, call.startIdx + call.numPixels ≤ w * h) {i : Nat}
    (hi : Covered calls i) : i < w * h := by
  rcases hi with ⟨call, hcall, _, hlt⟩
  exact hlt.trans_le (hcalls call hcall)

theorem coveredIndices_lt {calls : List PixelRange}
    (hcalls : ∀ call ∈ calls, call.startIdx + call.numPixels ≤ w * h) :
    ∀ i ∈ coveredIndices calls, i ∈ Set.Iio (w * h) := by
  intro i hi
  exact (mem_coveredIndices.mp hi).lt hcalls

theorem applyFilter_eq_applyCalls (startIdx numPixels : Nat)
    (mem : Nat → UInt8) :
    applyFilter conv image outBuf startIdx numPixels w h mem =
      applyCalls conv image outBuf w h [⟨startIdx, numPixels⟩] mem := rfl

end Calls

/--
The calls leave `filter_pixel` of the image in every cell they cover, every
other cell as it was, and the image with them; calls that cover the same pixels
leave the same memory, be it the same calls in another order or one call for
what several calls cover in parts.
-/
theorem apply_filter_calls_compose (conv : FloatToU8) {image outBuf w h : Nat}
    (hapart : Apart image outBuf (w * h)) {calls : List PixelRange}
    (hcalls : ∀ call ∈ calls, call.startIdx + call.numPixels ≤ w * h)
    (mem : Nat → UInt8) :
    (∀ i, Covered calls i →
      applyCalls conv image outBuf w h calls mem (outBuf + i) =
        filterPixel conv (fun j => mem (image + j)) i w h) ∧
    (∀ a, (∀ i, Covered calls i → a ≠ outBuf + i) →
      applyCalls conv image outBuf w h calls mem a = mem a) ∧
    (∀ j < w * h,
      applyCalls conv image outBuf w h calls mem (image + j) =
        mem (image + j)) ∧
    (∀ calls', (∀ i, Covered calls' i ↔ Covered calls i) →
      applyCalls conv image outBuf w h calls' mem =
        applyCalls conv image outBuf w h calls mem) ∧
    (∀ calls', calls'.Perm calls →
      applyCalls conv image outBuf w h calls' mem =
        applyCalls conv image outBuf w h calls mem) ∧
    ∀ startIdx numPixels,
      (∀ i, Covered calls i ↔ startIdx ≤ i ∧ i < startIdx + numPixels) →
      applyFilter conv image outBuf startIdx numPixels w h mem =
        applyCalls conv image outBuf w h calls mem := by
  have hsep := pixelStores_separated conv hapart
  have hlt := coveredIndices_lt hcalls
  have hstored := hsep.stored_stores mem hlt
  rw [← applyCalls_eq_stores] at hstored
  have hsame : ∀ calls', (∀ i, Covered calls' i ↔ Covered calls i) →
      applyCalls conv image outBuf w h calls' mem =
        applyCalls conv image outBuf w h calls mem := by
    intro calls' hcovered
    rw [applyCalls_eq_stores, applyCalls_eq_stores]
    apply hsep.stores_congr mem hlt
    intro i
    rw [mem_coveredIndices, mem_coveredIndices, hcovered]
  refine ⟨?_, ?_, ?_, hsame, ?_, ?_⟩
  · intro i hi
    exact hstored.stored i (mem_coveredIndices.mpr hi)
  · intro a ha
    apply hstored.unchanged
    rintro ⟨i, hi, hcell⟩
    exact ha i (mem_coveredIndices.mp hi) hcell.symm
  · intro j hj
    exact hstored.input_unchanged hsep hlt ⟨j, hj, rfl⟩
  · intro calls' hperm
    apply hsame
    intro i
    simp only [Covered, hperm.mem_iff]
  · intro startIdx numPixels hunion
    rw [applyFilter_eq_applyCalls]
    apply hsame
    intro i
    rw [hunion]
    simp [Covered]

def lowByte : FloatToU8 where
  toFun q := UInt8.ofNat (q % 256).toNat
  exact v := by
    have hbyte := v.toNat_lt
    have hsmall : (v.toNat : ℤ) % 256 = v.toNat :=
      Int.emod_eq_of_lt (by omega) (by omega)
    rw [hsmall, Int.toNat_natCast, UInt8.ofNat_toNat]

theorem apply_filter_calls_compose_chunks :
    applyFilter lowByte 28 64 0 6 3 2 (fun a => UInt8.ofNat a) =
      applyCalls lowByte 28 64 3 2 [⟨3, 3⟩, ⟨0, 4⟩, ⟨2, 0⟩]
        (fun a => UInt8.ofNat a) := by
  have hapart : Apart 28 64 (3 * 2) := Or.inl (by decide)
  have hcalls : ∀ call ∈ [PixelRange.mk 3 3, ⟨0, 4⟩, ⟨2, 0⟩],
      call.startIdx + call.numPixels ≤ 3 * 2 := by decide
  have hcompose := apply_filter_calls_compose lowByte hapart hcalls
    (fun a => UInt8.ofNat a)
  apply hcompose.2.2.2.2.2
  intro i
  simp [Covered]
  omega

end NiosHps.Filter
