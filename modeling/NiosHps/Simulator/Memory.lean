import NiosHps.Filter.Laplacian
import NiosHps.Foundation.Words
import NiosHps.Simulator.Threads

/-!
# Loading and saving (`filtro/src/memory.c`, `parse.c`)

`load_data` copies the bytes of a bitmap one after the other, and
`save_filtered_image` hands the bytes of the other sector back with rows of
`image_w` bytes.  A bitmap of the image library has its rows padded to whole
words, so the two layouts are the same for some sizes only.

A `Memory` is the header beside the bytes of the sectors; the bytes the header
occupies are not modelled.  Bitmaps have eight bits a pixel.
-/

namespace NiosHps.Simulator

open NiosHps.Foundation
open NiosHps.Filter

/-! ## Arguments -/

structure Arguments where
  percentQsys : ℚ
  percentCortex : ℚ

def defaultArguments : Arguments where
  percentQsys := 1
  percentCortex := 0

def parseOpt (percent : ℚ) : Option Arguments :=
  if percent < 0 ∨ percent > 1 then none
  else
    -- the subtraction is done in single precision
    some
      { percentCortex := percent
        percentQsys := roundTo floatPrecision (1 - percent) }

/-! ## Bitmaps -/

structure Bitmap where
  width : UInt32
  height : UInt32
  bits : Nat → UInt8

def pitch (width : Nat) : Nat := 4 * ((width + 3) / 4)

theorem le_pitch (width : Nat) : width ≤ pitch width := by
  unfold pitch
  omega

theorem pitch_eq_iff {width : Nat} : pitch width = width ↔ 4 ∣ width := by
  unfold pitch
  omega

namespace Bitmap

def pixel (dib : Bitmap) (y x : Nat) : UInt8 :=
  dib.bits (y * pitch dib.width.toNat + x)

structure HasSize (dib : Bitmap) (w h : UInt32) : Prop where
  width : dib.width = w
  height : dib.height = h

structure Same (dib dib' : Bitmap) : Prop where
  size : dib'.HasSize dib.width dib.height
  pixel : ∀ y < dib.height.toNat, ∀ x < dib.width.toNat,
    dib'.pixel y x = dib.pixel y x

def RowMajor (dib : Bitmap) (sector : Nat → UInt8) : Prop :=
  ∀ y < dib.height.toNat, ∀ x < dib.width.toNat,
    sector (y * dib.width.toNat + x) = dib.pixel y x

end Bitmap

/--
`FreeImage_ConvertFromRawBits` for eight bits a pixel, on sizes that are `int`
values.  It takes row `y` from `bits + y * pitch`; the padding is its own.
-/
structure ConvertFromRawBits where
  toFun : (Nat → UInt8) → (width height pitch : Int) → Bitmap
  hasSize : ∀ bits (w h : UInt32) p, w.toNat < 2 ^ 31 → h.toNat < 2 ^ 31 →
    (toFun bits w.toNat h.toNat p).HasSize w h
  row : ∀ bits (w h : UInt32) (p : Nat),
    w.toNat < 2 ^ 31 → h.toNat < 2 ^ 31 →
    ∀ y < h.toNat, ∀ x < w.toNat,
      (toFun bits w.toNat h.toNat p).pixel y x = bits (y * p + x)

def rowCopies : ConvertFromRawBits where
  toFun bits width height rowBytes :=
    { width := UInt32.ofNat width.toNat
      height := UInt32.ofNat height.toNat
      bits := fun i =>
        let y := i / pitch width.toNat
        let x := i % pitch width.toNat
        if x < width.toNat then bits (y * rowBytes.toNat + x) else 0 }
  hasSize bits w h p hw hh := by
    constructor <;> simp
  row bits w h p hw hh y hy x hx := by
    have hcolumn : x < pitch w.toNat := hx.trans_le (le_pitch _)
    have hmod : (y * pitch w.toNat + x) % pitch w.toNat = x := by
      rw [Nat.mul_comm, Nat.mul_add_mod, Nat.mod_eq_of_lt hcolumn]
    simp [Bitmap.pixel, grid_div hcolumn, hmod, hx]

/-! ## The sectors -/

structure Memory where
  header : SharedHeader
  sdram : Nat → UInt8

def Memory.sector (memory : Memory) (start : Nat) : Nat → UInt8 :=
  fun i => memory.sdram (start + i)

def truncate (q : ℚ) : Int := if 0 ≤ q then ⌊q⌋ else ⌈q⌉

/-- `width * height * args.percent_qsys`: the product of the sizes is unsigned. -/
def filterHpsStart (width height : UInt32) (percentQsys : ℚ) : Int :=
  let total := roundTo floatPrecision (width * height).toNat
  truncate (roundTo floatPrecision (total * percentQsys))

def copyLoop (pixels sdram : Nat → UInt8) : Nat → Nat → UInt8
  | 0 => sdram
  | i + 1 =>
      Function.update (copyLoop pixels sdram i) (decryptedImageSector + i)
        (pixels i)

def loadData (arguments : Arguments) (dib : Bitmap) : Memory where
  header :=
    { imageW := dib.width.toInt32.toInt
      imageH := dib.height.toInt32.toInt
      imageCopyDone := true
      decryptPxCount := 0
      decryptDone := false
      filterHpsStart := filterHpsStart dib.width dib.height arguments.percentQsys
      niosFilterDone := false
      hpsFilterDone := false }
  sdram := copyLoop dib.bits (fun _ => 0) (dib.width * dib.height).toNat

def saveFilteredImage (convert : ConvertFromRawBits) (memory : Memory) : Bitmap :=
  convert.toFun (memory.sector filteredImageSector) memory.header.imageW
    memory.header.imageH memory.header.imageW

theorem copyLoop_apply (pixels sdram : Nat → UInt8) (n i : Nat) :
    copyLoop pixels sdram n i =
      if decryptedImageSector ≤ i ∧ i < decryptedImageSector + n then
        pixels (i - decryptedImageSector)
      else sdram i := by
  induction n with
  | zero => rw [copyLoop, if_neg (by omega)]
  | succ n ih =>
      rw [copyLoop]
      by_cases hlast : i = decryptedImageSector + n
      · rw [hlast, Function.update_self, if_pos (by omega),
          Nat.add_sub_cancel_left]
      · rw [Function.update_of_ne hlast, ih]
        congr 1
        apply propext
        omega

/-! ## Sizes the sector holds -/

section Sizes

variable {w h : UInt32} {arguments : Arguments} {dib : Bitmap}

structure Fits (w h : UInt32) : Prop where
  w_pos : 0 < w.toNat
  h_pos : 0 < h.toNat
  le_sector : w.toNat * h.toNat ≤ decryptedSectorSize

theorem Fits.w_lt (hfits : Fits w h) : w.toNat < 2 ^ 31 :=
  calc w.toNat ≤ w.toNat * h.toNat := Nat.le_mul_of_pos_right _ hfits.h_pos
    _ ≤ decryptedSectorSize := hfits.le_sector
    _ < 2 ^ 31 := by decide

theorem Fits.h_lt (hfits : Fits w h) : h.toNat < 2 ^ 31 :=
  calc h.toNat ≤ w.toNat * h.toNat := Nat.le_mul_of_pos_left _ hfits.w_pos
    _ ≤ decryptedSectorSize := hfits.le_sector
    _ < 2 ^ 31 := by decide

theorem Fits.mul_toNat (hfits : Fits w h) :
    (w * h).toNat = w.toNat * h.toNat :=
  toNat_mul_exact (hfits.le_sector.trans_lt (by decide))

theorem loadData_imageW (hfits : Fits w h) (hsize : dib.HasSize w h) :
    (loadData arguments dib).header.imageW = w.toNat := by
  rw [loadData, hsize.width, toInt32_toInt hfits.w_lt]

theorem loadData_imageH (hfits : Fits w h) (hsize : dib.HasSize w h) :
    (loadData arguments dib).header.imageH = h.toNat := by
  rw [loadData, hsize.height, toInt32_toInt hfits.h_lt]

theorem loadData_sdram (hfits : Fits w h) (hsize : dib.HasSize w h) :
    (loadData arguments dib).sdram =
      copyLoop dib.bits (fun _ => 0) (w.toNat * h.toNat) := by
  simp only [loadData, hsize.width, hsize.height, hfits.mul_toNat]

theorem loadData_sector (hfits : Fits w h) (hsize : dib.HasSize w h) {i : Nat}
    (hi : i < w.toNat * h.toNat) :
    (loadData arguments dib).sector decryptedImageSector i = dib.bits i := by
  rw [Memory.sector, loadData_sdram hfits hsize, copyLoop_apply,
    if_pos (by omega), Nat.add_sub_cancel_left]

def LoadsRowMajor (w h : UInt32) : Prop :=
  ∀ arguments (dib : Bitmap), dib.HasSize w h →
    dib.RowMajor ((loadData arguments dib).sector decryptedImageSector)

/-- A filtered sector in rows of `image_w` bytes is saved as its bitmap. -/
def SavesRowMajor (convert : ConvertFromRawBits) (w h : UInt32) : Prop :=
  ∀ (dib : Bitmap) (memory : Memory), dib.HasSize w h →
    memory.header.imageW = w.toNat → memory.header.imageH = h.toNat →
    dib.RowMajor (memory.sector filteredImageSector) →
    dib.Same (saveFilteredImage convert memory)

def RoundTrips (convert : ConvertFromRawBits) (w h : UInt32) : Prop :=
  ∀ arguments (dib : Bitmap) (memory : Memory), dib.HasSize w h →
    memory.header = (loadData arguments dib).header →
    (∀ i < w.toNat * h.toNat, memory.sector filteredImageSector i =
      (loadData arguments dib).sector decryptedImageSector i) →
    dib.Same (saveFilteredImage convert memory)

theorem saveFilteredImage_hasSize (convert : ConvertFromRawBits)
    {memory : Memory} (hfits : Fits w h)
    (himageW : memory.header.imageW = w.toNat)
    (himageH : memory.header.imageH = h.toNat) :
    (saveFilteredImage convert memory).HasSize w h := by
  rw [saveFilteredImage, himageW, himageH]
  exact convert.hasSize _ _ _ _ hfits.w_lt hfits.h_lt

theorem saveFilteredImage_pixel (convert : ConvertFromRawBits)
    (memory : Memory) (hfits : Fits w h)
    (himageW : memory.header.imageW = w.toNat)
    (himageH : memory.header.imageH = h.toNat) {y x : Nat} (hy : y < h.toNat)
    (hx : x < w.toNat) :
    (saveFilteredImage convert memory).pixel y x =
      memory.sector filteredImageSector (y * w.toNat + x) := by
  rw [saveFilteredImage, himageW, himageH]
  exact convert.row _ _ _ _ hfits.w_lt hfits.h_lt y hy x hx

theorem savesRowMajor (convert : ConvertFromRawBits) (hfits : Fits w h) :
    SavesRowMajor convert w h := by
  rintro dib memory ⟨rfl, rfl⟩ himageW himageH hrows
  constructor
  · exact saveFilteredImage_hasSize convert hfits himageW himageH
  · intro y hy x hx
    rw [saveFilteredImage_pixel convert memory hfits himageW himageH hy hx]
    exact hrows y hy x hx

theorem loadsRowMajor (hfits : Fits w h) (haligned : 4 ∣ w.toNat ∨ h = 1) :
    LoadsRowMajor w h := by
  rintro arguments dib ⟨rfl, rfl⟩ y hy x hx
  rw [loadData_sector hfits ⟨rfl, rfl⟩ (grid_lt hx hy), Bitmap.pixel]
  rcases haligned with haligned | hrow
  · rw [pitch_eq_iff.mpr haligned]
  · rw [hrow] at hy
    have hzero : y = 0 := Nat.lt_one_iff.mp hy
    rw [hzero, Nat.zero_mul, Nat.zero_mul]

theorem roundTrips (convert : ConvertFromRawBits) (hfits : Fits w h)
    (hloads : LoadsRowMajor w h) : RoundTrips convert w h := by
  intro arguments dib memory hsize hheader hsector
  apply savesRowMajor convert hfits dib memory hsize
  · rw [hheader, loadData_imageW hfits hsize]
  · rw [hheader, loadData_imageH hfits hsize]
  · have hrows := hloads arguments dib hsize
    intro y hy x hx
    have hindex : y * dib.width.toNat + x < w.toNat * h.toNat := by
      rw [← hsize.width, ← hsize.height]
      exact grid_lt hx hy
    rw [hsector _ hindex]
    exact hrows y hy x hx

def secondRow (w h : UInt32) : Bitmap where
  width := w
  height := h
  bits i := if i = pitch w.toNat then 1 else 0

theorem secondRow_misplaced (arguments : Arguments) (hfits : Fits w h)
    (hpadded : ¬4 ∣ w.toNat)
    (hrows : h ≠ 1) :
    1 < h.toNat ∧ (secondRow w h).pixel 1 0 = 1 ∧
      (loadData arguments (secondRow w h)).sector decryptedImageSector w.toNat =
        0 := by
  have hh : 1 < h.toNat := by
    have hne : h.toNat ≠ 1 := fun hone => hrows (UInt32.toNat.inj hone)
    have hpos := hfits.h_pos
    omega
  have hinside : w.toNat < w.toNat * h.toNat :=
    (Nat.lt_mul_iff_one_lt_right hfits.w_pos).mpr hh
  have hshort : w.toNat ≠ pitch w.toNat := fun heq =>
    hpadded (pitch_eq_iff.mp heq.symm)
  refine ⟨hh, by simp [Bitmap.pixel, secondRow], ?_⟩
  rw [loadData_sector hfits ⟨rfl, rfl⟩ hinside]
  exact if_neg hshort

theorem aligned_of_loadsRowMajor (hfits : Fits w h)
    (hloads : LoadsRowMajor w h) : 4 ∣ w.toNat ∨ h = 1 := by
  by_contra hneither
  rw [not_or] at hneither
  obtain ⟨hh, hpixel, hsector⟩ :=
    secondRow_misplaced defaultArguments hfits hneither.1 hneither.2
  have hrow := hloads defaultArguments (secondRow w h) ⟨rfl, rfl⟩ 1 hh 0
    hfits.w_pos
  have hindex : 1 * (secondRow w h).width.toNat + 0 = w.toNat := by
    rw [Nat.one_mul, Nat.add_zero, secondRow]
  rw [hpixel, hindex, hsector] at hrow
  exact absurd hrow (by decide)

def unfiltered (loaded : Memory) : Memory where
  header := loaded.header
  sdram i :=
    if filteredImageSector ≤ i then
      loaded.sector decryptedImageSector (i - filteredImageSector)
    else loaded.sdram i

theorem unfiltered_sector (loaded : Memory) (i : Nat) :
    (unfiltered loaded).sector filteredImageSector i =
      loaded.sector decryptedImageSector i := by
  simp [unfiltered, Memory.sector]

theorem aligned_of_roundTrips (convert : ConvertFromRawBits)
    (hfits : Fits w h) (htrips : RoundTrips convert w h) :
    4 ∣ w.toNat ∨ h = 1 := by
  by_contra hneither
  rw [not_or] at hneither
  obtain ⟨hh, hpixel, hsector⟩ :=
    secondRow_misplaced defaultArguments hfits hneither.1 hneither.2
  have hsize : (secondRow w h).HasSize w h := ⟨rfl, rfl⟩
  have hsame := htrips defaultArguments (secondRow w h)
    (unfiltered (loadData defaultArguments (secondRow w h))) hsize rfl
    fun i _ => unfiltered_sector _ i
  have hsaved := saveFilteredImage_pixel convert
    (unfiltered (loadData defaultArguments (secondRow w h))) hfits
    (loadData_imageW hfits hsize) (loadData_imageH hfits hsize) hh hfits.w_pos
  rw [hsame.pixel 1 hh 0 hfits.w_pos, hpixel, unfiltered_sector, Nat.one_mul,
    Nat.add_zero, hsector] at hsaved
  exact absurd hsaved (by decide)

end Sizes

/--
Whatever the padding, saving takes rows of `image_w` bytes.  Loading leaves such
rows, and the two together give every bitmap back, exactly when the bitmaps of
the size have no padding between their rows.
-/
theorem load_save_layout_iff (convert : ConvertFromRawBits) {w h : UInt32}
    (hfits : Fits w h) :
    (LoadsRowMajor w h ∧ SavesRowMajor convert w h ↔
      4 ∣ w.toNat ∨ h = 1) ∧
    (RoundTrips convert w h ↔ 4 ∣ w.toNat ∨ h = 1) ∧
    SavesRowMajor convert w h := by
  have hsaves := savesRowMajor convert hfits
  refine ⟨⟨?_, ?_⟩, ⟨?_, ?_⟩, hsaves⟩
  · rintro ⟨hloads, -⟩
    exact aligned_of_loadsRowMajor hfits hloads
  · intro haligned
    exact ⟨loadsRowMajor hfits haligned, hsaves⟩
  · exact aligned_of_roundTrips convert hfits
  · intro haligned
    exact roundTrips convert hfits (loadsRowMajor hfits haligned)

theorem load_save_layout_four :
    LoadsRowMajor 4 7 ∧ SavesRowMajor rowCopies 4 7 :=
  (load_save_layout_iff rowCopies ⟨by decide, by decide, by decide⟩).1.mpr
    (Or.inl (by decide))

theorem two_columns_misplaced :
    ¬LoadsRowMajor 2 2 ∧ ¬RoundTrips rowCopies 2 2 := by
  have hfits : Fits 2 2 := ⟨by decide, by decide, by decide⟩
  have hpadded : ¬(4 ∣ (2 : UInt32).toNat ∨ (2 : UInt32) = 1) := by decide
  constructor
  · exact fun hloads => hpadded (aligned_of_loadsRowMajor hfits hloads)
  · exact fun htrips => hpadded (aligned_of_roundTrips rowCopies hfits htrips)

end NiosHps.Simulator
