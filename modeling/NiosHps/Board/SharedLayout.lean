import NiosHps.Board.Progress
import NiosHps.Foundation.LittleEndian

/-!
# The shared structure in its bytes (`types.h`)

The two arrays come first, 0x2A30000 bytes of them, and the other fields follow
within a few words.  A store through another base than that of the structure
changes whatever bytes it hits, and the fields hold what the bytes then say.  A
base that is a page or more too low leaves all fields but the pixels alone.

The filtered image, the text message and the padding are bytes like the others,
but no field here reads them.
-/

namespace NiosHps.Board

open NiosHps.Foundation

namespace SharedData

def imageFilteredOffset : Nat := 4 * maxRes

/-- Behind `image_filtered`; the fields from `image_w` on start here. -/
def imageWOffset : Nat := imageFilteredOffset + maxRes

example : imageWOffset = 0x2A30000 := rfl

def load (mem : Nat → UInt8) (base : Nat) : SharedData where
  imageEncrypted idx := (loadInt mem (base + 4 * idx)).toUInt32
  imageW := (loadInt mem (base + imageWOffset)).toUInt32
  imageH := (loadInt mem (base + imageWOffset + 4)).toUInt32
  imageCopyDone := loadBool mem (base + imageWOffset + 8)
  decryptPxCount := loadInt mem (base + imageWOffset + 12)
  decryptDone := loadBool mem (base + imageWOffset + 16)
  filterHpsStart := loadInt mem (base + imageWOffset + 20)
  niosFilterDone := loadBool mem (base + imageWOffset + 24)
  hpsFilterDone := loadBool mem (base + imageWOffset + 25)

def pixelByte (shared : SharedData) (i : Nat) : UInt8 :=
  if h : i / 4 < maxRes then
    storeInt (fun _ => 0) 0 (shared.imageEncrypted ⟨i / 4, h⟩).toInt32 (i % 4)
  else 0

/-- The bytes of the structure when it lies at `base`. -/
def placed (shared : SharedData) (base : Nat) : Nat → UInt8 :=
  let mem := fun i => shared.pixelByte (i - base)
  let mem := storeInt mem (base + imageWOffset) shared.imageW.toInt32
  let mem := storeInt mem (base + imageWOffset + 4) shared.imageH.toInt32
  let mem := storeBool mem (base + imageWOffset + 8) shared.imageCopyDone
  let mem := storeInt mem (base + imageWOffset + 12) shared.decryptPxCount
  let mem := storeBool mem (base + imageWOffset + 16) shared.decryptDone
  let mem := storeInt mem (base + imageWOffset + 20) shared.filterHpsStart
  let mem := storeBool mem (base + imageWOffset + 24) shared.niosFilterDone
  storeBool mem (base + imageWOffset + 25) shared.hpsFilterDone

end SharedData

/-- What the HPS does to memory when it has mapped `base`. -/
def HpsStore.write (mem : Nat → UInt8) (base : Nat) : HpsStore → Nat → UInt8
  | .imageEncrypted idx value => storeInt mem (base + 4 * idx) value.toInt32
  | .imageW value =>
      storeInt mem (base + SharedData.imageWOffset) value.toInt32
  | .imageH value =>
      storeInt mem (base + SharedData.imageWOffset + 4) value.toInt32
  | .filterHpsStart value =>
      storeInt mem (base + SharedData.imageWOffset + 20) value
  | .imageCopyDone => storeBool mem (base + SharedData.imageWOffset + 8) true
  | .hpsFilterDone => storeBool mem (base + SharedData.imageWOffset + 25) true

namespace SharedData

def misplaced (shared : SharedData) (base mapped : Nat) (store : HpsStore) :
    SharedData :=
  load (store.write (shared.placed base) mapped) base

section Layout

variable (shared : SharedData) (base : Nat)

theorem pixels_below (idx : Fin maxRes) : 4 * idx.val + 4 ≤ imageWOffset := by
  have hidx := idx.isLt
  simp only [imageWOffset, imageFilteredOffset]
  omega

theorem loadInt_pixelByte (idx : Fin maxRes) :
    loadInt (fun i => shared.pixelByte (i - base)) (base + 4 * idx) =
      (shared.imageEncrypted idx).toInt32 := by
  have hbytes : ∀ k < 4, shared.pixelByte (base + 4 * idx + k - base) =
      storeInt (fun _ => 0) 0 (shared.imageEncrypted idx).toInt32 k := by
    intro k hk
    have hindex : (base + 4 * idx + k - base) / 4 = idx := by omega
    have hbyte : (base + 4 * idx + k - base) % 4 = k := by omega
    simp only [pixelByte, hindex, hbyte, idx.isLt, dif_pos]
  exact loadInt_of_storeInt hbytes

theorem load_placed : load (shared.placed base) base = shared := by
  have hpixels (idx : Fin maxRes) :
      loadInt (shared.placed base) (base + 4 * idx) =
        (shared.imageEncrypted idx).toInt32 := by
    have hbelow := pixels_below idx
    simp (disch := omega) only [placed, loadInt_storeInt_of_disjoint,
      loadInt_storeBool_of_disjoint, loadInt_pixelByte]
  obtain ⟨imageEncrypted, imageW, imageH, imageCopyDone, decryptPxCount,
    decryptDone, filterHpsStart, niosFilterDone, hpsFilterDone⟩ := shared
  simp only [load, SharedData.mk.injEq, hpixels]
  simp (disch := omega) only [placed, loadInt_storeInt, loadBool_storeBool,
    loadInt_storeInt_of_disjoint, loadInt_storeBool_of_disjoint,
    loadBool_storeInt_of_disjoint, loadBool_storeBool_of_ne]
  simp

/-! ## Stores through a base -/

variable {base}

theorem write_field_outside {mem : Nat → UInt8} {store : HpsStore}
    (hfield : ∀ idx value, store ≠ .imageEncrypted idx value) {i : Nat}
    (hi : i < base + imageWOffset) : store.write mem base i = mem i := by
  cases store with
  | imageEncrypted idx value => exact absurd rfl (hfield idx value)
  | imageW value => exact storeInt_outside (.inl hi)
  | imageH value => exact storeInt_outside (.inl (by omega))
  | filterHpsStart value => exact storeInt_outside (.inl (by omega))
  | imageCopyDone => exact storeBool_outside (by omega)
  | hpsFilterDone => exact storeBool_outside (by omega)

theorem load_write (mem : Nat → UInt8) (store : HpsStore) :
    load (store.write mem base) base = (load mem base).store store := by
  have hpixel (hfield : ∀ idx value, store ≠ .imageEncrypted idx value)
      (idx : Fin maxRes) : loadInt (store.write mem base) (base + 4 * idx) =
        loadInt mem (base + 4 * idx) := by
    have hbelow := pixels_below idx
    exact loadInt_congr fun i _ hi => write_field_outside hfield (by omega)
  cases store with
  | imageEncrypted idx value =>
      have hbelow := pixels_below idx
      simp (disch := omega) only [HpsStore.write, load, SharedData.store,
        loadInt_storeInt_of_disjoint, loadBool_storeInt_of_disjoint,
        SharedData.mk.injEq, and_true]
      funext idx'
      rcases eq_or_ne idx' idx with rfl | hne
      · simp
      · have hval : idx'.val ≠ idx.val := fun heq => hne (Fin.ext heq)
        rw [Function.update_of_ne hne, loadInt_storeInt_of_disjoint (by omega)]
  | imageCopyDone =>
      simp only [load, hpixel (by simp)]
      simp (disch := omega) only [HpsStore.write, SharedData.store,
        loadInt_storeBool_of_disjoint, loadBool_storeBool,
        loadBool_storeBool_of_ne]
  | hpsFilterDone =>
      simp only [load, hpixel (by simp)]
      simp (disch := omega) only [HpsStore.write, SharedData.store,
        loadInt_storeBool_of_disjoint, loadBool_storeBool,
        loadBool_storeBool_of_ne]
  | imageW value | imageH value | filterHpsStart value =>
      simp only [load, hpixel (by simp)]
      simp (disch := omega) [HpsStore.write, SharedData.store,
        loadInt_storeInt_of_disjoint, loadBool_storeInt_of_disjoint]

theorem misplaced_self (store : HpsStore) :
    shared.misplaced base base store = shared.store store := by
  rw [misplaced, load_write, load_placed]

theorem write_outside {mem : Nat → UInt8} {mapped i : Nat} (store : HpsStore)
    (hi : mapped + imageWOffset + 26 ≤ i) : store.write mem mapped i = mem i := by
  cases store with
  | imageEncrypted idx value =>
      have hbelow := pixels_below idx
      exact storeInt_outside (by omega)
  | imageW value => exact storeInt_outside (by omega)
  | imageH value => exact storeInt_outside (by omega)
  | filterHpsStart value => exact storeInt_outside (by omega)
  | imageCopyDone => exact storeBool_outside (by omega)
  | hpsFilterDone => exact storeBool_outside (by omega)

/-- A base that is a page too low leaves all fields but the pixels alone. -/
theorem misplaced_of_below {mapped : Nat} (store : HpsStore)
    (hbelow : mapped + 0x1000 ≤ base) :
    ∃ pixels, shared.misplaced base mapped store =
      { shared with imageEncrypted := pixels } := by
  have hint (k : Nat) :
      loadInt (store.write (shared.placed base) mapped) (base + imageWOffset + k) =
        loadInt (shared.placed base) (base + imageWOffset + k) :=
    loadInt_congr fun i hi _ => write_outside store (by omega)
  have hbool (k : Nat) :
      loadBool (store.write (shared.placed base) mapped) (base + imageWOffset + k) =
        loadBool (shared.placed base) (base + imageWOffset + k) := by
    rw [loadBool, write_outside store (by omega), loadBool]
  have hfirst : loadInt (store.write (shared.placed base) mapped)
      (base + imageWOffset) =
        loadInt (shared.placed base) (base + imageWOffset) := hint 0
  have hfields : shared.misplaced base mapped store =
      { load (shared.placed base) base with
        imageEncrypted := (shared.misplaced base mapped store).imageEncrypted } := by
    simp only [misplaced, load, hint, hbool, hfirst]
  rw [load_placed] at hfields
  exact ⟨_, hfields⟩

end Layout

end SharedData

end NiosHps.Board
