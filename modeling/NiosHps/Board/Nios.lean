import NiosHps.Board.ModExp
import NiosHps.Foundation.System
import Mathlib.Logic.Function.Basic

/-!
# The Nios program (`soft_core_cpu/software/Proyecto1/main.c`)

The shared structure, the static variables and the interrupt routines that
decrypt, with the integer types of the source.  A routine reads the switches at
most once, so an interrupt carries the one reading of its switches and, for the
buttons, of the edge-capture register.

Writing past `image_encrypted` is undefined in the source: there `decryptPx`,
and with it the interrupt, has no next state.  The filtered image and the text
message, which these routines never touch, are left out.
-/

namespace NiosHps.Board

open NiosHps.Foundation

def maxRes : Nat := 4096 * 2160

structure SharedData where
  imageEncrypted : Fin maxRes → UInt32
  imageW : UInt32
  imageH : UInt32
  imageCopyDone : Bool
  decryptPxCount : Int32
  decryptDone : Bool
  filterHpsStart : Int32
  niosFilterDone : Bool
  hpsFilterDone : Bool

structure Nios where
  shared : SharedData
  d : Int32
  n : Int32
  width : Int32
  height : Int32
  current7Seg : UInt32
  decryptPxCount : UInt32
  filterPxCount : UInt32
  hasStarted : UInt32
  pio7Seg : BitVec 24
  timer1Started : Bool

def startMask : UInt32 := 0x1
def stepMask : UInt32 := 0x2
def shiftMask : UInt32 := 0x4
def upMask : UInt32 := 0x8
def actionBtnMask : UInt32 := 0x1 ||| 0x2 ||| 0x4 ||| 0x8

def manualMode : UInt32 := 0
def automaticMode : UInt32 := 1

def last7Seg : UInt32 := 0x5

def getMode (pioSw : UInt32) : UInt32 := (pioSw &&& 0x2) >>> 1

def increaseDigit (number position : Int32) : Int32 :=
  let digit := (number >>> (position * 4)) &&& 0xF
  let newDigit := digit + 2
  let clearMask := ~~~((0xF : Int32) <<< (position * 4))
  (number &&& clearMask) ||| ((newDigit &&& 0xF) <<< (position * 4))

namespace Nios

variable (s : Nios)

def show7Seg (value : UInt32) : Nios :=
  { s with pio7Seg := value.toBitVec.setWidth 24 }

def start : Nios :=
  { s with hasStarted := 1, timer1Started := true }.show7Seg 0

def isImageCopyDone : Bool := s.shared.imageCopyDone

/-- The stop bound of the timer: an `int` product, compared as `unsigned`. -/
def area : UInt32 := (s.width * s.height).toUInt32

def decryptPx : Option Nios :=
  if hbound : s.decryptPxCount.toNat < maxRes then
    let idx : Fin maxRes := ⟨s.decryptPxCount.toNat, hbound⟩
    let currentPixel :=
      modExp (s.shared.imageEncrypted idx) s.d.toUInt32 s.n.toUInt32
    let shared :=
      { s.shared with
        imageEncrypted :=
          Function.update s.shared.imageEncrypted idx currentPixel }
    some
      { s.show7Seg currentPixel with
        shared := shared
        decryptPxCount := s.decryptPxCount + 1 }
  else none

def decryptWh : Nios :=
  { s with
    height := (modExp s.shared.imageH s.d.toUInt32 s.n.toUInt32).toInt32
    width := (modExp s.shared.imageW s.d.toUInt32 s.n.toUInt32).toInt32 }

def timer1_100usIsr (pioSw : UInt32) : Option Nios :=
  if s.decryptPxCount ≠ s.area ∧ s.isImageCopyDone then
    if getMode pioSw = automaticMode then s.decryptPx else some s
  else some s

def keySelected (pioSw : UInt32) : Prop := pioSw &&& 0x1 ≠ 0

instance (pioSw : UInt32) : Decidable (keySelected pioSw) :=
  inferInstanceAs (Decidable (_ ≠ _))

def swIsr (pioSw : UInt32) : Nios :=
  if keySelected pioSw then s.show7Seg s.d.toUInt32
  else s.show7Seg s.n.toUInt32

def increase (pioSw : UInt32) : Nios :=
  if keySelected pioSw then
    let d := increaseDigit s.d s.current7Seg.toInt32
    { s with d := d }.show7Seg d.toUInt32
  else
    let n := increaseDigit s.n s.current7Seg.toInt32
    { s with n := n }.show7Seg n.toUInt32

def shift : Nios :=
  { s with
    current7Seg :=
      if s.current7Seg = last7Seg then 0 else s.current7Seg + 1 }

/-- More than one button at a time is no case of the `switch`. -/
def btnIsr (edgeCapture pioSw : UInt32) : Option Nios :=
  let action := edgeCapture &&& actionBtnMask
  if action = upMask then
    if s.hasStarted = 0 then some (s.increase pioSw) else some s
  else if action = shiftMask then
    if s.hasStarted = 0 then some s.shift else some s
  else if action = stepMask then
    if s.hasStarted = 1 ∧ s.isImageCopyDone then
      if getMode pioSw = manualMode then s.decryptPx else some s
    else some s
  else if action = startMask then some s.start
  else some s

end Nios

inductive Interrupt where
  | btn (edgeCapture pioSw : UInt32)
  | sw (pioSw : UInt32)
  | timer1 (pioSw : UInt32)
  deriving DecidableEq, Repr

namespace Nios

def isr (s : Nios) : Interrupt → Option Nios
  | .btn edgeCapture pioSw => s.btnIsr edgeCapture pioSw
  | .sw pioSw => some (s.swIsr pioSw)
  | .timer1 pioSw => s.timer1_100usIsr pioSw

/-! ## One button at a time -/

section OneButton

variable (s : Nios) {edgeCapture : UInt32} (pioSw : UInt32)

theorem isr_up (hup : edgeCapture &&& actionBtnMask = upMask) :
    s.isr (.btn edgeCapture pioSw) =
      if s.hasStarted = 0 then some (s.increase pioSw) else some s := by
  simp only [isr, btnIsr, hup, if_true]

theorem isr_shift (hshift : edgeCapture &&& actionBtnMask = shiftMask) :
    s.isr (.btn edgeCapture pioSw) =
      if s.hasStarted = 0 then some s.shift else some s := by
  have hup : shiftMask ≠ upMask := by decide
  simp only [isr, btnIsr, hshift, if_neg hup, if_true]

theorem isr_step (hstep : edgeCapture &&& actionBtnMask = stepMask) :
    s.isr (.btn edgeCapture pioSw) =
      if s.hasStarted = 1 ∧ s.isImageCopyDone ∧ getMode pioSw = manualMode then
        s.decryptPx
      else some s := by
  have hup : stepMask ≠ upMask := by decide
  have hshift : stepMask ≠ shiftMask := by decide
  simp only [isr, btnIsr, hstep, if_neg hup, if_neg hshift, if_true]
  split_ifs <;> simp_all

theorem isr_start (hstart : edgeCapture &&& actionBtnMask = startMask) :
    s.isr (.btn edgeCapture pioSw) = some s.start := by
  have hup : startMask ≠ upMask := by decide
  have hshift : startMask ≠ shiftMask := by decide
  have hstep : startMask ≠ stepMask := by decide
  simp only [isr, btnIsr, hstart, if_neg hup, if_neg hshift, if_neg hstep,
    if_true]

theorem isr_no_button (hup : edgeCapture &&& actionBtnMask ≠ upMask)
    (hshift : edgeCapture &&& actionBtnMask ≠ shiftMask)
    (hstep : edgeCapture &&& actionBtnMask ≠ stepMask)
    (hstart : edgeCapture &&& actionBtnMask ≠ startMask) :
    s.isr (.btn edgeCapture pioSw) = some s := by
  simp only [isr, btnIsr, if_neg hup, if_neg hshift, if_neg hstep,
    if_neg hstart]

end OneButton

/-! ## What an interrupt can do -/

def ManualStep (s : Nios) : Interrupt → Prop
  | .btn edgeCapture pioSw =>
      edgeCapture &&& actionBtnMask = stepMask ∧ s.hasStarted = 1 ∧
        s.isImageCopyDone ∧ getMode pioSw = manualMode
  | _ => False

def AutomaticTick (s : Nios) : Interrupt → Prop
  | .timer1 pioSw =>
      s.decryptPxCount ≠ s.area ∧ s.isImageCopyDone ∧
        getMode pioSw = automaticMode
  | _ => False

def Decrypts (s : Nios) (e : Interrupt) : Prop :=
  s.ManualStep e ∨ s.AutomaticTick e

instance (s : Nios) (e : Interrupt) : Decidable (s.ManualStep e) :=
  match e with
  | .btn _ _ => inferInstanceAs (Decidable (_ ∧ _ ∧ _ ∧ _))
  | .sw _ => inferInstanceAs (Decidable False)
  | .timer1 _ => inferInstanceAs (Decidable False)

instance (s : Nios) (e : Interrupt) : Decidable (s.AutomaticTick e) :=
  match e with
  | .btn _ _ => inferInstanceAs (Decidable False)
  | .sw _ => inferInstanceAs (Decidable False)
  | .timer1 _ => inferInstanceAs (Decidable (_ ∧ _ ∧ _))

instance (s : Nios) (e : Interrupt) : Decidable (s.Decrypts e) :=
  inferInstanceAs (Decidable (_ ∨ _))

/-- An interrupt that decrypts nothing; after the start it leaves the key too. -/
structure Settles (s s' : Nios) : Prop where
  shared : s'.shared = s.shared
  decryptPxCount : s'.decryptPxCount = s.decryptPxCount
  width : s'.width = s.width
  height : s'.height = s.height
  key : s.hasStarted = 1 → s'.hasStarted = 1 ∧ s'.d = s.d ∧ s'.n = s.n

theorem Settles.refl (s : Nios) : Settles s s :=
  ⟨rfl, rfl, rfl, rfl, fun hstarted => ⟨hstarted, rfl, rfl⟩⟩

theorem settles_swIsr (s : Nios) (pioSw : UInt32) :
    Settles s (s.swIsr pioSw) := by
  unfold swIsr
  split_ifs <;> exact ⟨rfl, rfl, rfl, rfl, fun hstarted => ⟨hstarted, rfl, rfl⟩⟩

theorem settles_start (s : Nios) : Settles s s.start :=
  ⟨rfl, rfl, rfl, rfl, fun _ => ⟨rfl, rfl, rfl⟩⟩

theorem settles_shift (s : Nios) : Settles s s.shift :=
  ⟨rfl, rfl, rfl, rfl, fun hstarted => ⟨hstarted, rfl, rfl⟩⟩

theorem hasStarted_ne_zero {s : Nios} (hstarted : s.hasStarted = 1) :
    s.hasStarted ≠ 0 := by
  rw [hstarted]
  decide

theorem settles_increase {s : Nios} (hstopped : s.hasStarted = 0)
    (pioSw : UInt32) : Settles s (s.increase pioSw) := by
  have hkey : s.hasStarted ≠ 1 := fun hstarted =>
    hasStarted_ne_zero hstarted hstopped
  unfold increase
  split_ifs <;> exact ⟨rfl, rfl, rfl, rfl, fun hstarted => absurd hstarted hkey⟩

theorem isr_of_decrypts {s : Nios} {e : Interrupt} (h : s.Decrypts e) :
    s.isr e = s.decryptPx := by
  cases e with
  | btn edgeCapture pioSw =>
      rcases h with ⟨hstep, hready⟩ | hauto
      · rw [isr_step s pioSw hstep, if_pos hready]
      · exact hauto.elim
  | sw pioSw => exact h.elim False.elim False.elim
  | timer1 pioSw =>
      rcases h with hmanual | ⟨hrest, hcopied, hmode⟩
      · exact hmanual.elim
      · simp [isr, timer1_100usIsr, hrest, hcopied, hmode]

theorem isr_of_not_decrypts {s : Nios} {e : Interrupt} (h : ¬s.Decrypts e) :
    ∃ s', s.isr e = some s' ∧ Settles s s' := by
  cases e with
  | btn edgeCapture pioSw =>
      simp only [isr, btnIsr]
      split_ifs with hup hstopped hshift hstopped hstep hready hmode hstart
      · exact ⟨_, rfl, settles_increase hstopped pioSw⟩
      · exact ⟨_, rfl, .refl s⟩
      · exact ⟨_, rfl, settles_shift s⟩
      · exact ⟨_, rfl, .refl s⟩
      · exact absurd (.inl ⟨hstep, hready.1, hready.2, hmode⟩) h
      · exact ⟨_, rfl, .refl s⟩
      · exact ⟨_, rfl, .refl s⟩
      · exact ⟨_, rfl, settles_start s⟩
      · exact ⟨_, rfl, .refl s⟩
  | sw pioSw => exact ⟨_, rfl, settles_swIsr s pioSw⟩
  | timer1 pioSw =>
      simp only [isr, timer1_100usIsr]
      split_ifs with hready hmode
      · exact absurd (.inr ⟨hready.1, hready.2, hmode⟩) h
      · exact ⟨_, rfl, .refl s⟩
      · exact ⟨_, rfl, .refl s⟩

structure DecryptsOne (s s' : Nios) : Prop where
  bound : s.decryptPxCount.toNat < maxRes
  imageEncrypted : s'.shared.imageEncrypted =
    Function.update s.shared.imageEncrypted ⟨s.decryptPxCount.toNat, bound⟩
      (modExp (s.shared.imageEncrypted ⟨s.decryptPxCount.toNat, bound⟩)
        s.d.toUInt32 s.n.toUInt32)
  sharedRest :
    s'.shared = { s.shared with imageEncrypted := s'.shared.imageEncrypted }
  decryptPxCount : s'.decryptPxCount.toNat = s.decryptPxCount.toNat + 1
  width : s'.width = s.width
  height : s'.height = s.height
  hasStarted : s'.hasStarted = s.hasStarted
  d : s'.d = s.d
  n : s'.n = s.n

theorem decryptPx_of_lt {s : Nios} (hbound : s.decryptPxCount.toNat < maxRes) :
    ∃ s', s.decryptPx = some s' ∧ DecryptsOne s s' := by
  refine ⟨_, dif_pos hbound, ⟨hbound, rfl, rfl, ?_, rfl, rfl, rfl, rfl, rfl⟩⟩
  have hword : s.decryptPxCount.toNat + 1 < 2 ^ 32 :=
    lt_trans (Nat.succ_lt_succ hbound) (by decide)
  exact (UInt32.toNat_add _ _).trans (Nat.mod_eq_of_lt hword)

theorem decryptPx_of_ge {s : Nios} (hbound : maxRes ≤ s.decryptPxCount.toNat) :
    s.decryptPx = none :=
  dif_neg (Nat.not_lt.mpr hbound)

theorem decryptPx_eq_some {s s' : Nios} (h : s.decryptPx = some s') :
    DecryptsOne s s' := by
  by_cases hbound : s.decryptPxCount.toNat < maxRes
  · obtain ⟨t, hstep, hone⟩ := decryptPx_of_lt hbound
    rw [h] at hstep
    cases hstep
    exact hone
  · rw [decryptPx_of_ge (Nat.not_lt.mp hbound)] at h
    cases h

theorem decryptPx_current7Seg {s s' : Nios} (h : s.decryptPx = some s') :
    s'.current7Seg = s.current7Seg := by
  unfold decryptPx at h
  split_ifs at h
  cases h
  rfl

theorem isr_cases {s s' : Nios} {e : Interrupt} (h : s.isr e = some s') :
    (s.Decrypts e ∧ DecryptsOne s s') ∨ (¬s.Decrypts e ∧ Settles s s') := by
  by_cases hdecrypts : s.Decrypts e
  · rw [isr_of_decrypts hdecrypts] at h
    exact .inl ⟨hdecrypts, decryptPx_eq_some h⟩
  · obtain ⟨t, hstep, hsettles⟩ := isr_of_not_decrypts hdecrypts
    rw [h] at hstep
    cases hstep
    exact .inr ⟨hdecrypts, hsettles⟩

end Nios

end NiosHps.Board
