import NiosHps.Simulator.Threads

/-!
# `int` arithmetic in the simulated protocol

The ticks and the decryption loop once more, with the progress messages and with
every `int` expression checked: a value outside the 32-bit range, which the
language leaves undefined, gives no result.  `Simulator.Process` computes the
same values without the checks.

The counts, their differences and the products of the image size all fit.  The
percentages of the progress messages are what limits a share.
-/

namespace NiosHps.Simulator

open NiosHps.Foundation

def IntRange (value : Int) : Prop := -2 ^ 31 ≤ value ∧ value ≤ 2 ^ 31 - 1

instance (value : Int) : Decidable (IntRange value) :=
  inferInstanceAs (Decidable (_ ∧ _))

def checkInt (value : Int) : Option Int :=
  if IntRange value then some value else none

theorem checkInt_eq {value : Int} (hlow : 0 ≤ value) (hhigh : value < 2 ^ 31) :
    checkInt value = some value :=
  if_pos ⟨by omega, by omega⟩

theorem checkInt_none {value : Int} (hhigh : 2 ^ 31 ≤ value) :
    checkInt value = none :=
  if_neg fun hrange => absurd hrange.2 (by omega)

/-! ## The checked ticks -/

def softCheckedWait (header : SharedHeader) (softFilterPxCount unfiltered : Int) :
    Option Bool := do
  let rows ← checkInt (2 * header.imageW)
  if unfiltered > rows then some true
  else
    let share ← checkInt (header.filterHpsStart - softFilterPxCount)
    some (unfiltered = share)

def softCheckedNumPixels (header : SharedHeader) (softFilterPxCount : Int) :
    Option Int := do
  let unfiltered ← checkInt (header.decryptPxCount - softFilterPxCount)
  let reached ← checkInt (softFilterPxCount + unfiltered)
  let unfiltered ←
    if reached > header.filterHpsStart then
      checkInt (header.filterHpsStart - softFilterPxCount)
    else some unfiltered
  let filters ← softCheckedWait header softFilterPxCount unfiltered
  some (if filters then unfiltered else 0)

def checkedPercentage (count divisor : Int) : Option Int := do
  let scaled ← checkInt (100 * count)
  checkInt (scaled.tdiv divisor)

def timerIsrSoftCoreChecked (p : Process) : Option Tick := do
  let numPixelsToFilter ← softCheckedNumPixels p.header p.softFilterPxCount
  let softFilterPxCount ← checkInt (p.softFilterPxCount + numPixelsToFilter)
  let _ ← checkedPercentage softFilterPxCount p.header.filterHpsStart
  some
    { call := some ⟨p.softFilterPxCount, numPixelsToFilter⟩
      after :=
        { p with
          header := softFinish p.header softFilterPxCount
          softFilterPxCount := softFilterPxCount } }

def hardCheckedNumPixels (header : SharedHeader) (hardFilterPxCount : Int) :
    Option Int := do
  let pastSplit ← checkInt (header.decryptPxCount - header.filterHpsStart)
  let unfiltered ← checkInt (pastSplit - hardFilterPxCount)
  let unfiltered := if unfiltered < 0 then 0 else unfiltered
  let rows ← checkInt (2 * header.imageW)
  some (if unfiltered > rows ∨ header.decryptDone then unfiltered else 0)

def procesoPeriodicoHardCoreChecked (p : Process) : Option Tick := do
  if p.header.decryptPxCount < p.header.filterHpsStart then
    some { call := none, after := p }
  else
    let numPixelsToFilter ← hardCheckedNumPixels p.header p.hardFilterPxCount
    let startIdx ← checkInt (p.header.filterHpsStart + p.hardFilterPxCount)
    let hardFilterPxCount ← checkInt (p.hardFilterPxCount + numPixelsToFilter)
    let area ← checkInt (p.header.imageW * p.header.imageH)
    let share ← checkInt (area - p.header.filterHpsStart)
    let _ ← checkedPercentage hardFilterPxCount share
    let _ ← checkInt (p.header.filterHpsStart + hardFilterPxCount)
    some
      { call := some ⟨startIdx, numPixelsToFilter⟩
        after :=
          { p with
            header := hardFinish p.header hardFilterPxCount
            hardFilterPxCount := hardFilterPxCount } }

def mainLoopSoftCoreChecked (header : SharedHeader) :
    Option (Option SharedHeader) := do
  let area ← checkInt (header.imageW * header.imageH)
  if header.decryptPxCount ≠ area then
    let decryptPxCount ← checkInt (header.decryptPxCount + 1)
    some (some { header with decryptPxCount := decryptPxCount })
  else if header.decryptDone then some none
  else some (some { header with decryptDone := true })

namespace Process

/-- `none` where an expression overflows, `some none` where the event is off. -/
def checkedTick (p : Process) : Event → Option (Option Tick)
  | .mainLoop =>
      (mainLoopSoftCoreChecked p.header).map fun header =>
        header.map fun header =>
          { call := none, after := { p with header := header } }
  | .softTick =>
      if p.header.niosFilterDone then some none
      else (timerIsrSoftCoreChecked p).map some
  | .hardTick =>
      if hardStarted p.header ∧ ¬p.header.hpsFilterDone then
        (procesoPeriodicoHardCoreChecked p).map some
      else some none

end Process

/-! ## What can overflow -/

/-- The largest count whose percentage still fits: `(2 ^ 31 - 1) / 100`. -/
def maxPercentageCount : Nat := 21474836

theorem checkedPercentage_isSome {count divisor : Int} (hcount : 0 ≤ count)
    (hdivisor : 0 < divisor) (hlimit : count ≤ maxPercentageCount) :
    (checkedPercentage count divisor).isSome := by
  unfold maxPercentageCount at hlimit
  have hquotient := Int.tdiv_nonneg (a := 100 * count) (by omega) hdivisor.le
  have hle := Int.tdiv_le_self (a := 100 * count) divisor (by omega)
  have hscaled : checkInt (100 * count) = some (100 * count) :=
    checkInt_eq (by omega) (by omega)
  simp only [checkedPercentage, hscaled, Option.bind_eq_bind, Option.bind_some,
    checkInt_eq hquotient (by omega), Option.isSome_some]

theorem checkedPercentage_none {count : Int} (divisor : Int)
    (hlimit : maxPercentageCount < count) :
    checkedPercentage count divisor = none := by
  unfold maxPercentageCount at hlimit
  have hscaled : checkInt (100 * count) = none := checkInt_none (by omega)
  simp only [checkedPercentage, hscaled, Option.bind_eq_bind, Option.bind_none]

section Checked

variable {load : Load} {p : Process}

theorem softCheckedWait_eq {header : SharedHeader} {count unfiltered : Int}
    (hrows : 0 ≤ 2 * header.imageW) (hfits : 2 * header.imageW < 2 ^ 31)
    (hshare : 0 ≤ header.filterHpsStart - count)
    (hsplit : header.filterHpsStart - count < 2 ^ 31) :
    softCheckedWait header count unfiltered =
      some (decide (unfiltered > 2 * header.imageW ∨
        unfiltered = header.filterHpsStart - count)) := by
  simp only [softCheckedWait, checkInt_eq hrows hfits, checkInt_eq hshare hsplit,
    Option.bind_eq_bind, Option.bind_some]
  split_ifs with hwait <;> simp [hwait]

theorem Consistent.width_le (h : Consistent load p) :
    0 ≤ p.header.imageW ∧ p.header.imageW ≤ load.total := by
  have hle : load.w ≤ load.total := Nat.le_mul_of_pos_right _ load.h_pos
  rw [h.imageW]
  omega

theorem Consistent.softCheckedNumPixels (h : Consistent load p)
    (hsize : load.total ≤ decryptedSectorSize) :
    softCheckedNumPixels p.header p.softFilterPxCount =
      some (softNumPixelsToFilter p.header p.softFilterPxCount) := by
  have hsoft := h.soft_nonneg
  have hdecrypt := h.soft_le_decrypt
  have hsplit := h.soft_le_split
  have htotal := h.decrypt_le_total
  have hleSplit : load.split ≤ load.total := load.split_le
  have hwidth := h.width_le
  have hstart := h.filterHpsStart
  unfold decryptedSectorSize at hsize
  have hunfiltered : checkInt (p.header.decryptPxCount - p.softFilterPxCount) =
      some (p.header.decryptPxCount - p.softFilterPxCount) :=
    checkInt_eq (by omega) (by omega)
  have hreached : checkInt p.header.decryptPxCount =
      some p.header.decryptPxCount := checkInt_eq (by omega) (by omega)
  have hshare : checkInt (p.header.filterHpsStart - p.softFilterPxCount) =
      some (p.header.filterHpsStart - p.softFilterPxCount) :=
    checkInt_eq (by omega) (by omega)
  have hwait : ∀ unfiltered, softCheckedWait p.header p.softFilterPxCount
      unfiltered = some (decide (unfiltered > 2 * p.header.imageW ∨
        unfiltered = p.header.filterHpsStart - p.softFilterPxCount)) :=
    fun _ => softCheckedWait_eq (by omega) (by omega) (by omega) (by omega)
  simp only [Simulator.softCheckedNumPixels, softNumPixelsToFilter,
    Option.bind_eq_bind, hunfiltered, Option.bind_some, add_sub_cancel, hreached,
    hshare, hwait, decide_eq_true_eq]
  by_cases hover : p.header.decryptPxCount > p.header.filterHpsStart
  · simp only [if_pos hover]
  · simp only [if_neg hover]

theorem Consistent.timerIsrSoftCoreChecked (h : Consistent load p)
    (hsize : load.total ≤ decryptedSectorSize) :
    timerIsrSoftCoreChecked p =
      (checkedPercentage (timerIsrSoftCore p).after.softFilterPxCount
        load.split).map fun _ => timerIsrSoftCore p := by
  have hnonneg := softNumPixelsToFilter_nonneg h
  have hbatch := soft_batch_le h
  have hsoft := h.soft_nonneg
  have htotal := h.decrypt_le_total
  have hcount : checkInt (p.softFilterPxCount +
        softNumPixelsToFilter p.header p.softFilterPxCount) =
      some (p.softFilterPxCount +
        softNumPixelsToFilter p.header p.softFilterPxCount) := by
    unfold decryptedSectorSize at hsize
    exact checkInt_eq (by omega) (by omega)
  simp only [Simulator.timerIsrSoftCoreChecked, h.softCheckedNumPixels hsize,
    Option.bind_eq_bind, Option.bind_some, hcount, h.filterHpsStart,
    timerIsrSoftCore, Option.map_eq_bind]
  rfl

theorem Consistent.hardCheckedNumPixels (h : Consistent load p)
    (hsize : load.total ≤ decryptedSectorSize)
    (hreached : p.header.filterHpsStart ≤ p.header.decryptPxCount) :
    hardCheckedNumPixels p.header p.hardFilterPxCount =
      some (hardNumPixelsToFilter p.header
        (hardUnfiltered p.header p.hardFilterPxCount)) := by
  have hhard := h.hard_nonneg
  have hdecrypt := h.hard_le_decrypt
  have htotal := h.decrypt_le_total
  have hwidth := h.width_le
  have hstart := h.filterHpsStart
  unfold decryptedSectorSize at hsize
  have hpastSplit : checkInt (p.header.decryptPxCount -
      p.header.filterHpsStart) =
      some (p.header.decryptPxCount - p.header.filterHpsStart) :=
    checkInt_eq (by omega) (by omega)
  have hunfiltered : checkInt (p.header.decryptPxCount -
      p.header.filterHpsStart - p.hardFilterPxCount) =
      some (p.header.decryptPxCount - p.header.filterHpsStart -
        p.hardFilterPxCount) :=
    checkInt_eq (by omega) (by omega)
  have hrows : checkInt (2 * p.header.imageW) = some (2 * p.header.imageW) :=
    checkInt_eq (by omega) (by omega)
  simp only [Simulator.hardCheckedNumPixels, Option.bind_eq_bind, hpastSplit,
    Option.bind_some, hunfiltered, hrows, hardNumPixelsToFilter, hardUnfiltered]
  rfl

theorem Consistent.procesoPeriodicoHardCoreChecked (h : Consistent load p)
    (hsize : load.total ≤ decryptedSectorSize)
    (hreached : p.header.filterHpsStart ≤ p.header.decryptPxCount) :
    procesoPeriodicoHardCoreChecked p =
      (checkedPercentage (procesoPeriodicoHardCore p).after.hardFilterPxCount
        (load.total - load.split)).map fun _ => procesoPeriodicoHardCore p := by
  have hnum := hardNumPixelsToFilter_cases p.header
    (hardUnfiltered p.header p.hardFilterPxCount)
  have hnonneg := hardNumPixelsToFilter_nonneg p.header p.hardFilterPxCount
  have hunfiltered := hardUnfiltered_eq h hreached
  have hhard := h.hard_nonneg
  have hdecrypt := h.hard_le_decrypt
  have htotal := h.decrypt_le_total
  have hleSplit : load.split ≤ load.total := load.split_le
  have hchecked := h.hardCheckedNumPixels hsize hreached
  have hbefore := not_lt.mpr hreached
  have hsplit := h.filterHpsStart
  unfold decryptedSectorSize at hsize
  have hstart : checkInt (p.header.filterHpsStart + p.hardFilterPxCount) =
      some (p.header.filterHpsStart + p.hardFilterPxCount) :=
    checkInt_eq (by omega) (by omega)
  have harea : checkInt (p.header.imageW * p.header.imageH) =
      some (load.total : Int) := by
    rw [h.area]
    exact checkInt_eq (by omega) (by omega)
  have hshare : checkInt ((load.total : Int) - p.header.filterHpsStart) =
      some ((load.total : Int) - load.split) := by
    rw [hsplit]
    exact checkInt_eq (by omega) (by omega)
  have hcount : checkInt (p.hardFilterPxCount +
        hardNumPixelsToFilter p.header
          (hardUnfiltered p.header p.hardFilterPxCount)) =
      some (p.hardFilterPxCount +
        hardNumPixelsToFilter p.header
          (hardUnfiltered p.header p.hardFilterPxCount)) :=
    checkInt_eq (by omega) (by omega)
  have hend : checkInt (p.header.filterHpsStart + (p.hardFilterPxCount +
        hardNumPixelsToFilter p.header
          (hardUnfiltered p.header p.hardFilterPxCount))) =
      some (p.header.filterHpsStart + (p.hardFilterPxCount +
        hardNumPixelsToFilter p.header
          (hardUnfiltered p.header p.hardFilterPxCount))) :=
    checkInt_eq (by omega) (by omega)
  simp only [Simulator.procesoPeriodicoHardCoreChecked, if_neg hbefore, hchecked,
    Option.bind_eq_bind, Option.bind_some, hstart, harea, hshare, hcount, hend,
    procesoPeriodicoHardCore, Option.map_eq_bind]
  rfl

theorem Consistent.mainLoopSoftCoreChecked (h : Consistent load p)
    (hsize : load.total ≤ decryptedSectorSize) :
    mainLoopSoftCoreChecked p.header = some (mainLoopSoftCore p.header) := by
  have hsoft := h.soft_nonneg
  have hdecrypt := h.soft_le_decrypt
  have htotal := h.decrypt_le_total
  unfold decryptedSectorSize at hsize
  have harea : checkInt (p.header.imageW * p.header.imageH) =
      some (p.header.imageW * p.header.imageH) := by
    rw [h.area]
    exact checkInt_eq (by omega) (by omega)
  have hnext : checkInt (p.header.decryptPxCount + 1) =
      some (p.header.decryptPxCount + 1) := checkInt_eq (by omega) (by omega)
  simp only [Simulator.mainLoopSoftCoreChecked, Option.bind_eq_bind, harea,
    Option.bind_some, hnext, mainLoopSoftCore]
  split_ifs <;> rfl

theorem Consistent.checkedTick (h : Consistent load p)
    (hsize : load.total ≤ decryptedSectorSize) (e : Event) :
    p.checkedTick e = none ∨ p.checkedTick e = some (p.tick e) := by
  cases e with
  | mainLoop =>
      right
      rw [Process.checkedTick, h.mainLoopSoftCoreChecked hsize]
      rfl
  | softTick =>
      rw [Process.checkedTick, h.timerIsrSoftCoreChecked hsize, Process.tick]
      split_ifs
      · exact .inr rfl
      · cases checkedPercentage (timerIsrSoftCore p).after.softFilterPxCount
          load.split <;> simp
  | hardTick =>
      rw [Process.checkedTick, Process.tick]
      split_ifs
      · by_cases hreached : p.header.decryptPxCount < p.header.filterHpsStart
        · right
          simp [Simulator.procesoPeriodicoHardCoreChecked,
            procesoPeriodicoHardCore, hreached]
        · rw [h.procesoPeriodicoHardCoreChecked hsize (not_lt.mp hreached)]
          cases checkedPercentage
            (procesoPeriodicoHardCore p).after.hardFilterPxCount
            (load.total - load.split) <;> simp
      · exact .inr rfl

/-! ## The shares whose percentages fit -/

theorem Consistent.softTick_fits (h : Consistent load p)
    (hsize : load.total ≤ decryptedSectorSize) (hsplit : 0 < load.split)
    (hlimit : load.split ≤ maxPercentageCount) :
    (p.checkedTick .softTick).isSome := by
  cases hflag : p.header.niosFilterDone with
  | true => simp [Process.checkedTick, hflag]
  | false =>
      have hafter := h.softTick hflag
      have hle := hafter.soft_le_split
      have hpercentage := checkedPercentage_isSome hafter.soft_nonneg
        (Int.natCast_pos.mpr hsplit) (by omega)
      simp only [Process.checkedTick, hflag, Bool.false_eq_true, if_false,
        Option.isSome_map, h.timerIsrSoftCoreChecked hsize, hpercentage]

theorem Consistent.hardTick_fits (h : Consistent load p)
    (hsize : load.total ≤ decryptedSectorSize)
    (hlimit : load.total - load.split ≤ maxPercentageCount) :
    (p.checkedTick .hardTick).isSome := by
  by_cases hon : hardStarted p.header ∧ ¬p.header.hpsFilterDone
  · simp only [Process.checkedTick, if_pos hon, Option.isSome_map]
    by_cases hreached : p.header.decryptPxCount < p.header.filterHpsStart
    · simp [Simulator.procesoPeriodicoHardCoreChecked, hreached]
    · obtain ⟨hstarted, hflag⟩ := hon
      have hafter := h.hardTick (Bool.eq_false_iff.mpr hflag)
      have hback := hafter.hard_le_decrypt
      have htotal := hafter.decrypt_le_total
      have hshare : (load.split : Int) < load.total := by
        simpa [hardStarted, h.filterHpsStart, h.area] using hstarted
      have hpercentage := checkedPercentage_isSome hafter.hard_nonneg
        (by omega : 0 < (load.total : Int) - load.split) (by omega)
      rw [h.procesoPeriodicoHardCoreChecked hsize (not_lt.mp hreached),
        Option.isSome_map, hpercentage]
  · simp only [Process.checkedTick, if_neg hon, Option.isSome_some]

end Checked

section Overflow

variable {load : Load}

theorem softTick_overflows (hsize : load.total ≤ decryptedSectorSize)
    (hlimit : maxPercentageCount < load.split) :
    (load.decrypted load.total false).checkedTick .softTick = none := by
  have h := consistent_reachable (reachable_decrypted load le_rfl)
  have hflag : (load.decrypted load.total false).header.niosFilterDone =
      false := by
    simp [Load.decrypted, Load.start, startHard_eq, Load.loaded, Load.header]
  have hcount := (h.softTick hflag).niosFilterDone
    (softTick_finishes h (Int.ofNat_le.mpr load.split_le))
  have hpercentage := checkedPercentage_none load.split
    (Int.ofNat_lt.mpr hlimit)
  simp only [Process.checkedTick, hflag, Bool.false_eq_true, if_false,
    h.timerIsrSoftCoreChecked hsize, hcount, hpercentage, Option.map_none]

theorem hardTick_overflows (hsize : load.total ≤ decryptedSectorSize)
    (hlimit : maxPercentageCount < load.total - load.split) :
    (load.decrypted load.total true).checkedTick .hardTick = none := by
  have hle : load.split ≤ load.total := load.split_le
  have h := consistent_reachable (reachable_decryptDone load)
  have hreached : (load.decrypted load.total true).header.filterHpsStart ≤
      (load.decrypted load.total true).header.decryptPxCount := by
    rw [h.filterHpsStart]
    exact Int.ofNat_le.mpr hle
  have hstarted : hardStarted (load.decrypted load.total true).header =
      true := by
    simp only [hardStarted, h.filterHpsStart, h.area]
    exact decide_eq_true (by omega)
  have hflag : (load.decrypted load.total true).header.hpsFilterDone =
      false := by
    have hloaded := consistent_loaded load
    have hpreset : hardStarted load.loaded.header = true := by
      simp only [hardStarted, hloaded.filterHpsStart, hloaded.area]
      exact decide_eq_true (by omega)
    change (startHard load.loaded.header).hpsFilterDone = false
    simp only [startHard, hpreset, if_true]
    rfl
  have hcount := (h.hardTick hflag).hpsFilterDone (hardTick_finishes h rfl)
  have hpercentage : checkedPercentage ((load.total : Int) - load.split)
      ((load.total : Int) - load.split) = none :=
    checkedPercentage_none _ (by omega)
  have hon : hardStarted (load.decrypted load.total true).header ∧
      ¬(load.decrypted load.total true).header.hpsFilterDone :=
    ⟨hstarted, by rw [hflag]; decide⟩
  simp only [Process.checkedTick, if_pos hon,
    h.procesoPeriodicoHardCoreChecked hsize hreached,
    show (procesoPeriodicoHardCore
      (load.decrypted load.total true)).after.hardFilterPxCount =
        (load.total : Int) - load.split by omega,
    hpercentage, Option.map_none]

end Overflow

/--
In every run no `int` expression overflows if and only if neither share has more
than `maxPercentageCount` pixels.
-/
theorem int_expressions_fit_iff (load : Load) (hsplit : 0 < load.split)
    (hsize : load.total ≤ decryptedSectorSize) :
    (∀ p, (protocol load).Reachable p → ∀ e, (p.checkedTick e).isSome) ↔
      load.split ≤ maxPercentageCount ∧
        load.total - load.split ≤ maxPercentageCount := by
  constructor
  · intro hfits
    constructor
    · by_contra hlimit
      have hsome := hfits _ (reachable_decrypted load le_rfl) .softTick
      rw [softTick_overflows hsize (not_le.mp hlimit)] at hsome
      contradiction
    · by_contra hlimit
      have hsome := hfits _ (reachable_decryptDone load) .hardTick
      rw [hardTick_overflows hsize (not_le.mp hlimit)] at hsome
      contradiction
  · rintro ⟨hsoft, hhard⟩ p hp e
    have h := consistent_reachable hp
    cases e with
    | mainLoop =>
        simp [Process.checkedTick, h.mainLoopSoftCoreChecked hsize]
    | softTick => exact h.softTick_fits hsize hsplit hsoft
    | hardTick => exact h.hardTick_fits hsize hhard

theorem int_expressions_fit_square :
    (Process.checkedTick
      ⟨⟨2, 2, true, 3, false, 3, false, false⟩, 0, 0⟩ .softTick).isSome := by
  exact (int_expressions_fit_iff _ (by decide) (by decide)).mpr
    ⟨by decide, by decide⟩ _ reachable_square .softTick

theorem percentage_overflows :
    ¬∀ load : Load, 0 < load.split → load.total ≤ decryptedSectorSize →
      ∀ p, (protocol load).Reachable p → ∀ e, (p.checkedTick e).isSome := by
  intro hfits
  let load : Load := ⟨21474837, 1, 21474837, by decide, by decide, by decide⟩
  have hsize : load.total ≤ decryptedSectorSize := by decide
  have hsome := hfits load (by decide) hsize _
    (reachable_decrypted load le_rfl) .softTick
  rw [softTick_overflows hsize (by decide)] at hsome
  contradiction

end NiosHps.Simulator
