import NiosHps.Simulator.Memory

/-!
# The split point

`filter_hps_start` is the number of pixels times the share of the soft core, in
single precision.  A share of at most one never goes past a number of pixels
that single precision can hold.  A number it cannot hold is changed before the
share is looked at, and may be rounded up past the last pixel, where the soft
core never gets.
-/

namespace NiosHps.Simulator

open NiosHps.Foundation
open NiosHps.Filter

/-! ## Shares -/

/-- The arguments `parse_args` returns: the default ones, or those of one `-c`. -/
def Arguments.Parsed (arguments : Arguments) : Prop :=
  arguments = defaultArguments ∨
    ∃ percent, Representable floatPrecision percent ∧
      parseOpt percent = some arguments

theorem floatPrecision_pos : 0 < floatPrecision := by decide

theorem Arguments.Parsed.share_mem {arguments : Arguments}
    (hparsed : arguments.Parsed) :
    0 ≤ arguments.percentQsys ∧ arguments.percentQsys ≤ 1 := by
  rcases hparsed with rfl | ⟨percent, -, hparse⟩
  · simp [defaultArguments]
  · have hone : Representable floatPrecision 1 := by
      exact_mod_cast representable_natCast (p := floatPrecision) (n := 1)
        Nat.one_le_two_pow
    rw [parseOpt] at hparse
    split_ifs at hparse with hrange
    rw [not_or, not_lt, not_lt] at hrange
    cases hparse
    constructor
    · exact roundTo_nonneg (by linarith)
    · exact roundTo_le floatPrecision_pos hone (by linarith) (by linarith)

/-! ## Truncation -/

theorem truncate_natCast (n : Nat) : truncate n = n := by
  simp [truncate]

theorem truncate_mem {q : ℚ} {n : Nat} (hlow : 0 ≤ q) (hhigh : q ≤ n) :
    0 ≤ truncate q ∧ truncate q ≤ n := by
  rw [truncate, if_pos hlow]
  constructor
  · exact Int.floor_nonneg.mpr hlow
  · exact Int.floor_le_iff.mpr (by push_cast; linarith)

/-! ## Numbers of pixels that are exact -/

/-- Twenty-four bits, or one or two more of them zero. -/
theorem total_exact_iff {n : Nat} (hn : n ≤ decryptedSectorSize) :
    roundTo floatPrecision n = n ↔
      n ≤ 2 ^ 24 ∨ (n ≤ 2 ^ 25 ∧ 2 ∣ n) ∨ 4 ∣ n := by
  rw [roundTo_natCast_iff]
  rcases Nat.lt_or_ge n (2 ^ 24) with hsmall | hlarge
  · have hlog : Nat.log 2 n < 24 := Nat.log_lt_of_lt_pow' (by decide) hsmall
    have hbits : Nat.log 2 n + 1 - floatPrecision = 0 :=
      Nat.sub_eq_zero_of_le hlog
    rw [hbits, pow_zero]
    exact iff_of_true (one_dvd n) (Or.inl hsmall.le)
  -- the two binades that the sector reaches, with units of two and of four
  rcases Nat.lt_or_ge n (2 ^ 25) with hone | htwo
  · rw [Nat.log_eq_of_pow_le_of_lt_pow hlarge hone]
    simp only [floatPrecision, Nat.reduceAdd, Nat.reduceSub, pow_one]
    omega
  · have hsector : n < 2 ^ (25 + 1) := hn.trans_lt (by decide)
    rw [Nat.log_eq_of_pow_le_of_lt_pow htwo hsector]
    simp only [floatPrecision, Nat.reduceAdd, Nat.reduceSub, Nat.reducePow]
    omega

section Sizes

variable {w h : UInt32}

theorem filterHpsStart_default (hfits : Fits w h) :
    filterHpsStart w h 1 = (w.toNat * h.toNat : Nat) ↔
      roundTo floatPrecision (w.toNat * h.toNat : Nat) =
        (w.toNat * h.toNat : Nat) := by
  have htotal : Representable floatPrecision
      (roundTo floatPrecision (w.toNat * h.toNat : Nat)) :=
    representable_roundTo (Nat.cast_nonneg _)
  obtain ⟨m, hm⟩ :=
    exists_natCast_roundTo (p := floatPrecision) (w.toNat * h.toNat)
  rw [filterHpsStart, hfits.mul_toNat, mul_one,
    roundTo_representable floatPrecision_pos htotal, hm, truncate_natCast]
  norm_cast

theorem filterHpsStart_mem (hfits : Fits w h) {share : ℚ} (hlow : 0 ≤ share)
    (hhigh : share ≤ 1)
    (hexact : roundTo floatPrecision (w.toNat * h.toNat : Nat) =
      (w.toNat * h.toNat : Nat)) :
    0 ≤ filterHpsStart w h share ∧
      filterHpsStart w h share ≤ (w.toNat * h.toNat : Nat) := by
  have hcast : (0 : ℚ) ≤ (w.toNat * h.toNat : Nat) := Nat.cast_nonneg _
  have htotal : Representable floatPrecision (w.toNat * h.toNat : Nat) := by
    rw [← hexact]
    exact representable_roundTo hcast
  have hnonneg : 0 ≤ (w.toNat * h.toNat : Nat) * share := mul_nonneg hcast hlow
  rw [filterHpsStart, hfits.mul_toNat, hexact]
  apply truncate_mem
  · exact roundTo_nonneg hnonneg
  · exact roundTo_le floatPrecision_pos htotal hnonneg
      (mul_le_of_le_one_right hcast hhigh)

def SplitInside (w h : UInt32) : Prop :=
  (∀ arguments : Arguments, arguments.Parsed → ∀ dib : Bitmap, dib.HasSize w h →
    0 ≤ (loadData arguments dib).header.filterHpsStart ∧
      (loadData arguments dib).header.filterHpsStart ≤
        (w.toNat * h.toNat : Nat)) ∧
  ∀ dib : Bitmap, dib.HasSize w h →
    (loadData defaultArguments dib).header.filterHpsStart =
      (w.toNat * h.toNat : Nat)

theorem loadData_filterHpsStart {arguments : Arguments} {dib : Bitmap}
    (hsize : dib.HasSize w h) :
    (loadData arguments dib).header.filterHpsStart =
      filterHpsStart w h arguments.percentQsys := by
  rw [loadData, hsize.width, hsize.height]

end Sizes

theorem timerIsrSoftCore_unfinished {p : Process}
    (hcount : p.softFilterPxCount ≤ p.header.decryptPxCount)
    (hpast : p.header.decryptPxCount < p.header.filterHpsStart) :
    (timerIsrSoftCore p).after.header = p.header ∧
      (timerIsrSoftCore p).after.softFilterPxCount ≤
        p.header.decryptPxCount := by
  have hbound : p.softFilterPxCount +
      softNumPixelsToFilter p.header p.softFilterPxCount ≤
        p.header.decryptPxCount := by
    simp only [softNumPixelsToFilter]
    split_ifs <;> omega
  refine ⟨?_, hbound⟩
  rw [timerIsrSoftCore, softFinish, if_neg (by omega)]

/--
For every size the sector holds: the split of every share is inside the image,
and the default one is its end, exactly when single precision holds the number
of pixels.
-/
theorem split_inside_iff {w h : UInt32} (hfits : Fits w h) :
    SplitInside w h ↔
      w.toNat * h.toNat ≤ 2 ^ 24 ∨
        (w.toNat * h.toNat ≤ 2 ^ 25 ∧ 2 ∣ w.toNat * h.toNat) ∨
        4 ∣ w.toNat * h.toNat := by
  rw [← total_exact_iff hfits.le_sector, ← filterHpsStart_default hfits]
  constructor
  · rintro ⟨-, hdefault⟩
    have hend := hdefault ⟨w, h, fun _ => 0⟩ ⟨rfl, rfl⟩
    rwa [loadData_filterHpsStart ⟨rfl, rfl⟩] at hend
  · intro hdefault
    have hexact := (filterHpsStart_default hfits).mp hdefault
    constructor
    · intro arguments hparsed dib hsize
      obtain ⟨hlow, hhigh⟩ := hparsed.share_mem
      rw [loadData_filterHpsStart hsize]
      exact filterHpsStart_mem hfits hlow hhigh hexact
    · intro dib hsize
      rw [loadData_filterHpsStart hsize]
      exact hdefault

theorem split_inside_vga : SplitInside 640 480 :=
  (split_inside_iff ⟨by decide, by decide, by decide⟩).mpr
    (Or.inl (by decide))

theorem roundTo_past_the_end : roundTo floatPrecision 16777219 = 16777220 := by
  have hlog : Nat.log 2 16777219 = 24 :=
    Nat.log_eq_of_pow_le_of_lt_pow (by decide) (by decide)
  have hexponent : unitExponent floatPrecision (16777219 : ℚ) = 1 := by
    have hunit := unitExponent_natCast (p := floatPrecision) 16777219
    rw [hlog] at hunit
    exact_mod_cast hunit
  rw [roundTo, hexponent, zpow_one]
  norm_num [nearestEven]

theorem split_past_the_end :
    filterHpsStart 16777219 1 1 = 16777220 ∧ ¬SplitInside 16777219 1 := by
  have hfits : Fits 16777219 1 := ⟨by decide, by decide, by decide⟩
  have hpast : filterHpsStart 16777219 1 1 = 16777220 := by
    have hrounded : Representable floatPrecision 16777220 := by
      rw [← roundTo_past_the_end]
      exact representable_roundTo (by norm_num)
    have hnat : (16777219 * 1 : UInt32).toNat = 16777219 := by decide
    have htotal : ((16777219 * 1 : UInt32).toNat : ℚ) = 16777219 := by
      rw [hnat]
      norm_num
    rw [filterHpsStart, htotal, roundTo_past_the_end, mul_one,
      roundTo_representable floatPrecision_pos hrounded]
    exact_mod_cast truncate_natCast 16777220
  refine ⟨hpast, ?_⟩
  rintro ⟨-, hdefault⟩
  have hend := hdefault ⟨16777219, 1, fun _ => 0⟩ ⟨rfl, rfl⟩
  rw [loadData_filterHpsStart ⟨rfl, rfl⟩] at hend
  exact absurd (hpast.symm.trans hend) (by decide)

end NiosHps.Simulator
