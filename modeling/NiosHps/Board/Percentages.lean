import NiosHps.Board.Ticks
import Mathlib.Data.Nat.ModEq

/-!
# The percentages of the progress messages

Every tick that gets as far as its message divides by the size of the share of
its core.  The simulator starts the hard core only if its share is not empty;
the HPS starts its thread whatever the split, and the Nios never stops its
timer.  Nobody guards the soft core against an empty share.
-/

namespace NiosHps.Simulator

open NiosHps.Foundation

/-- What the message of a tick divides by, if the tick gets to its message. -/
def Process.progressDivisor (p : Process) : Event → Option Int
  | .mainLoop => none
  | .softTick =>
      if p.header.niosFilterDone then none else some p.header.filterHpsStart
  | .hardTick =>
      if hardStarted p.header ∧ ¬p.header.hpsFilterDone then
        if p.header.decryptPxCount < p.header.filterHpsStart then none
        else
          some (p.header.imageW * p.header.imageH - p.header.filterHpsStart)
      else none

section Divisors

variable {load : Load} {p : Process}

theorem Consistent.progressDivisor_ne_zero (h : Consistent load p)
    (hsplit : 0 < load.split) (e : Event) : p.progressDivisor e ≠ some 0 := by
  cases e with
  | mainLoop => simp [Process.progressDivisor]
  | softTick =>
      simp only [Process.progressDivisor, h.filterHpsStart]
      split_ifs <;> simp
      omega
  | hardTick =>
      simp only [Process.progressDivisor, h.area, h.filterHpsStart]
      split_ifs with hon hbefore
      · simp
      · have hshare : (load.split : Int) < load.total := by
          simpa [hardStarted, h.filterHpsStart, h.area] using hon.1
        simp
        omega
      · simp

theorem progressDivisor_empty (hsplit : load.split = 0) :
    load.start.progressDivisor .softTick = some 0 := by
  simp [Process.progressDivisor, Load.start, startHard_eq, Load.loaded,
    Load.header, hsplit]

end Divisors

end NiosHps.Simulator

namespace NiosHps.Board

open NiosHps.Foundation
open NiosHps.Simulator

namespace Cores

def progressDivisor (c : Cores) : Event → Option UInt32
  | .mainLoop => none
  | .softTick => some c.nios.shared.filterHpsStart.toUInt32
  | .hardTick =>
      if c.nios.shared.hpsFilterDone then none
      else if c.nios.shared.decryptPxCount < c.nios.shared.filterHpsStart then
        none
      else
        some (c.nios.shared.imageW * c.nios.shared.imageH -
          c.nios.shared.filterHpsStart.toUInt32)

/-- No flag stops the timer of the Nios, no split the thread of the HPS. -/
def freeStep (c : Cores) : Event → Option Cores
  | .mainLoop => (publishDecryption c.nios.shared).map c.setShared
  | .softTick => some c.timer0_1msIsr.after
  | .hardTick =>
      if c.nios.shared.hpsFilterDone then none else some c.procesoPeriodico.after

end Cores

def freeBoard : System Cores Event where
  init c := ∃ load : Load, c.process = load.loaded
  step := Cores.freeStep

structure Sized (load : Load) (c : Cores) : Prop where
  imageW : c.nios.shared.imageW.toNat = load.w
  imageH : c.nios.shared.imageH.toNat = load.h
  filterHpsStart : c.nios.shared.filterHpsStart.toInt = load.split

section Sized

variable {load : Load} {c c' : Cores}

theorem sized_loaded (hc : c.process = load.loaded) : Sized load c where
  imageW := by
    have hheader := congrArg (fun p => p.header.imageW) hc
    exact Int.ofNat_inj.mp hheader
  imageH := by
    have hheader := congrArg (fun p => p.header.imageH) hc
    exact Int.ofNat_inj.mp hheader
  filterHpsStart := congrArg (fun p => p.header.filterHpsStart) hc

theorem Sized.step {e : Event} (h : Sized load c)
    (hstep : c.freeStep e = some c') : Sized load c' := by
  cases e with
  | mainLoop =>
      simp only [Cores.freeStep, publishDecryption] at hstep
      split_ifs at hstep <;> cases hstep <;> exact ⟨h.1, h.2, h.3⟩
  | softTick =>
      simp only [Cores.freeStep, Cores.timer0_1msIsr, timer0Finish] at hstep
      split_ifs at hstep <;> cases hstep <;> exact ⟨h.1, h.2, h.3⟩
  | hardTick =>
      simp only [Cores.freeStep, Cores.procesoPeriodico, procesoFinish] at hstep
      split_ifs at hstep <;> cases hstep <;> exact ⟨h.1, h.2, h.3⟩

theorem Sized.run {events : List Event} (h : Sized load c)
    (hrun : freeBoard.run c events = some c') : Sized load c' := by
  induction events generalizing c with
  | nil =>
      cases hrun
      exact h
  | cons e events ih =>
      obtain ⟨next, hstep, hrest⟩ := System.run_cons.mp hrun
      exact ih (h.step hstep) hrest

theorem Sized.area (h : Sized load c) :
    (c.nios.shared.imageW * c.nios.shared.imageH).toNat =
      load.total % 2 ^ 32 := by
  rw [UInt32.toNat_mul, h.imageW, h.imageH, Load.total]

theorem Sized.split (h : Sized load c) :
    c.nios.shared.filterHpsStart.toUInt32.toNat = load.split :=
  toUInt32_toNat h.filterHpsStart

theorem Sized.split_lt (h : Sized load c) : load.split < 2 ^ 31 := by
  have hlt := c.nios.shared.filterHpsStart.toInt_lt
  rw [h.filterHpsStart] at hlt
  omega

theorem Sized.share_eq_zero (h : Sized load c) :
    c.nios.shared.imageW * c.nios.shared.imageH -
        c.nios.shared.filterHpsStart.toUInt32 = 0 ↔
      load.split ≡ load.total [MOD 2 ^ 32] := by
  have hlt := h.split_lt
  rw [word_sub_eq_zero, ← UInt32.toNat_inj, h.area, h.split, Nat.ModEq,
    Nat.mod_eq_of_lt (by omega : load.split < 2 ^ 32), eq_comm]

theorem Sized.progressDivisor_ne_zero (h : Sized load c)
    (hsplit : 0 < load.split) (hshare : ¬load.split ≡ load.total [MOD 2 ^ 32])
    (e : Event) : c.progressDivisor e ≠ some 0 := by
  cases e with
  | mainLoop => simp [Cores.progressDivisor]
  | softTick =>
      have hword := h.split
      simp only [Cores.progressDivisor, ne_eq, Option.some.injEq]
      intro hzero
      rw [hzero, UInt32.toNat_zero] at hword
      omega
  | hardTick =>
      simp only [Cores.progressDivisor]
      split_ifs
      · simp
      · simp
      · rw [ne_eq, Option.some.injEq, h.share_eq_zero]
        exact hshare

theorem exists_decrypted (hc : c.process = load.loaded)
    (hshare : load.split ≡ load.total [MOD 2 ^ 32]) {count : Nat}
    (hcount : count ≤ load.split) :
    ∃ c', freeBoard.run c (List.replicate count .mainLoop) = some c' ∧
      c'.nios.shared.decryptPxCount.toInt = count ∧
      c'.nios.shared.hpsFilterDone = false := by
  induction count with
  | zero =>
      refine ⟨c, rfl, ?_, ?_⟩
      · exact congrArg (fun p => p.header.decryptPxCount) hc
      · exact congrArg (fun p => p.header.hpsFilterDone) hc
  | succ count ih =>
      obtain ⟨t, hrun, hdecrypted, hflag⟩ := ih (by omega)
      have ht := (sized_loaded hc).run hrun
      have hlt := ht.split_lt
      have hrest : t.nios.shared.decryptPxCount.toUInt32 ≠
          t.nios.shared.imageW * t.nios.shared.imageH := by
        rw [Ne, ← UInt32.toNat_inj, toUInt32_toNat hdecrypted, ht.area, ← hshare,
          Nat.mod_eq_of_lt (by omega : load.split < 2 ^ 32)]
        omega
      have hstep : freeBoard.step t .mainLoop =
          some (t.setShared
            { t.nios.shared with
              decryptPxCount := t.nios.shared.decryptPxCount + 1 }) := by
        simp [freeBoard, Cores.freeStep, publishDecryption, hrest]
      refine ⟨_, System.run_replicate_succ hrun hstep, ?_, hflag⟩
      simp only [Cores.setShared]
      rw [toInt_succ_exact hdecrypted (by omega), hdecrypted, Nat.cast_succ]

theorem exists_progressDivisor_zero (hc : c.process = load.loaded)
    (hshare : load.split ≡ load.total [MOD 2 ^ 32]) :
    ∃ events c', freeBoard.run c events = some c' ∧
      c'.progressDivisor .hardTick = some 0 := by
  obtain ⟨t, hrun, hdecrypted, hflag⟩ := exists_decrypted hc hshare le_rfl
  have ht := (sized_loaded hc).run hrun
  refine ⟨_, t, hrun, ?_⟩
  have hreached : ¬t.nios.shared.decryptPxCount <
      t.nios.shared.filterHpsStart := by
    rw [Int32.lt_iff_toInt_lt, hdecrypted, ht.filterHpsStart]
    omega
  simp [Cores.progressDivisor, hflag, hreached, ht.share_eq_zero.mpr hshare]

end Sized

/--
In the simulator no tick divides by zero, on any schedule, if and only if the
soft core has a share; on the board the HPS must have one too.  The sizes are
compared as the code does, modulo `2 ^ 32`.
-/
theorem progress_divides_iff (load : Load) :
    ((∀ p, (protocol load).Reachable p → ∀ e, p.progressDivisor e ≠ some 0) ↔
      0 < load.split) ∧
    ∀ c₀ : Cores, c₀.process = load.loaded →
      ((∀ events c, freeBoard.run c₀ events = some c →
        ∀ e, c.progressDivisor e ≠ some 0) ↔
        0 < load.split ∧ ¬load.split ≡ load.total [MOD 2 ^ 32]) := by
  refine ⟨⟨fun hdivides => ?_, fun hsplit p hp e => ?_⟩, fun c₀ hc => ?_⟩
  · by_contra hempty
    exact hdivides _ (.init rfl) .softTick
      (progressDivisor_empty (Nat.eq_zero_of_not_pos hempty))
  · exact (consistent_reachable hp).progressDivisor_ne_zero hsplit e
  refine ⟨fun hdivides => ⟨?_, fun hshare => ?_⟩, ?_⟩
  · by_contra hempty
    refine hdivides [] c₀ rfl .softTick ?_
    have hword := (sized_loaded hc).split
    rw [Nat.eq_zero_of_not_pos hempty] at hword
    simp only [Cores.progressDivisor, Option.some.injEq]
    exact UInt32.toNat_inj.mp hword
  · obtain ⟨events, c, hrun, hzero⟩ := exists_progressDivisor_zero hc hshare
    exact hdivides events c hrun .hardTick hzero
  · rintro ⟨hsplit, hshare⟩ events c hrun e
    exact ((sized_loaded hc).run hrun).progressDivisor_ne_zero hsplit hshare e

theorem progress_divides_square :
    let load : Load := ⟨2, 2, 3, by decide, by decide, by decide⟩
    ∀ events c, freeBoard.run (Cores.ofProcess load.loaded) events = some c →
      ∀ e, c.progressDivisor e ≠ some 0 := by
  intro load
  have hloaded := process_ofProcess (consistent_loaded load) (by decide)
  exact ((progress_divides_iff load).2 _ hloaded).mpr ⟨by decide, by decide⟩

theorem progress_divides_by_zero :
    ¬∀ load : Load, ∀ p, (protocol load).Reachable p →
      ∀ e, p.progressDivisor e ≠ some 0 := by
  intro hdivides
  let load : Load := ⟨1, 1, 0, by decide, by decide, by decide⟩
  exact hdivides load load.start (.init rfl) .softTick (by decide)

end NiosHps.Board
