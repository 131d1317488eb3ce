import NiosHps.Foundation.Pipeline
import NiosHps.Foundation.System
import NiosHps.Simulator.Process
import Mathlib.Tactic.Linarith

/-!
# The simulated protocol with atomic ticks

Schedules interleave the decryption loop of the main thread with ticks of the
two cores.  A core whose flag is up has left its thread and ticks no more, and
the hard core ticks only if `main` started it.  Every reachable state satisfies
`Consistent`, from which the progress and completion results follow.
-/

namespace NiosHps.Simulator

open NiosHps.Foundation

inductive Event where
  | mainLoop
  | softTick
  | hardTick
  deriving DecidableEq, Repr

namespace Process

def tick (p : Process) : Event → Option Tick
  | .mainLoop =>
      (mainLoopSoftCore p.header).map fun header =>
        { call := none, after := { p with header := header } }
  | .softTick =>
      if p.header.niosFilterDone then none else some (timerIsrSoftCore p)
  | .hardTick =>
      if hardStarted p.header ∧ ¬p.header.hpsFilterDone then
        some (procesoPeriodicoHardCore p)
      else none

def step (p : Process) (e : Event) : Option Process := (p.tick e).map Tick.after

theorem step_eq_some {p p' : Process} {e : Event} :
    p.step e = some p' ↔ ∃ tick, p.tick e = some tick ∧ tick.after = p' := by
  simp [step, Option.map_eq_some_iff]

theorem tick_mainLoop {p : Process} {tick : Tick} :
    p.tick .mainLoop = some tick ↔
      ∃ header, mainLoopSoftCore p.header = some header ∧
        tick = { call := none, after := { p with header := header } } := by
  simp [Process.tick, eq_comm]

theorem tick_softTick {p : Process} {tick : Tick} :
    p.tick .softTick = some tick ↔
      p.header.niosFilterDone = false ∧ tick = timerIsrSoftCore p := by
  cases hflag : p.header.niosFilterDone <;>
    simp [Process.tick, hflag, eq_comm]

theorem tick_hardTick {p : Process} {tick : Tick} :
    p.tick .hardTick = some tick ↔
      hardStarted p.header = true ∧ p.header.hpsFilterDone = false ∧
        tick = procesoPeriodicoHardCore p := by
  cases hstarted : hardStarted p.header <;>
    cases hflag : p.header.hpsFilterDone <;>
    simp [Process.tick, hstarted, hflag, eq_comm]

end Process

def protocol (load : Load) : System Process Event where
  init p := p = load.start
  step := Process.step

structure Consistent (load : Load) (p : Process) : Prop where
  imageW : p.header.imageW = load.w
  imageH : p.header.imageH = load.h
  filterHpsStart : p.header.filterHpsStart = load.split
  soft_nonneg : 0 ≤ p.softFilterPxCount
  soft_le_decrypt : p.softFilterPxCount ≤ p.header.decryptPxCount
  soft_le_split : p.softFilterPxCount ≤ load.split
  hard_nonneg : 0 ≤ p.hardFilterPxCount
  hard_le_decrypt : p.hardFilterPxCount = 0 ∨
    load.split + p.hardFilterPxCount ≤ p.header.decryptPxCount
  decrypt_le_total : p.header.decryptPxCount ≤ load.total
  decryptDone : p.header.decryptDone = true → p.header.decryptPxCount = load.total
  niosFilterDone : p.header.niosFilterDone = true →
    p.softFilterPxCount = load.split
  hpsFilterDone : p.header.hpsFilterDone = true →
    load.split + p.hardFilterPxCount = load.total

section Batches

variable {load : Load} {p : Process}

theorem Consistent.area (h : Consistent load p) :
    p.header.imageW * p.header.imageH = load.total := by
  rw [h.imageW, h.imageH, Load.total, Nat.cast_mul]

theorem softNumPixelsToFilter_cases (h : Consistent load p) :
    softNumPixelsToFilter p.header p.softFilterPxCount = 0 ∨
      softNumPixelsToFilter p.header p.softFilterPxCount =
        min p.header.decryptPxCount load.split - p.softFilterPxCount := by
  simp only [softNumPixelsToFilter, h.filterHpsStart]
  split_ifs <;> omega

theorem softNumPixelsToFilter_nonneg (h : Consistent load p) :
    0 ≤ softNumPixelsToFilter p.header p.softFilterPxCount := by
  have hdecrypt := h.soft_le_decrypt
  have hsplit := h.soft_le_split
  rcases softNumPixelsToFilter_cases h with hnum | hnum <;> omega

theorem soft_batch_le (h : Consistent load p) :
    p.softFilterPxCount + softNumPixelsToFilter p.header p.softFilterPxCount ≤
      min p.header.decryptPxCount load.split := by
  have hdecrypt := h.soft_le_decrypt
  have hsplit := h.soft_le_split
  rcases softNumPixelsToFilter_cases h with hnum | hnum <;> omega

theorem softNumPixelsToFilter_rest (h : Consistent load p)
    (hreached : (load.split : Int) ≤ p.header.decryptPxCount) :
    softNumPixelsToFilter p.header p.softFilterPxCount =
      load.split - p.softFilterPxCount := by
  simp only [softNumPixelsToFilter, h.filterHpsStart]
  split_ifs <;> omega

theorem softNumPixelsToFilter_before (h : Consistent load p)
    (hbefore : p.header.decryptPxCount < load.split) :
    softNumPixelsToFilter p.header p.softFilterPxCount =
      if p.header.decryptPxCount - p.softFilterPxCount ≤ 2 * load.w then 0
      else p.header.decryptPxCount - p.softFilterPxCount := by
  simp only [softNumPixelsToFilter, h.filterHpsStart, h.imageW]
  split_ifs <;> omega

theorem hardNumPixelsToFilter_cases (header : SharedHeader) (unfiltered : Int) :
    hardNumPixelsToFilter header unfiltered = 0 ∨
      hardNumPixelsToFilter header unfiltered = unfiltered := by
  unfold hardNumPixelsToFilter
  split_ifs <;> simp

theorem hardUnfiltered_nonneg (header : SharedHeader) (count : Int) :
    0 ≤ hardUnfiltered header count := by
  simp only [hardUnfiltered]
  split_ifs <;> omega

theorem hardNumPixelsToFilter_nonneg (header : SharedHeader) (count : Int) :
    0 ≤ hardNumPixelsToFilter header (hardUnfiltered header count) := by
  have hunfiltered := hardUnfiltered_nonneg header count
  rcases hardNumPixelsToFilter_cases header (hardUnfiltered header count)
    with hnum | hnum <;> omega

theorem hardUnfiltered_eq (h : Consistent load p)
    (hreached : p.header.filterHpsStart ≤ p.header.decryptPxCount) :
    hardUnfiltered p.header p.hardFilterPxCount =
      p.header.decryptPxCount - load.split - p.hardFilterPxCount := by
  have hle := h.hard_le_decrypt
  rw [h.filterHpsStart] at hreached
  simp only [hardUnfiltered, h.filterHpsStart]
  split_ifs <;> omega

end Batches

/-! ## The invariant -/

theorem consistent_loaded (load : Load) : Consistent load load.loaded := by
  constructor <;> simp [Load.loaded, Load.header]

/-- The preset of `main`: without pixels for the HPS its share is complete. -/
theorem Consistent.startHard {load : Load} {p : Process} (h : Consistent load p)
    (hhard : p.hardFilterPxCount = 0) :
    Consistent load { p with header := startHard p.header } := by
  have hle : load.split ≤ load.total := load.split_le
  have hflag := h.hpsFilterDone
  simp only [startHard_eq, hardStarted, h.filterHpsStart, h.area]
  exact { h with
    filterHpsStart := rfl
    hpsFilterDone := by
      simp only [Bool.or_eq_true, Bool.not_eq_true', decide_eq_false_iff_not]
      rintro (hset | hnone)
      · exact hflag hset
      · simp only [hhard]
        omega }

theorem consistent_start (load : Load) : Consistent load load.start :=
  (consistent_loaded load).startHard rfl

theorem Consistent.mainLoop {load : Load} {p : Process} {header : SharedHeader}
    (h : Consistent load p) (hstep : mainLoopSoftCore p.header = some header) :
    Consistent load { p with header := header } := by
  obtain ⟨hrest, rfl⟩ | ⟨hdone, rfl⟩ := mainLoopSoftCore_eq_some hstep
  · rw [h.area] at hrest
    have hle := h.decrypt_le_total
    exact { h with
      soft_le_decrypt := by have := h.soft_le_decrypt; simp; omega
      hard_le_decrypt := by have := h.hard_le_decrypt; simp; omega
      decrypt_le_total := by simp; omega
      decryptDone := fun hdone => absurd (h.decryptDone hdone) hrest }
  · exact { h with decryptDone := fun _ => hdone.trans h.area }

theorem Consistent.softAdvance {load : Load} {p : Process}
    (h : Consistent load p) (hflag : p.header.niosFilterDone = false) {num : Int}
    (hnonneg : 0 ≤ num)
    (hbatch : p.softFilterPxCount + num ≤
      min p.header.decryptPxCount load.split) :
    Consistent load
      { p with
        header := softFinish p.header (p.softFilterPxCount + num)
        softFilterPxCount := p.softFilterPxCount + num } := by
  have hsoft := h.soft_nonneg
  simp only [softFinish_eq, h.filterHpsStart]
  exact { h with
    filterHpsStart := rfl
    soft_nonneg := by simp; omega
    soft_le_decrypt := by simp; omega
    soft_le_split := by simp; omega
    niosFilterDone := by simp [hflag] }

theorem Consistent.softTick {load : Load} {p : Process}
    (h : Consistent load p) (hflag : p.header.niosFilterDone = false) :
    Consistent load (timerIsrSoftCore p).after :=
  h.softAdvance hflag (softNumPixelsToFilter_nonneg h) (soft_batch_le h)

theorem Consistent.hardAdvance {load : Load} {p : Process}
    (h : Consistent load p) (hflag : p.header.hpsFilterDone = false) {num : Int}
    (hnonneg : 0 ≤ num)
    (hbatch : load.split + (p.hardFilterPxCount + num) ≤
      p.header.decryptPxCount) :
    Consistent load
      { p with
        header := hardFinish p.header (p.hardFilterPxCount + num)
        hardFilterPxCount := p.hardFilterPxCount + num } := by
  have hhard := h.hard_nonneg
  simp only [hardFinish_eq, h.filterHpsStart, h.area]
  exact { h with
    filterHpsStart := rfl
    hard_nonneg := by simp; omega
    hard_le_decrypt := by simp; omega
    hpsFilterDone := by simp [hflag] }

theorem Consistent.hardTick {load : Load} {p : Process}
    (h : Consistent load p) (hflag : p.header.hpsFilterDone = false) :
    Consistent load (procesoPeriodicoHardCore p).after := by
  unfold procesoPeriodicoHardCore
  split_ifs with hreached
  · exact h
  have hunfiltered := hardUnfiltered_eq h (not_lt.mp hreached)
  have hnum := hardNumPixelsToFilter_cases p.header
    (hardUnfiltered p.header p.hardFilterPxCount)
  have hle := h.hard_le_decrypt
  rw [h.filterHpsStart] at hreached
  exact h.hardAdvance hflag (hardNumPixelsToFilter_nonneg _ _) (by omega)

theorem Consistent.step {load : Load} {p p' : Process} {e : Event}
    (h : Consistent load p) (hstep : p.step e = some p') :
    Consistent load p' := by
  obtain ⟨tick, htick, rfl⟩ := Process.step_eq_some.mp hstep
  cases e with
  | mainLoop =>
      obtain ⟨header, hheader, rfl⟩ := Process.tick_mainLoop.mp htick
      exact h.mainLoop hheader
  | softTick =>
      obtain ⟨hflag, rfl⟩ := Process.tick_softTick.mp htick
      exact h.softTick hflag
  | hardTick =>
      obtain ⟨-, hflag, rfl⟩ := Process.tick_hardTick.mp htick
      exact h.hardTick hflag

theorem consistent_inductive (load : Load) :
    (protocol load).Inductive (Consistent load) where
  init p hp := by
    cases hp
    exact consistent_start load
  step _ _ _ h hstep := h.step hstep

theorem consistent_reachable {load : Load} {p : Process}
    (hp : (protocol load).Reachable p) : Consistent load p :=
  (consistent_inductive load).reachable hp

/-! ## How far decryption can get -/

def Load.decrypted (load : Load) (count : Nat) (done : Bool) : Process :=
  { load.start with
    header :=
      { load.start.header with decryptPxCount := count, decryptDone := done } }

theorem reachable_mainLoop {load : Load} {p : Process} {header : SharedHeader}
    (hp : (protocol load).Reachable p)
    (hmain : mainLoopSoftCore p.header = some header) :
    (protocol load).Reachable { p with header := header } := by
  have htick := Process.tick_mainLoop.mpr ⟨header, hmain, rfl⟩
  exact hp.step (Process.step_eq_some.mpr ⟨_, htick, rfl⟩)

theorem reachable_decrypted (load : Load) {count : Nat}
    (hcount : count ≤ load.total) :
    (protocol load).Reachable (load.decrypted count false) := by
  induction count with
  | zero =>
      refine .init ?_
      simp [protocol, Load.decrypted, Load.start, Load.loaded, startHard_eq,
        Load.header]
  | succ count ih =>
      have hreached := ih (by omega)
      have hrest : (load.decrypted count false).header.decryptPxCount ≠
          load.total := by
        simp only [Load.decrypted]
        omega
      apply reachable_mainLoop hreached
      rw [mainLoopSoftCore, (consistent_reachable hreached).area, if_pos hrest]
      rfl

theorem reachable_decryptDone (load : Load) :
    (protocol load).Reachable (load.decrypted load.total true) := by
  have hreached := reachable_decrypted load le_rfl
  apply reachable_mainLoop hreached
  rw [mainLoopSoftCore, (consistent_reachable hreached).area]
  exact if_neg (not_not.mpr rfl)

/-!
## The protocol is a pipeline

Decryption produces, the soft core consumes from the front and the hard core
from the split on.  A tick takes its whole batch at once.
-/

structure Abstracts (load : Load) (p : Process)
    (a : Pipeline load.total load.split) : Prop where
  consistent : Consistent load p
  produced : p.header.decryptPxCount = a.produced
  front : p.softFilterPxCount = a.front
  back : p.hardFilterPxCount = a.back

theorem Consistent.exists_pipeline {load : Load} {p : Process}
    (h : Consistent load p) : ∃ a, Abstracts load p a := by
  have hsoft := h.soft_nonneg
  have hhard := h.hard_nonneg
  have hdecrypt := h.soft_le_decrypt
  have hsplit := h.soft_le_split
  have hback := h.hard_le_decrypt
  have htotal := h.decrypt_le_total
  obtain ⟨produced, hproduced⟩ :=
    Int.eq_ofNat_of_zero_le (hsoft.trans hdecrypt)
  obtain ⟨front, hfront⟩ := Int.eq_ofNat_of_zero_le hsoft
  obtain ⟨back, hback'⟩ := Int.eq_ofNat_of_zero_le hhard
  exact ⟨⟨produced, front, back, by omega, by omega, by omega, by omega⟩,
    h, hproduced, hfront, hback'⟩

theorem protocol_refines (load : Load) :
    (protocol load).Refines Pipeline.Step (Abstracts load) := by
  intro p e p' a ha hstep
  obtain ⟨b, hb⟩ := (ha.consistent.step hstep).exists_pipeline
  refine ⟨b, ?_, hb⟩
  have hproduced := ha.produced
  have hfront := ha.front
  have hback := ha.back
  have hproduced' := hb.produced
  have hfront' := hb.front
  have hback' := hb.back
  obtain ⟨tick, htick, rfl⟩ := Process.step_eq_some.mp hstep
  cases e with
  | mainLoop =>
      obtain ⟨header, hheader, rfl⟩ := Process.tick_mainLoop.mp htick
      obtain ⟨-, rfl⟩ | ⟨-, rfl⟩ := mainLoopSoftCore_eq_some hheader
      · simp only at hproduced' hfront' hback'
        exact .single (.produce a b (by omega) (by omega) (by omega))
      · simp only at hproduced' hfront' hback'
        exact Pipeline.steps_front a b 0 (by omega) (by omega) (by omega)
  | softTick =>
      obtain ⟨-, rfl⟩ := Process.tick_softTick.mp htick
      have hnonneg := softNumPixelsToFilter_nonneg ha.consistent
      simp only [timerIsrSoftCore, softFinish_eq] at hproduced' hfront' hback'
      exact Pipeline.steps_front a b
        (softNumPixelsToFilter p.header p.softFilterPxCount).toNat
        (by omega) (by omega) (by omega)
  | hardTick =>
      obtain ⟨-, -, rfl⟩ := Process.tick_hardTick.mp htick
      have hnonneg := hardNumPixelsToFilter_nonneg p.header p.hardFilterPxCount
      unfold procesoPeriodicoHardCore at hproduced' hfront' hback'
      split_ifs at hproduced' hfront' hback'
      · simp only at hproduced' hfront' hback'
        exact Pipeline.steps_back a b 0 (by omega) (by omega) (by omega)
      · simp only [hardFinish_eq] at hproduced' hfront' hback'
        exact Pipeline.steps_back a b
          (hardNumPixelsToFilter p.header
            (hardUnfiltered p.header p.hardFilterPxCount)).toNat
          (by omega) (by omega) (by omega)

/-! ## Progress -/

theorem softTick_finishes {load : Load} {p : Process} (h : Consistent load p)
    (hreached : (load.split : Int) ≤ p.header.decryptPxCount) :
    (timerIsrSoftCore p).after.header.niosFilterDone = true := by
  simp only [timerIsrSoftCore, softFinish_eq,
    softNumPixelsToFilter_rest h hreached, h.filterHpsStart]
  simp

theorem softTick_idle {load : Load} {p : Process} (h : Consistent load p)
    (hflag : p.header.niosFilterDone = true) :
    timerIsrSoftCore p =
      { call := some ⟨p.softFilterPxCount, 0⟩, after := p } := by
  have hdone := h.niosFilterDone hflag
  have hle := h.soft_le_decrypt
  have hnum := softNumPixelsToFilter_rest h (by omega)
  rw [hdone, sub_self, ← hdone] at hnum
  have hheader : softFinish p.header p.softFilterPxCount = p.header := by
    rw [softFinish_eq, hflag, Bool.true_or, ← hflag]
  simp only [timerIsrSoftCore, hnum, add_zero, hheader]

theorem hardTick_finishes {load : Load} {p : Process} (h : Consistent load p)
    (hdone : p.header.decryptDone = true) :
    (procesoPeriodicoHardCore p).after.header.hpsFilterDone = true := by
  have hle : load.split ≤ load.total := load.split_le
  have htotal := h.decryptDone hdone
  have hreached : p.header.filterHpsStart ≤ p.header.decryptPxCount := by
    rw [h.filterHpsStart, htotal]
    exact_mod_cast hle
  have hnum : hardNumPixelsToFilter p.header
      (hardUnfiltered p.header p.hardFilterPxCount) =
      load.total - load.split - p.hardFilterPxCount := by
    rw [hardUnfiltered_eq h hreached, htotal]
    simp [hardNumPixelsToFilter, hdone]
  rw [procesoPeriodicoHardCore, if_neg (not_lt.mpr hreached)]
  simp only [hardFinish_eq, hnum, h.filterHpsStart, h.area]
  simp

theorem Consistent.soft_done {load : Load} {p : Process} (h : Consistent load p)
    (hflag : p.header.niosFilterDone = true) :
    (load.split : Int) ≤ p.header.decryptPxCount := by
  rw [← h.niosFilterDone hflag]
  exact h.soft_le_decrypt

theorem Consistent.hard_done {load : Load} {p : Process} (h : Consistent load p)
    (hassigned : load.split < load.total)
    (hflag : p.header.hpsFilterDone = true) :
    p.header.decryptPxCount = load.total := by
  have hend := h.hpsFilterDone hflag
  have hle := h.hard_le_decrypt
  have htotal := h.decrypt_le_total
  omega

/--
No stall and no early finish: once its share is decrypted, the next tick of a
core raises its flag, and a raised flag says that the share is decrypted.
-/
theorem flags_follow_decryption (load : Load) (_hsplit : 0 < load.split)
    (p : Process) (hp : (protocol load).Reachable p) :
    ((load.split : Int) ≤ p.header.decryptPxCount →
      p.header.niosFilterDone = false →
        ∃ p', p.step .softTick = some p' ∧ p'.header.niosFilterDone = true) ∧
    (p.header.decryptDone = true → load.split < load.total →
      p.header.hpsFilterDone = false →
        ∃ p', p.step .hardTick = some p' ∧ p'.header.hpsFilterDone = true) ∧
    (p.header.niosFilterDone = true →
      (load.split : Int) ≤ p.header.decryptPxCount) ∧
    (p.header.hpsFilterDone = true → load.split < load.total →
      p.header.decryptPxCount = load.total) := by
  have h := consistent_reachable hp
  refine ⟨?_, ?_, h.soft_done, fun hflag hassigned => h.hard_done hassigned hflag⟩
  · intro hreached hflag
    refine ⟨_, Process.step_eq_some.mpr ⟨_, ?_, rfl⟩,
      softTick_finishes h hreached⟩
    exact Process.tick_softTick.mpr ⟨hflag, rfl⟩
  · intro hdone hassigned hflag
    have hstarted : hardStarted p.header = true := by
      simp only [hardStarted, h.filterHpsStart, h.area]
      exact decide_eq_true (by exact_mod_cast hassigned)
    refine ⟨_, Process.step_eq_some.mpr ⟨_, ?_, rfl⟩,
      hardTick_finishes h hdone⟩
    exact Process.tick_hardTick.mpr ⟨hstarted, hflag, rfl⟩

theorem reachable_square :
    (protocol ⟨2, 2, 3, by decide, by decide, by decide⟩).Reachable
      ⟨⟨2, 2, true, 3, false, 3, false, false⟩, 0, 0⟩ := by
  have hcount : 3 ≤ 2 * 2 := by decide
  exact reachable_decrypted _ hcount

theorem flags_follow_decryption_square :
    ∃ p',
      Process.step
        ⟨⟨2, 2, true, 3, false, 3, false, false⟩, 0, 0⟩ .softTick = some p' ∧
      p'.header.niosFilterDone = true := by
  exact (flags_follow_decryption _ (by decide) _ reachable_square).1
    (by decide) rfl

end NiosHps.Simulator
