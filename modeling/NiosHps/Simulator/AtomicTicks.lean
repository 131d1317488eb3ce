import NiosHps.Simulator.EndToEnd

/-!
# Atomic ticks are uninterrupted threads

The protocol with atomic ticks is a part of what the threads do.  A tick is a
path of steps of its own thread with nothing in between, and the loop in it is
`apply_filter`.  So every state of the protocol is the state of a run of the
threads in which both cores are between two ticks.
-/

namespace NiosHps.Simulator

open NiosHps.Foundation
open NiosHps.Filter
open Relation

namespace Threads

def Moves (conv : FloatToU8) (t t' : Threads) : Prop :=
  ∃ thread, t.step conv thread = some t'

def applied (conv : FloatToU8) (t : Threads) (startIdx numPixels : Nat) :
    Threads :=
  { t with
    sdram :=
      applyFilter conv decryptedImageSector filteredImageSector startIdx numPixels
        t.header.imageW.toNat t.header.imageH.toNat t.sdram
    written := (List.range' startIdx numPixels).reverse ++ t.written }

section Loops

variable {conv : FloatToU8}

theorem applied_succ (t : Threads) (idx n : Nat) :
    t.applied conv idx (n + 1) =
      (t.filterAt conv idx).applied conv (idx + 1) n := by
  simp [applied, applyFilter, filterAt, header, List.range'_succ]

/-- The loop of either core, given where it keeps its cursor. -/
theorem loop_path (conv : FloatToU8) (cursor : Threads → Nat → Threads)
    {last : Nat}
    (hiterate : ∀ t idx, idx < last →
      Moves conv (cursor t idx) (cursor (t.filterAt conv idx) (idx + 1)))
    (t : Threads) (idx n : Nat) (hlast : idx + n ≤ last) :
    ReflTransGen (Moves conv) (cursor t idx)
      (cursor (t.applied conv idx n) (idx + n)) := by
  induction n generalizing t idx with
  | zero => exact .refl
  | succ n ih =>
      rw [applied_succ, show idx + (n + 1) = idx + 1 + n by omega]
      exact .head (hiterate t idx (by omega)) (ih _ _ (by omega))

end Loops

/-! ## One tick -/

section Ticks

variable {conv : FloatToU8} {load : Load} {t : Threads}

def softAtRest (p : Process) : SoftPc :=
  if p.header.niosFilterDone then .exited else .sleeping

def hardAtRest (p : Process) : HardPc :=
  if hardStarted p.header then
    if p.header.hpsFilterDone then .exited else .sleeping
  else .notStarted

theorem soft_end (conv : FloatToU8) (t : Threads) {idx : Nat} {num : Int}
    (hpc : t.soft = .filtering idx idx num)
    (hflag : t.header.niosFilterDone = false) :
    let count := t.process.softFilterPxCount + num
    let p : Process :=
      { t.process with
        header := softFinish t.header count
        softFilterPxCount := count }
    t.softStep conv = some { t with process := p, soft := softAtRest p } := by
  simp [softStep, hpc, softAtRest, softFinish_eq, hflag]

theorem soft_tick_path (t : Threads) (hflag : t.header.niosFilterDone = false)
    (hpc : t.soft = .sleeping) :
    ReflTransGen (Moves conv) t
      { t.applied conv t.process.softFilterPxCount.toNat
          (softNumPixelsToFilter t.header t.process.softFilterPxCount).toNat with
        process := (timerIsrSoftCore t.process).after
        soft := softAtRest (timerIsrSoftCore t.process).after } := by
  let num := softNumPixelsToFilter t.header t.process.softFilterPxCount
  let first := t.process.softFilterPxCount.toNat
  let last := first + num.toNat
  have hread : Moves conv t { t with soft := .filtering first last num } :=
    ⟨.soft, by simp only [step, softStep, hpc]; rfl⟩
  have hloop := loop_path conv
    (fun t idx => { t with soft := .filtering idx last num })
    (fun t idx hidx => ⟨.soft, if_pos hidx⟩)
    t first num.toNat le_rfl
  have hend := soft_end conv
    { t.applied conv first num.toNat with soft := .filtering last last num }
    rfl hflag
  exact .head hread (hloop.tail ⟨.soft, hend⟩)

theorem hard_end (conv : FloatToU8) (t : Threads) {idx : Nat} {num : Int}
    (hpc : t.hard = .filtering idx idx num)
    (hflag : t.header.hpsFilterDone = false)
    (hstarted : hardStarted t.header = true) :
    let count := t.process.hardFilterPxCount + num
    let p : Process :=
      { t.process with
        header := hardFinish t.header count
        hardFilterPxCount := count }
    t.hardStep conv = some { t with process := p, hard := hardAtRest p } := by
  have hstarted' := hstarted
  simp only [hardStarted] at hstarted'
  simp [hardStep, hpc, hardAtRest, hardFinish_eq, hflag, hardStarted, hstarted']

theorem hard_tick_path (t : Threads) (hflag : t.header.hpsFilterDone = false)
    (hstarted : hardStarted t.header = true) (hpc : t.hard = .sleeping)
    (hreached : ¬t.header.decryptPxCount < t.header.filterHpsStart) :
    ReflTransGen (Moves conv) t
      { t.applied conv
          (t.header.filterHpsStart + t.process.hardFilterPxCount).toNat
          (hardNumPixelsToFilter t.header
            (hardUnfiltered t.header t.process.hardFilterPxCount)).toNat with
        process := (procesoPeriodicoHardCore t.process).after
        hard := hardAtRest (procesoPeriodicoHardCore t.process).after } := by
  let unfiltered := hardUnfiltered t.header t.process.hardFilterPxCount
  let num := hardNumPixelsToFilter t.header unfiltered
  let first := (t.header.filterHpsStart + t.process.hardFilterPxCount).toNat
  let last := first + num.toNat
  have hcount : Moves conv t { t with hard := .counting } :=
    ⟨.hard, by simp only [step, hardStep, hpc, if_neg hreached]⟩
  have htest : Moves conv { t with hard := .counting }
      { t with hard := .testing unfiltered } := ⟨.hard, rfl⟩
  have hread : Moves conv { t with hard := .testing unfiltered }
      { t with hard := .filtering first last num } := ⟨.hard, rfl⟩
  have hloop := loop_path conv
    (fun t idx => { t with hard := .filtering idx last num })
    (fun t idx hidx => ⟨.hard, if_pos hidx⟩)
    t first num.toNat le_rfl
  have hafter : (procesoPeriodicoHardCore t.process).after =
      { t.process with
        header := hardFinish t.header (t.process.hardFilterPxCount + num)
        hardFilterPxCount := t.process.hardFilterPxCount + num } := by
    rw [procesoPeriodicoHardCore, if_neg hreached]
  have hend := hard_end conv
    { t.applied conv first num.toNat with hard := .filtering last last num }
    rfl hflag hstarted
  rw [hafter]
  exact .head hcount (.head htest (.head hread (hloop.tail ⟨.hard, hend⟩)))

end Ticks

/-! ## Whole schedules -/

/-- The threads between two events of the protocol. -/
structure AtRest (p : Process) (t : Threads) : Prop where
  process : t.process = p
  main : t.main = .decrypting
  soft : t.soft = softAtRest p
  hard : t.hard = hardAtRest p

theorem protocol_refines_threads (conv : FloatToU8) (load : Load) :
    (protocol load).Refines (Moves conv) AtRest := by
  intro p e p' t h hstep
  obtain ⟨rfl, hmain, hsoft, hhard⟩ := h
  obtain ⟨tick, htick, rfl⟩ := Process.step_eq_some.mp hstep
  cases e with
  | mainLoop =>
      obtain ⟨header, hheader, rfl⟩ := Process.tick_mainLoop.mp htick
      have hmove : Moves conv t (t.setHeader header) :=
        ⟨.main, by simp only [step, mainStep, hmain, hheader]⟩
      refine ⟨_, .single hmove, ?_⟩
      obtain ⟨-, rfl⟩ | ⟨-, rfl⟩ := mainLoopSoftCore_eq_some hheader <;>
        exact ⟨rfl, hmain, hsoft, hhard⟩
  | softTick =>
      obtain ⟨hflag, rfl⟩ := Process.tick_softTick.mp htick
      rw [softAtRest, hflag] at hsoft
      refine ⟨_, soft_tick_path t hflag hsoft, rfl, hmain, rfl, hhard.trans ?_⟩
      simp [hardAtRest, timerIsrSoftCore, softFinish_eq, hardStarted]
  | hardTick =>
      obtain ⟨hstarted, hflag, rfl⟩ := Process.tick_hardTick.mp htick
      rw [hardAtRest, hstarted, hflag] at hhard
      by_cases hreached : t.header.decryptPxCount < t.header.filterHpsStart
      · refine ⟨t, .refl, ?_⟩
        rw [procesoPeriodicoHardCore, if_pos hreached]
        refine ⟨rfl, hmain, hsoft, hhard.trans ?_⟩
        rw [hardAtRest, hstarted, hflag]
      · refine ⟨_, hard_tick_path t hflag hstarted hhard hreached, rfl, hmain,
          hsoft.trans ?_, rfl⟩
        rw [procesoPeriodicoHardCore, if_neg hreached]
        simp [softAtRest, hardFinish_eq]

section Schedules

variable {load : Load}

theorem atRest_start (conv : FloatToU8) (load : Load) (pixels : Nat → UInt8) :
    ∃ t, ReflTransGen (Moves conv) (load.threads pixels) t ∧
      AtRest load.start t := by
  have hsoft : Moves conv (load.threads pixels)
      { load.threads pixels with main := .startHard, soft := .sleeping } :=
    ⟨.main, rfl⟩
  cases hstarted : hardStarted load.header with
  | true =>
      have hstart : load.start = load.loaded := by
        rw [Load.start, startHard, if_pos hstarted]
        rfl
      have hhard : Moves conv
          { load.threads pixels with main := .startHard, soft := .sleeping }
          { load.threads pixels with
            main := .decrypting, soft := .sleeping, hard := .sleeping } :=
        ⟨.main, if_pos hstarted⟩
      refine ⟨_, .head hsoft (.single hhard), hstart.symm, rfl, ?_, ?_⟩
      · rw [hstart]
        rfl
      · rw [hstart, hardAtRest, Load.loaded, hstarted]
        rfl
  | false =>
      have hnot : ¬hardStarted load.header = true := by simp [hstarted]
      have hhard : Moves conv
          { load.threads pixels with main := .startHard, soft := .sleeping }
          { load.threads pixels with
            process := load.start, main := .decrypting, soft := .sleeping } :=
        ⟨.main, if_neg hnot⟩
      refine ⟨_, .head hsoft (.single hhard), rfl, rfl, ?_, ?_⟩
      · simp [softAtRest, Load.start, startHard_eq, Load.header]
      · have hkeep : hardStarted load.start.header = hardStarted load.header := by
          simp [Load.start, startHard_eq, hardStarted]
        rw [hardAtRest, hkeep, hstarted]
        rfl

theorem reachable_atRest (conv : FloatToU8) (pixels : Nat → UInt8) {p : Process}
    (hp : (protocol load).Reachable p) :
    ∃ t, (simulator conv load pixels).Reachable t ∧ AtRest p t := by
  obtain ⟨s, events, rfl, hrun⟩ := System.reachable_iff_run.mp hp
  obtain ⟨t₀, hpath₀, hrest₀⟩ := atRest_start conv load pixels
  obtain ⟨t, hpath, hrest⟩ := (protocol_refines_threads conv load).run hrest₀ hrun
  exact ⟨t, (System.Reachable.init rfl).moves (hpath₀.trans hpath), hrest⟩

theorem AtRest.outside {p : Process} {t : Threads} (h : AtRest p t) :
    t.Outside := by
  constructor
  · intro idx last num hpc
    rw [h.soft, softAtRest] at hpc
    split_ifs at hpc
  · intro idx last num hpc
    rw [h.hard, hardAtRest] at hpc
    split_ifs at hpc

theorem protocol_state_filtered (conv : FloatToU8) (pixels : Nat → UInt8)
    (hfits : load.total ≤ decryptedSectorSize) {p : Process}
    (hp : (protocol load).Reachable p) :
    ∃ t, (simulator conv load pixels).Reachable t ∧ t.process = p ∧
      HoldsFiltered conv load pixels t.sdram p.softFilterPxCount
        p.hardFilterPxCount := by
  obtain ⟨t, ht, hrest⟩ := reachable_atRest conv pixels hp
  obtain ⟨a, ha⟩ := exists_abstracts hfits ht
  have hfiltered := ha.holdsFiltered
  rw [hrest.outside.softFiltered, hrest.outside.hardFiltered,
    hrest.process] at hfiltered
  exact ⟨t, ht, hrest.process, hfiltered⟩

end Schedules

end Threads

end NiosHps.Simulator
