import NiosHps.Simulator.Protocol

/-!
# The one-row look-ahead of the filter

A pixel above the last row reads the row below it, so a batch that ends at the
last decrypted pixel reads pixels that are still encrypted.  `BatchReady` is the
exact condition, on the counters before a tick, under which its batch reads
decrypted pixels only.
-/

namespace NiosHps.Simulator

open NiosHps.Foundation
open NiosHps.Filter

/-! ## The furthest sample of a pixel -/

section LastSample

variable {w h idx : Nat}

theorem succ_le_sampleIndex_last (hidx : idx + 1 < w * h) :
    idx + 1 ≤ sampleIndex idx w h 8 := by
  obtain ⟨y, x, hy, hx, rfl⟩ := exists_grid (by omega : idx < w * h)
  rw [sampleIndex_grid hx hy]
  change y * w + x + 1 ≤ min (y + 1) (h - 1) * w + min (x + 1) (w - 1)
  by_cases hbottom : y + 1 < h
  · have hrow : min (y + 1) (h - 1) = y + 1 := by omega
    rw [hrow, Nat.succ_mul]
    omega
  · have hrow : min (y + 1) (h - 1) = y := by omega
    have hend : (y + 1) * w = w * h := by
      rw [show y + 1 = h by omega, Nat.mul_comm]
    rw [Nat.succ_mul] at hend
    rw [hrow]
    omega

theorem sampleIndex_last_above (hidx : idx + 1 ≤ w * (h - 1)) :
    sampleIndex idx w h 8 = idx + w + if (idx + 1) % w = 0 then 0 else 1 := by
  have hle : w * (h - 1) ≤ w * h := Nat.mul_le_mul_left w (by omega)
  obtain ⟨y, x, hy, hx, rfl⟩ := exists_grid (by omega : idx < w * h)
  have habove : y < h - 1 := by
    by_contra hbelow
    have := Nat.mul_le_mul_left w (not_lt.mp hbelow)
    rw [Nat.mul_comm y] at hidx
    omega
  have hrow : min (y + 1) (h - 1) = y + 1 := by omega
  rw [sampleIndex_grid hx hy]
  change min (y + 1) (h - 1) * w + min (x + 1) (w - 1) = _
  have hcolumn : (y * w + x + 1) % w = (x + 1) % w := by
    rw [Nat.add_assoc, Nat.mul_comm, Nat.mul_add_mod]
  rw [hrow, Nat.succ_mul, hcolumn]
  by_cases hright : x + 1 = w
  · simp [hright]
    omega
  · rw [Nat.mod_eq_of_lt (by omega)]
    simp
    omega

theorem sampleIndex_last_bottom (hidx : idx < w * h)
    (hbottom : w * (h - 1) ≤ idx) : sampleIndex idx w h 8 ≤ idx + 1 := by
  obtain ⟨y, x, hy, hx, rfl⟩ := exists_grid hidx
  have hlast : h - 1 ≤ y := by
    by_contra habove
    have := Nat.mul_le_mul_left w (by omega : y + 1 ≤ h - 1)
    rw [Nat.mul_succ, Nat.mul_comm w y] at this
    omega
  rw [sampleIndex_grid hx hy]
  change min (y + 1) (h - 1) * w + min (x + 1) (w - 1) ≤ _
  rw [show min (y + 1) (h - 1) = y by omega]
  omega

end LastSample

/-! ## Batches that read decrypted pixels only -/

/-- Every index read for the range of a tick is below `decrypt_px_count`. -/
def ReadsDecrypted (load : Load) (p : Process) (e : Event) : Prop :=
  ∀ tick call, p.tick e = some tick → tick.call = some call →
    ∀ idx : Nat, call.startIdx ≤ idx → idx < call.startIdx + call.numPixels →
      ∀ k, (sampleIndex idx load.w load.h k : Int) < p.header.decryptPxCount

def lastRowStart (load : Load) : Nat := load.w * (load.h - 1)

/--
The look-ahead of a batch is decrypted.  For the soft core: the image is
decrypted, or the two-row wait of an unfinished share goes on, or decryption is
past the split and either the batch lies in the last row, where nothing is read
below, or the row below the end of the share is decrypted too.  For the hard
core: the image is decrypted, or its two-row wait goes on.
-/
def BatchReady (load : Load) (p : Process) : Event → Prop
  | .mainLoop => True
  | .softTick =>
      p.header.niosFilterDone = true ∨
      p.header.decryptPxCount = load.total ∨
      (p.header.decryptPxCount < load.split ∧
        p.header.decryptPxCount - p.softFilterPxCount ≤ 2 * load.w) ∨
      (load.split < p.header.decryptPxCount ∧
        (lastRowStart load ≤ p.softFilterPxCount ∨
          load.split ≤ lastRowStart load ∧
          load.split + load.w + (if load.split % load.w = 0 then 0 else 1) ≤
            p.header.decryptPxCount))
  | .hardTick =>
      p.header.hpsFilterDone = true ∨
      p.header.decryptPxCount = load.total ∨
      p.header.decryptPxCount - load.split - p.hardFilterPxCount ≤ 2 * load.w

section Ranges

variable {load : Load}

theorem range_reads_below_iff {first last : Nat} {limit : Int}
    (hlast : last ≤ load.total) :
    (∀ idx, first ≤ idx → idx < last → ∀ k,
      (sampleIndex idx load.w load.h k : Int) < limit) ↔
    ∀ idx, first ≤ idx → idx < last →
      (sampleIndex idx load.w load.h 8 : Int) < limit := by
  constructor
  · intro h idx hfirst hidx
    exact h idx hfirst hidx 8
  · intro h idx hfirst hidx k
    have hle := sampleIndex_le_last (hidx.trans_le hlast) k
    exact lt_of_le_of_lt (by exact_mod_cast hle) (h idx hfirst hidx)

theorem range_complete {first last : Nat} (hlast : last ≤ load.total) :
    ∀ idx, first ≤ idx → idx < last → ∀ k,
      (sampleIndex idx load.w load.h k : Int) < load.total := by
  intro idx _ hidx k
  exact_mod_cast sampleIndex_lt (hidx.trans_le hlast) k

theorem range_to_decrypted {first decrypted : Nat}
    (hfirst : first < decrypted) (htotal : decrypted < load.total) :
    ¬∀ idx, first ≤ idx → idx < decrypted → ∀ k,
      (sampleIndex idx load.w load.h k : Int) < decrypted := by
  intro h
  have hlast := h (decrypted - 1) (by omega) (by omega) 8
  have hinside : decrypted - 1 + 1 < load.total := by omega
  have hnext := succ_le_sampleIndex_last hinside
  omega

theorem range_above {first last : Nat} {limit : Int}
    (hfirst : first < last) (habove : last ≤ lastRowStart load) :
    (∀ idx, first ≤ idx → idx < last → ∀ k,
      (sampleIndex idx load.w load.h k : Int) < limit) ↔
    ((last + load.w + if last % load.w = 0 then 0 else 1 : Nat) : Int) ≤ limit := by
  have hrow : lastRowStart load ≤ load.total :=
    Nat.mul_le_mul_left _ (by omega)
  rw [range_reads_below_iff (habove.trans hrow)]
  constructor
  · intro h
    have hlast := h (last - 1) (by omega) (by omega)
    have hend : last - 1 + 1 ≤ lastRowStart load := by omega
    rw [sampleIndex_last_above hend, Nat.sub_add_cancel (by omega)] at hlast
    split_ifs at hlast ⊢ <;> omega
  · intro h idx _ hidx
    have hinside : idx + 1 ≤ lastRowStart load := by omega
    rw [sampleIndex_last_above hinside]
    by_cases hend : idx + 1 = last
    · rw [hend]
      split_ifs at h ⊢ <;> omega
    · split_ifs at h ⊢ <;> omega

theorem range_bottom {first last : Nat} {limit : Int}
    (hbottom : lastRowStart load ≤ first) (hlast : last ≤ load.total)
    (hlimit : (last : Int) < limit) :
    ∀ idx, first ≤ idx → idx < last → ∀ k,
      (sampleIndex idx load.w load.h k : Int) < limit := by
  rw [range_reads_below_iff hlast]
  intro idx hfirst hidx
  have hnext := sampleIndex_last_bottom (hidx.trans_le hlast)
    (hbottom.trans hfirst)
  omega

theorem range_crossing {first last decrypted : Nat}
    (hfirst : first < lastRowStart load) (hlast : lastRowStart load ≤ last)
    (htotal : decrypted < load.total) :
    ¬∀ idx, first ≤ idx → idx < last → ∀ k,
      (sampleIndex idx load.w load.h k : Int) < decrypted := by
  intro h
  have hrow : lastRowStart load + load.w = load.total := by
    unfold lastRowStart Load.total
    rw [← Nat.mul_succ, Nat.succ_eq_add_one, Nat.sub_add_cancel load.h_pos]
  have hread := h (lastRowStart load - 1) (by omega) (by omega) 8
  have habove : lastRowStart load - 1 + 1 ≤ lastRowStart load := by omega
  have hmod : lastRowStart load % load.w = 0 := Nat.mul_mod_right _ _
  rw [sampleIndex_last_above habove, Nat.sub_add_cancel (by omega), hmod,
    if_pos rfl] at hread
  omega

end Ranges

/-! ## The exact condition -/

structure Unfinished (load : Load) (p : Process) : Prop where
  consistent : Consistent load p
  soft_lt : p.header.niosFilterDone = false → p.softFilterPxCount < load.split

theorem unfinished_start {load : Load} (hsplit : 0 < load.split) :
    Unfinished load load.start where
  consistent := consistent_start load
  soft_lt _ := by
    simp only [Load.start, Load.loaded]
    omega

theorem Unfinished.step {load : Load} {p p' : Process} {e : Event}
    (h : Unfinished load p) (hstep : p.step e = some p') :
    Unfinished load p' := by
  refine ⟨h.consistent.step hstep, fun hflag => ?_⟩
  obtain ⟨tick, htick, rfl⟩ := Process.step_eq_some.mp hstep
  cases e with
  | mainLoop =>
      obtain ⟨header, hheader, rfl⟩ := Process.tick_mainLoop.mp htick
      obtain ⟨-, rfl⟩ | ⟨-, rfl⟩ := mainLoopSoftCore_eq_some hheader <;>
        exact h.soft_lt hflag
  | softTick =>
      obtain ⟨-, rfl⟩ := Process.tick_softTick.mp htick
      have hbatch := soft_batch_le h.consistent
      simp only [timerIsrSoftCore, softFinish_eq, Bool.or_eq_false_iff,
        decide_eq_false_iff_not, h.consistent.filterHpsStart] at hflag ⊢
      omega
  | hardTick =>
      obtain ⟨-, -, rfl⟩ := Process.tick_hardTick.mp htick
      unfold procesoPeriodicoHardCore at hflag ⊢
      split_ifs at hflag ⊢
      · exact h.soft_lt hflag
      · simp only [hardFinish_eq] at hflag
        exact h.soft_lt hflag

theorem readsDecrypted_of_disabled {load : Load} {p : Process} {e : Event}
    (hdisabled : p.tick e = none) : ReadsDecrypted load p e := by
  intro tick call htick
  rw [hdisabled] at htick
  contradiction

theorem readsDecrypted_iff_range {load : Load} {p : Process} {e : Event}
    {tick : Tick} {call : FilterCall} (first last : Nat)
    (htick : p.tick e = some tick) (hcall : tick.call = some call)
    (hfirst : call.startIdx = first)
    (hlast : call.startIdx + call.numPixels = last) :
    ReadsDecrypted load p e ↔
      ∀ idx, first ≤ idx → idx < last → ∀ k,
        (sampleIndex idx load.w load.h k : Int) < p.header.decryptPxCount := by
  unfold ReadsDecrypted
  constructor
  · intro h idx hlow hhigh
    exact h tick call htick hcall idx (by omega) (by omega)
  · intro h tick' call' htick' hcall' idx hlow hhigh
    rw [htick] at htick'
    cases htick'
    rw [hcall] at hcall'
    cases hcall'
    exact h idx (by omega) (by omega)

theorem soft_range_iff {load : Load} {first decrypted num : Nat}
    (hfirst : first < load.split) (htotal : decrypted ≤ load.total)
    (hbefore : decrypted < load.split →
      (num : Int) = if (decrypted : Int) - first ≤ 2 * load.w then 0
        else (decrypted : Int) - first)
    (hrest : load.split ≤ decrypted → (num : Int) = load.split - first) :
    (∀ idx, first ≤ idx → idx < first + num → ∀ k,
      (sampleIndex idx load.w load.h k : Int) < decrypted) ↔
    decrypted = load.total ∨
      (decrypted < load.split ∧ (decrypted : Int) - first ≤ 2 * load.w) ∨
      (load.split < decrypted ∧
        (lastRowStart load ≤ first ∨
          load.split ≤ lastRowStart load ∧
          load.split + load.w + (if load.split % load.w = 0 then 0 else 1) ≤
            decrypted)) := by
  have hsplit : load.split ≤ load.total := load.split_le
  rcases Nat.lt_trichotomy decrypted load.split with hlt | heq | hgt
  · have hnum := hbefore hlt
    by_cases hwait : (decrypted : Int) - first ≤ 2 * load.w
    · rw [if_pos hwait] at hnum
      refine iff_of_true (fun idx _ _ => ?_) (.inr (.inl ⟨hlt, hwait⟩))
      omega
    · rw [if_neg hwait] at hnum
      rw [show first + num = decrypted by omega]
      refine iff_of_false (range_to_decrypted (by omega) (by omega)) ?_
      omega
  · have hnum := hrest heq.ge
    by_cases hall : decrypted = load.total
    · refine iff_of_true ?_ (.inl hall)
      rw [hall]
      exact range_complete (by omega)
    · rw [show first + num = decrypted by omega]
      refine iff_of_false (range_to_decrypted (by omega) (by omega)) ?_
      omega
  · have hnum := hrest hgt.le
    rw [show first + num = load.split by omega]
    by_cases hall : decrypted = load.total
    · refine iff_of_true ?_ (.inl hall)
      rw [hall]
      exact range_complete (by omega)
    by_cases hbottom : lastRowStart load ≤ first
    · refine iff_of_true (range_bottom hbottom hsplit (by omega)) ?_
      exact .inr (.inr ⟨hgt, .inl hbottom⟩)
    by_cases habove : load.split ≤ lastRowStart load
    · rw [range_above hfirst habove]
      omega
    · refine iff_of_false
        (range_crossing (by omega) (by omega) (by omega)) ?_
      omega

theorem softTick_readsDecrypted_iff {load : Load} {p : Process}
    (h : Unfinished load p) :
    ReadsDecrypted load p .softTick ↔ BatchReady load p .softTick := by
  obtain ⟨a, ha⟩ := h.consistent.exists_pipeline
  cases hflag : p.header.niosFilterDone with
  | true =>
      refine iff_of_true (readsDecrypted_of_disabled ?_) (.inl hflag)
      simp [Process.tick, hflag]
  | false =>
      have hfirst := h.soft_lt hflag
      have hbefore := softNumPixelsToFilter_before h.consistent
      have hrest := softNumPixelsToFilter_rest h.consistent
      obtain ⟨num, hnum⟩ :=
        Int.eq_ofNat_of_zero_le (softNumPixelsToFilter_nonneg h.consistent)
      have hfront := ha.front
      rw [readsDecrypted_iff_range a.front (a.front + num)
        (Process.tick_softTick.mpr ⟨hflag, rfl⟩) rfl hfront
        (by simp only [hnum]; omega)]
      rw [hfront] at hfirst
      rw [hnum, ha.produced, ha.front] at hbefore hrest
      simp only [BatchReady, hflag, ha.produced, ha.front, Bool.false_eq_true,
        false_or]
      rw [soft_range_iff (by omega) a.produced_le
        (fun hlt => hbefore (by omega)) (fun hle => hrest (by omega))]
      norm_cast

theorem hard_range_iff {load : Load} {back decrypted num : Nat}
    (htotal : decrypted ≤ load.total)
    (hnum : num = 0 ∨ load.split + back + num = decrypted)
    (hfires : 2 * (load.w : Int) < (decrypted : Int) - load.split - back →
      num ≠ 0)
    (hwait : (decrypted : Int) - load.split - back ≤ 2 * load.w →
      num ≠ 0 → decrypted = load.total) :
    (∀ idx, load.split + back ≤ idx → idx < load.split + back + num → ∀ k,
      (sampleIndex idx load.w load.h k : Int) < decrypted) ↔
    decrypted = load.total ∨
      (decrypted : Int) - load.split - back ≤ 2 * load.w := by
  by_cases hall : decrypted = load.total
  · refine iff_of_true (fun idx _ hidx k => ?_) (.inl hall)
    have hinside : idx < load.total := by omega
    rw [hall]
    exact_mod_cast sampleIndex_lt hinside k
  by_cases hrows : (decrypted : Int) - load.split - back ≤ 2 * load.w
  · have hempty : num = 0 := by
      by_contra hne
      exact hall (hwait hrows hne)
    refine iff_of_true (fun idx _ _ => ?_) (.inr hrows)
    omega
  · have hne := hfires (by omega)
    rw [show load.split + back + num = decrypted by omega]
    refine iff_of_false (range_to_decrypted (by omega) (by omega)) ?_
    omega

theorem hardTick_readsDecrypted_iff {load : Load} {p : Process}
    (h : Unfinished load p) :
    ReadsDecrypted load p .hardTick ↔ BatchReady load p .hardTick := by
  obtain ⟨a, ha⟩ := h.consistent.exists_pipeline
  have hproduced := ha.produced
  have hback := ha.back
  have htotal := a.produced_le
  cases htick : p.tick .hardTick with
  | none =>
      refine iff_of_true (readsDecrypted_of_disabled htick) ?_
      simp only [Process.tick, ite_eq_right_iff, reduceCtorEq, imp_false,
        not_and, not_not, hardStarted, h.consistent.filterHpsStart,
        h.consistent.area, decide_eq_true_eq] at htick
      by_cases hstarted : (load.split : Int) < load.total
      · exact .inl (htick hstarted)
      · exact .inr (.inr (by omega))
  | some tick =>
      obtain ⟨-, hflag, rfl⟩ := Process.tick_hardTick.mp htick
      by_cases hreached : p.header.decryptPxCount < p.header.filterHpsStart
      · refine iff_of_true ?_ (.inr (.inr ?_))
        · intro tick call htick' hcall
          rw [htick] at htick'
          cases htick'
          simp [procesoPeriodicoHardCore, hreached] at hcall
        · rw [h.consistent.filterHpsStart] at hreached
          omega
      · have hunfiltered := hardUnfiltered_eq h.consistent (not_lt.mp hreached)
        obtain ⟨num, hnum⟩ := Int.eq_ofNat_of_zero_le
          (hardNumPixelsToFilter_nonneg p.header p.hardFilterPxCount)
        have hcases := hardNumPixelsToFilter_cases p.header
          (hardUnfiltered p.header p.hardFilterPxCount)
        have hdone := h.consistent.decryptDone
        have hsplit := h.consistent.filterHpsStart
        rw [readsDecrypted_iff_range (load.split + a.back)
          (load.split + a.back + num) htick
          (by rw [procesoPeriodicoHardCore, if_neg hreached])
          (by simp only; omega) (by simp only [hnum]; omega), hproduced]
        rw [hunfiltered, hproduced, hback] at hnum hcases
        rw [hproduced] at hdone
        simp only [BatchReady, hflag, hproduced, hback, Bool.false_eq_true,
          false_or]
        rw [hard_range_iff htotal (by omega)]
        · norm_cast
        · intro hrows
          simp only [hardNumPixelsToFilter, h.consistent.imageW] at hnum
          rw [if_pos (.inl hrows)] at hnum
          omega
        · intro hrows hne
          simp only [hardNumPixelsToFilter, h.consistent.imageW] at hnum
          split_ifs at hnum with hfires
          · have := hdone (hfires.resolve_left (by omega))
            omega
          · omega

theorem readsDecrypted_iff_batchReady {load : Load} {p : Process} (e : Event)
    (h : Unfinished load p) : ReadsDecrypted load p e ↔ BatchReady load p e := by
  cases e with
  | mainLoop =>
      refine iff_of_true ?_ trivial
      intro tick call htick hcall
      obtain ⟨header, -, rfl⟩ := Process.tick_mainLoop.mp htick
      contradiction
  | softTick => exact softTick_readsDecrypted_iff h
  | hardTick => exact hardTick_readsDecrypted_iff h

/--
Along every schedule, all ticks read decrypted pixels only if and only if every
tick meets `BatchReady` in the state in which it starts.
-/
theorem ticks_read_decrypted_iff (load : Load) (hsplit : 0 < load.split)
    (events : List Event) :
    (protocol load).AllSteps (ReadsDecrypted load) load.start events ↔
      (protocol load).AllSteps (BatchReady load) load.start events :=
  System.allSteps_congr (I := Unfinished load)
    (fun _ e h => readsDecrypted_iff_batchReady e h)
    (fun _ _ _ h _ hstep => Unfinished.step h hstep) (unfinished_start hsplit)

theorem ticks_read_decrypted_column :
    let load : Load := ⟨1, 4, 2, by decide, by decide, by decide⟩
    (protocol load).AllSteps (ReadsDecrypted load) load.start
      [.mainLoop, .mainLoop, .mainLoop, .softTick] := by
  intro load
  refine (ticks_read_decrypted_iff load (by decide) _).mpr ?_
  exact ⟨trivial, trivial, trivial, .inr (.inr (.inr (by decide))), trivial⟩

theorem tick_reads_encrypted_row :
    ¬∀ load : Load, 0 < load.split → ∀ p, (protocol load).Reachable p →
      ∀ e, ReadsDecrypted load p e := by
  intro h
  let load : Load := ⟨1, 4, 4, by decide, by decide, by decide⟩
  have hreachable : (protocol load).Reachable
      ⟨⟨1, 4, true, 3, false, 4, false, true⟩, 0, 0⟩ :=
    System.reachable_iff_run.mpr
      ⟨load.start, [.mainLoop, .mainLoop, .mainLoop], rfl, by decide⟩
  have hread := h load (by decide) _ hreachable .softTick _ _ rfl rfl 2
    (by decide) (by decide) 8
  exact absurd hread (by decide)

end NiosHps.Simulator
