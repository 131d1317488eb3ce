import NiosHps.Simulator.Threads

/-!
# The simulator filters every pixel once

The threads refine a pipeline whose consumers are the two loops of
`apply_filter`, pixel by pixel.  What has been consumed is what the filtered
sector holds and what `written` records; at the end of both shares that is the
whole image.
-/

namespace NiosHps.Simulator

open NiosHps.Foundation
open NiosHps.Filter

/-- The pixels filtered so far, those of an unfinished batch included. -/
def Threads.softFiltered (t : Threads) : Int :=
  match t.soft with
  | .filtering idx _ _ => idx
  | _ => t.process.softFilterPxCount

def Threads.hardFiltered (t : Threads) : Int :=
  match t.hard with
  | .filtering idx _ _ => idx - t.header.filterHpsStart
  | _ => t.process.hardFilterPxCount

section EndToEnd

variable {conv : FloatToU8} {load : Load} {pixels : Nat → UInt8}

/-- The memory of the simulator when the pixels in `done` have been filtered. -/
structure Threads.Filtered (conv : FloatToU8) (load : Load)
    (pixels : Nat → UInt8) (t : Threads) (done : Set Nat) : Prop where
  image : ∀ i < decryptedSectorSize, t.sdram (decryptedImageSector + i) =
    loadedSdram load pixels (decryptedImageSector + i)
  table : Fills (fun i => filterPixel conv pixels i load.w load.h) 0 done
    (fun i => t.sdram (filteredImageSector + i))
  nodup : t.written.Nodup
  mem_written : ∀ i, i ∈ t.written ↔ i ∈ done

theorem Threads.Filtered.frame {t t' : Threads} {done : Set Nat}
    (h : t.Filtered conv load pixels done) (hsdram : t'.sdram = t.sdram)
    (hwritten : t'.written = t.written) :
    t'.Filtered conv load pixels done where
  image := by rw [hsdram]; exact h.image
  table := by rw [hsdram]; exact h.table
  nodup := by rw [hwritten]; exact h.nodup
  mem_written := by rw [hwritten]; exact h.mem_written

theorem loadedSdram_image {i : Nat} (hi : i < load.total) :
    loadedSdram load pixels (decryptedImageSector + i) = pixels i := by
  simp [loadedSdram, hi]

theorem filtered_threads (hfits : load.total ≤ decryptedSectorSize) :
    (load.threads pixels).Filtered conv load pixels ∅ where
  image _ _ := rfl
  table :=
    { filled := by simp
      blank := fun i _ => by
        simp only [Load.threads, loadedSdram, filteredImageSector]
        rw [if_neg]
        omega }
  nodup := List.nodup_nil
  mem_written := by simp [Load.threads]

theorem Threads.Filtered.filterAt {t : Threads} {done : Set Nat} {idx : Nat}
    (h : t.Filtered conv load pixels done)
    (hconsistent : Consistent load t.process)
    (hfits : load.total ≤ decryptedSectorSize) (hidx : idx < load.total)
    (hfresh : idx ∉ done) :
    (t.filterAt conv idx).Filtered conv load pixels (insert idx done) := by
  have hpixel : filterPixel conv (fun i => t.sdram (decryptedImageSector + i)) idx
      t.header.imageW.toNat t.header.imageH.toNat =
      filterPixel conv pixels idx load.w load.h := by
    simp only [Threads.header, hconsistent.imageW, hconsistent.imageH,
      Int.toNat_natCast]
    refine filterPixel_congr conv (fun i hi => ?_) hidx
    have hi' : i < load.total := hi
    rw [h.image i (by omega), loadedSdram_image hi']
  refine ⟨?_, ?_, ?_, ?_⟩
  · intro i hi
    have hne : decryptedImageSector + i ≠ filteredImageSector + idx := by
      unfold filteredImageSector
      omega
    simpa only [Threads.filterAt, Function.update_of_ne hne] using h.image i hi
  · have hinsert := h.table.insert idx
    have hsector : (fun i => (t.filterAt conv idx).sdram (filteredImageSector + i)) =
        Function.update (fun i => t.sdram (filteredImageSector + i)) idx
          (filterPixel conv pixels idx load.w load.h) := by
      funext i
      simp only [Threads.filterAt, hpixel, Function.update_apply,
        Nat.add_left_cancel_iff]
    rwa [hsector]
  · have hnew : idx ∉ t.written := fun hmem => hfresh ((h.mem_written idx).mp hmem)
    exact List.nodup_cons.mpr ⟨hnew, h.nodup⟩
  · intro i
    simp only [Threads.filterAt, List.mem_cons, h.mem_written,
      Set.mem_insert_iff]

/-! ## Refinement of the pipeline -/

structure Threads.Abstracts (conv : FloatToU8) (load : Load)
    (pixels : Nat → UInt8) (t : Threads)
    (a : Pipeline load.total load.split) : Prop where
  valid : t.Valid load
  produced : t.header.decryptPxCount = a.produced
  front : t.softFiltered = a.front
  back : t.hardFiltered = a.back
  filtered : t.Filtered conv load pixels a.consumed

theorem abstracts_threads (hfits : load.total ≤ decryptedSectorSize) :
    (load.threads pixels).Abstracts conv load pixels
      (Pipeline.initial load.total load.split) where
  valid := Threads.valid_threads load pixels
  produced := rfl
  front := rfl
  back := rfl
  filtered := by
    have hnone : (Pipeline.initial load.total load.split).consumed = ∅ := by
      ext i
      simp [Pipeline.initial]
    rw [hnone]
    exact filtered_threads hfits

theorem Threads.Abstracts.stutter {t t' : Threads}
    {a : Pipeline load.total load.split}
    (h : t.Abstracts conv load pixels a) (hvalid : t'.Valid load)
    (hdecrypt : t'.header.decryptPxCount = t.header.decryptPxCount)
    (hsoft : t'.softFiltered = t.softFiltered)
    (hhard : t'.hardFiltered = t.hardFiltered)
    (hsdram : t'.sdram = t.sdram) (hwritten : t'.written = t.written) :
    t'.Abstracts conv load pixels a where
  valid := hvalid
  produced := hdecrypt.trans h.produced
  front := hsoft.trans h.front
  back := hhard.trans h.back
  filtered := h.filtered.frame hsdram hwritten

theorem Threads.Abstracts.mainStep {t t' : Threads}
    {a : Pipeline load.total load.split}
    (h : t.Abstracts conv load pixels a) (hstep : t.mainStep = some t') :
    ∃ b, Pipeline.Steps a b ∧ t'.Abstracts conv load pixels b := by
  have hvalid := h.valid.mainStep hstep
  have hmain := h.valid.main
  unfold Threads.mainStep at hstep
  split at hstep
  next hpc =>
    cases hstep
    simp only [hpc, MainPc.Valid] at hmain
    refine ⟨a, .refl, h.stutter hvalid rfl ?_ rfl rfl rfl⟩
    simp [Threads.softFiltered, hmain.1]
  next hpc =>
    simp only [hpc, MainPc.Valid] at hmain
    split at hstep <;> cases hstep
    next =>
      refine ⟨a, .refl, h.stutter hvalid rfl rfl ?_ rfl rfl⟩
      simp [Threads.hardFiltered, hmain.1]
    next =>
      refine ⟨a, .refl, h.stutter hvalid ?_ rfl ?_ rfl rfl⟩
      · simp [Threads.setHeader, Threads.header, startHard_eq]
      · simp [Threads.hardFiltered, Threads.setHeader, hmain.1]
  next hpc =>
    split at hstep <;> cases hstep
    next header hheader =>
      have htotal := hvalid.consistent.decrypt_le_total
      have hproduced := h.produced
      simp only [Threads.header] at hproduced
      obtain ⟨-, rfl⟩ | ⟨-, rfl⟩ := mainLoopSoftCore_eq_some hheader
      · simp only [Threads.setHeader, Threads.header] at htotal
        let b : Pipeline load.total load.split :=
          { a with
            produced := a.produced + 1
            produced_le := by omega
            front_le_produced := by have := a.front_le_produced; omega
            back_le := by have := a.back_le; omega }
        refine ⟨b, .single (.produce a b rfl rfl rfl), hvalid, ?_, h.front,
          h.back, h.filtered.frame rfl rfl⟩
        simp only [Threads.setHeader, Threads.header, b]
        omega
      · exact ⟨a, .refl, h.stutter hvalid rfl rfl rfl rfl rfl⟩
    next => exact ⟨a, .refl, h.stutter hvalid rfl rfl rfl rfl rfl⟩
  next hpc =>
    split at hstep <;> cases hstep
    next => exact ⟨a, .refl, h.stutter hvalid rfl rfl rfl rfl rfl⟩
    next => exact ⟨a, .refl, h⟩
  next => contradiction

theorem Threads.Abstracts.softStep {t t' : Threads}
    {a : Pipeline load.total load.split}
    (h : t.Abstracts conv load pixels a) (hfits : load.total ≤ decryptedSectorSize)
    (hstep : t.softStep conv = some t') :
    ∃ b, Pipeline.Steps a b ∧ t'.Abstracts conv load pixels b := by
  have hvalid := h.valid.softStep hstep
  have hsoft := h.valid.soft
  have hnonneg := h.valid.consistent.soft_nonneg
  have hfront := h.front
  unfold Threads.softStep at hstep
  split at hstep
  next => contradiction
  next => contradiction
  next hpc =>
    cases hstep
    refine ⟨a, .refl, h.stutter hvalid rfl ?_ rfl rfl rfl⟩
    simp only [Threads.softFiltered, hpc]
    omega
  next idx last numPixels hpc =>
    simp only [hpc, SoftPc.Valid] at hsoft
    simp only [Threads.softFiltered, hpc] at hfront
    obtain ⟨hflag, hlow, hhigh, hend, hbound⟩ := hsoft
    split_ifs at hstep with hloop <;> cases hstep
    · -- one more pixel from the front
      have hproduced : t.process.header.decryptPxCount = a.produced := h.produced
      have htotal := a.produced_le
      let b : Pipeline load.total load.split :=
        { a with
          front := a.front + 1
          front_le_produced := by omega
          front_le_split := by omega }
      refine ⟨b, .single (.takeFront a b rfl rfl rfl), ?_⟩
      have hidx : idx = a.front := by omega
      refine ⟨hvalid, h.produced, ?_, h.back, ?_⟩
      · simp [Threads.softFiltered, b, hidx]
      · rw [Pipeline.consumed_takeFront (a := a) (b := b) rfl rfl, hidx]
        have hmore := h.filtered.filterAt h.valid.consistent hfits
          (by omega : a.front < load.total)
          (Pipeline.front_not_consumed (b := b) rfl)
        exact hmore.frame rfl rfl
    · have hidx : (idx : Int) = t.process.softFilterPxCount + numPixels := by omega
      refine ⟨a, .refl, h.stutter hvalid ?_ ?_ ?_ rfl rfl⟩
      · simp [Threads.header, softFinish_eq]
      · simp only [Threads.softFiltered, hpc, hidx]
        split_ifs <;> rfl
      · simp [Threads.hardFiltered, Threads.header, softFinish_eq]

theorem Threads.Abstracts.hardStep {t t' : Threads}
    {a : Pipeline load.total load.split}
    (h : t.Abstracts conv load pixels a) (hfits : load.total ≤ decryptedSectorSize)
    (hstep : t.hardStep conv = some t') :
    ∃ b, Pipeline.Steps a b ∧ t'.Abstracts conv load pixels b := by
  have hvalid := h.valid.hardStep hstep
  have hhard := h.valid.hard
  have hnonneg := h.valid.consistent.hard_nonneg
  have hsplit := h.valid.consistent.filterHpsStart
  have hback := h.back
  unfold Threads.hardStep at hstep
  split at hstep
  next => contradiction
  next => contradiction
  next hpc =>
    split_ifs at hstep <;> cases hstep
    · exact ⟨a, .refl, h⟩
    · refine ⟨a, .refl, h.stutter hvalid rfl rfl ?_ rfl rfl⟩
      simp [Threads.hardFiltered, hpc]
  next hpc =>
    cases hstep
    refine ⟨a, .refl, h.stutter hvalid rfl rfl ?_ rfl rfl⟩
    simp [Threads.hardFiltered, hpc]
  next hpc =>
    cases hstep
    refine ⟨a, .refl, h.stutter hvalid rfl rfl ?_ rfl rfl⟩
    simp only [Threads.hardFiltered, hpc, Threads.header]
    omega
  next idx last numPixels hpc =>
    simp only [hpc, HardPc.Valid] at hhard
    simp only [Threads.hardFiltered, hpc, Threads.header] at hback
    obtain ⟨hflag, hlow, hhigh, hend, hbound⟩ := hhard
    split_ifs at hstep with hloop <;> cases hstep
    · -- one more pixel from the split on
      have hproduced : t.process.header.decryptPxCount = a.produced := h.produced
      have htotal := a.produced_le
      let b : Pipeline load.total load.split :=
        { a with
          back := a.back + 1
          back_le := by omega }
      refine ⟨b, .single (.takeBack a b rfl rfl rfl), ?_⟩
      have hidx : idx = load.split + a.back := by omega
      refine ⟨hvalid, h.produced, h.front, ?_, ?_⟩
      · simp only [Threads.hardFiltered, Threads.filterAt, Threads.header, b]
        omega
      · rw [Pipeline.consumed_takeBack (a := a) (b := b) rfl rfl, hidx]
        have hmore := h.filtered.filterAt h.valid.consistent hfits
          (by omega : load.split + a.back < load.total) a.back_not_consumed
        exact hmore.frame rfl rfl
    · refine ⟨a, .refl, h.stutter hvalid ?_ ?_ ?_ rfl rfl⟩
      · simp [Threads.header, hardFinish_eq]
      · simp [Threads.softFiltered]
      · have hidx : (idx : Int) - t.process.header.filterHpsStart =
            t.process.hardFilterPxCount + numPixels := by omega
        simp only [Threads.hardFiltered, hpc, Threads.header, hidx]
        split_ifs <;> rfl

theorem threads_refine (hfits : load.total ≤ decryptedSectorSize) :
    (simulator conv load pixels).Refines Pipeline.Step
      (Threads.Abstracts conv load pixels) := by
  intro t thread t' a h hstep
  cases thread with
  | main => exact h.mainStep hstep
  | soft => exact h.softStep hfits hstep
  | hard => exact h.hardStep hfits hstep

theorem exists_abstracts (hfits : load.total ≤ decryptedSectorSize) {t : Threads}
    (ht : (simulator conv load pixels).Reachable t) :
    ∃ a, t.Abstracts conv load pixels a := by
  obtain ⟨t₀, events, rfl, hrun⟩ := System.reachable_iff_run.mp ht
  obtain ⟨a, -, ha⟩ :=
    (threads_refine hfits).run (abstracts_threads hfits) hrun
  exact ⟨a, ha⟩

/-! ## The result -/

/--
The filtered sector after `s` pixels of the soft core and `c` of the hard core:
these are filtered, all the other bytes are zero.
-/
def HoldsFiltered (conv : FloatToU8) (load : Load) (pixels : Nat → UInt8)
    (sdram : Nat → UInt8) (s c : Int) : Prop :=
  ∀ i : Nat,
    sdram (filteredImageSector + i) =
      if i < s ∨ load.split ≤ i ∧ i < load.split + c then
        filterPixel conv pixels i load.w load.h
      else 0

theorem Threads.Abstracts.holdsFiltered {t : Threads}
    {a : Pipeline load.total load.split}
    (h : t.Abstracts conv load pixels a) :
    HoldsFiltered conv load pixels t.sdram t.softFiltered t.hardFiltered := by
  intro i
  rw [h.front, h.back]
  split_ifs with hdone
  · exact h.filtered.table.filled i (Pipeline.mem_consumed.mpr (by omega))
  · refine h.filtered.table.blank i (fun hmem => hdone ?_)
    have hmem' := Pipeline.mem_consumed.mp hmem
    omega

/-- Neither core is inside `apply_filter`. -/
def Threads.Outside (t : Threads) : Prop :=
  (∀ idx last numPixels, t.soft ≠ .filtering idx last numPixels) ∧
    ∀ idx last numPixels, t.hard ≠ .filtering idx last numPixels

theorem Threads.Outside.softFiltered {t : Threads} (h : t.Outside) :
    t.softFiltered = t.process.softFilterPxCount := by
  unfold Threads.softFiltered
  split
  next idx last numPixels hpc => exact absurd hpc (h.1 _ _ _)
  next => rfl

theorem Threads.Outside.hardFiltered {t : Threads} (h : t.Outside) :
    t.hardFiltered = t.process.hardFilterPxCount := by
  unfold Threads.hardFiltered
  split
  next idx last numPixels hpc => exact absurd hpc (h.2 _ _ _)
  next => rfl

theorem Threads.Valid.outside {t : Threads} (h : t.Valid load)
    (hnios : t.header.niosFilterDone = true)
    (hhps : t.header.hpsFilterDone = true) : t.Outside := by
  constructor
  · intro idx last numPixels hpc
    have hsoft := h.soft
    rw [hpc] at hsoft
    exact absurd hnios (by simp [Threads.header, hsoft.1])
  · intro idx last numPixels hpc
    have hhard := h.hard
    rw [hpc] at hhard
    exact absurd hhps (by simp [Threads.header, hhard.1])

theorem Threads.Abstracts.complete {t : Threads}
    {a : Pipeline load.total load.split}
    (h : t.Abstracts conv load pixels a)
    (hnios : t.header.niosFilterDone = true)
    (hhps : t.header.hpsFilterDone = true) {i : Nat} (hi : i < load.total) :
    i ∈ a.consumed := by
  have houtside := h.valid.outside hnios hhps
  have hfront := h.front
  have hback := h.back
  have hsoft := h.valid.consistent.niosFilterDone hnios
  have hhard := h.valid.consistent.hpsFilterDone hhps
  rw [houtside.softFiltered] at hfront
  rw [houtside.hardFiltered] at hback
  exact a.consumed_all (by omega) (by omega) hi

end EndToEnd

/--
End-to-end correctness of the simulated filter, in every reachable state: the
filtered sector holds exactly the pixels filtered so far, the decrypted sector
is as loaded, no index is written twice or outside the image, and once both
flags are up the whole image is filtered.
-/
theorem filtered_exactly_once (conv : FloatToU8) (load : Load)
    (pixels : Nat → UInt8) (_hsplit : 0 < load.split)
    (hfits : load.total ≤ decryptedSectorSize) (t : Threads)
    (ht : (simulator conv load pixels).Reachable t) :
    HoldsFiltered conv load pixels t.sdram t.softFiltered t.hardFiltered ∧
    (t.Outside →
      HoldsFiltered conv load pixels t.sdram
        t.process.softFilterPxCount t.process.hardFilterPxCount) ∧
    (∀ i < decryptedSectorSize, t.sdram (decryptedImageSector + i) =
      loadedSdram load pixels (decryptedImageSector + i)) ∧
    t.written.Nodup ∧
    (∀ i ∈ t.written, i < load.total) ∧
    (t.header.niosFilterDone = true → t.header.hpsFilterDone = true →
      ∀ i < load.total, t.sdram (filteredImageSector + i) =
        filterPixel conv pixels i load.w load.h) := by
  obtain ⟨a, h⟩ := exists_abstracts hfits ht
  refine ⟨h.holdsFiltered, ?_, h.filtered.image, h.filtered.nodup, ?_, ?_⟩
  · intro houtside
    rw [← houtside.softFiltered, ← houtside.hardFiltered]
    exact h.holdsFiltered
  · intro i hi
    exact a.consumed_lt_total ((h.filtered.mem_written i).mp hi)
  · intro hnios hhps i hi
    exact h.filtered.table.filled i (h.complete hnios hhps hi)

theorem filtered_exactly_once_two_pixels :
    ∃ t : Threads,
      (simulator ⟨fun n => UInt8.ofNat n.toNat, fun v => by simp⟩
        ⟨2, 1, 1, by decide, by decide, by decide⟩
        (fun i => if i = 0 then 10 else 200)).Reachable t ∧
      t.written = [0, 1] ∧
      t.sdram filteredImageSector = 190 ∧
      ∀ i < 2, t.sdram (filteredImageSector + i) =
        filterPixel ⟨fun n => UInt8.ofNat n.toNat, fun v => by simp⟩
          (fun i => if i = 0 then 10 else 200) i 2 1 := by
  have hreachable := System.reachable_iff_run
    (M := simulator ⟨fun n => UInt8.ofNat n.toNat, fun v => by simp⟩
      ⟨2, 1, 1, by decide, by decide, by decide⟩
      (fun i => if i = 0 then 10 else 200))
    |>.mpr ⟨_, [.main, .main, .main, .soft, .main, .hard, .hard, .main, .hard,
      .hard, .soft, .soft, .hard], rfl, rfl⟩
  have hfiltered := (filtered_exactly_once _ _ _ (by decide) (by decide) _
    hreachable).2.2.2.2.2 rfl rfl
  refine ⟨_, hreachable, rfl, ?_, hfiltered⟩
  exact (hfiltered 0 (by decide)).trans (by decide +kernel)

end NiosHps.Simulator
