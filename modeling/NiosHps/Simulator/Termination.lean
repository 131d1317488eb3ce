import NiosHps.Foundation.Fairness
import NiosHps.Simulator.EndToEnd

/-!
# The simulator ends under every fair schedule

Under a schedule that runs each of the three threads again and again, `main`
decrypts the image, the soft core finishes its share, the hard core finishes
its own, and `main` leaves its wait and saves.  Each phase has one helpful
thread and a rank that only this thread lowers; what a core does with a batch
that it measured before decryption was over is part of the rank.

The state in which everything stops is the same for all these schedules.
-/

namespace NiosHps.Simulator

open NiosHps.Foundation
open NiosHps.Filter

def MainPc.Decrypted (pc : MainPc) : Prop := pc = .waiting ∨ pc = .saved

/-- What the place of `main` says about the header and the other threads. -/
structure Threads.Running (load : Load) (t : Threads) : Prop where
  valid : t.Valid load
  imageCopyDone : t.header.imageCopyDone = true
  soft_started : t.main ≠ .startSoft → t.soft ≠ .notStarted
  hard_started : t.main ≠ .startSoft → t.main ≠ .startHard →
    t.hard = .notStarted → t.header.hpsFilterDone = true
  decrypted : t.main.Decrypted → t.header.decryptDone = true
  saved : t.main = .saved →
    t.header.niosFilterDone = true ∧ t.header.hpsFilterDone = true

section Termination

variable {conv : FloatToU8} {load : Load} {pixels : Nat → UInt8}

/-! ## What a thread leaves alone -/

structure SoftFrame (t t' : Threads) : Prop where
  main : t'.main = t.main
  hard : t'.hard = t.hard
  hardFilterPxCount : t'.process.hardFilterPxCount = t.process.hardFilterPxCount
  header : ∃ done, t'.header = { t.header with niosFilterDone := done } ∧
    (t.header.niosFilterDone = true → done = true)
  started : t.soft ≠ .notStarted ∧ t'.soft ≠ .notStarted

structure HardFrame (t t' : Threads) : Prop where
  main : t'.main = t.main
  soft : t'.soft = t.soft
  softFilterPxCount : t'.process.softFilterPxCount = t.process.softFilterPxCount
  header : ∃ done, t'.header = { t.header with hpsFilterDone := done } ∧
    (t.header.hpsFilterDone = true → done = true)
  started : t.hard ≠ .notStarted ∧ t'.hard ≠ .notStarted

theorem Threads.softStep_frame {t t' : Threads}
    (hstep : t.softStep conv = some t') : SoftFrame t t' := by
  unfold Threads.softStep at hstep
  split at hstep
  next => contradiction
  next => contradiction
  next hpc =>
    cases hstep
    exact ⟨rfl, rfl, rfl, ⟨_, rfl, id⟩, by simp [hpc]⟩
  next idx last numPixels hpc =>
    split_ifs at hstep with hloop <;> cases hstep
    · exact ⟨rfl, rfl, rfl, ⟨_, rfl, id⟩, by simp [hpc]⟩
    · refine ⟨rfl, rfl, rfl, ⟨_, softFinish_eq _ _, fun hdone => ?_⟩, ?_⟩
      · rw [show t.process.header.niosFilterDone = true from hdone, Bool.true_or]
      · simp only [hpc]
        split_ifs <;> simp

theorem Threads.hardStep_frame {t t' : Threads}
    (hstep : t.hardStep conv = some t') : HardFrame t t' := by
  unfold Threads.hardStep at hstep
  split at hstep
  next => contradiction
  next => contradiction
  next hpc =>
    split_ifs at hstep <;> cases hstep
    · exact ⟨rfl, rfl, rfl, ⟨_, rfl, id⟩, by simp [hpc]⟩
    · exact ⟨rfl, rfl, rfl, ⟨_, rfl, id⟩, by simp [hpc]⟩
  next hpc =>
    cases hstep
    exact ⟨rfl, rfl, rfl, ⟨_, rfl, id⟩, by simp [hpc]⟩
  next hpc =>
    cases hstep
    exact ⟨rfl, rfl, rfl, ⟨_, rfl, id⟩, by simp [hpc]⟩
  next idx last numPixels hpc =>
    split_ifs at hstep with hloop <;> cases hstep
    · exact ⟨rfl, rfl, rfl, ⟨_, rfl, id⟩, by simp [hpc]⟩
    · refine ⟨rfl, rfl, rfl, ⟨_, hardFinish_eq _ _, fun hdone => ?_⟩, ?_⟩
      · rw [show t.process.header.hpsFilterDone = true from hdone, Bool.true_or]
      · simp only [hpc]
        split_ifs <;> simp

theorem Threads.mainStep_cases {t t' : Threads} (hstep : t.mainStep = some t') :
    (t.main = .startSoft ∧
      t' = { t with main := .startHard, soft := .sleeping }) ∨
    (t.main = .startHard ∧ hardStarted t.header = true ∧
      t' = { t with main := .decrypting, hard := .sleeping }) ∨
    (t.main = .startHard ∧ hardStarted t.header = false ∧
      t' = { t.setHeader (startHard t.header) with main := .decrypting }) ∨
    (t.main = .decrypting ∧ ∃ header, mainLoopSoftCore t.header = some header ∧
      t' = t.setHeader header) ∨
    (t.main = .decrypting ∧ mainLoopSoftCore t.header = none ∧
      t' = { t with main := .waiting }) ∨
    (t.main = .waiting ∧ t.header.niosFilterDone = true ∧
      t.header.hpsFilterDone = true ∧ t' = { t with main := .saved }) ∨
    (t.main = .waiting ∧
      ¬(t.header.niosFilterDone = true ∧ t.header.hpsFilterDone = true) ∧
      t' = t) := by
  unfold Threads.mainStep at hstep
  split at hstep
  next hpc => exact .inl ⟨hpc, (Option.some.inj hstep).symm⟩
  next hpc =>
    split_ifs at hstep with hstarted
    · exact .inr (.inl ⟨hpc, hstarted, (Option.some.inj hstep).symm⟩)
    · exact .inr (.inr (.inl ⟨hpc, eq_false_of_ne_true hstarted,
        (Option.some.inj hstep).symm⟩))
  next hpc =>
    split at hstep
    next header hheader =>
      exact .inr (.inr (.inr (.inl
        ⟨hpc, header, hheader, (Option.some.inj hstep).symm⟩)))
    next hheader =>
      exact .inr (.inr (.inr (.inr (.inl
        ⟨hpc, hheader, (Option.some.inj hstep).symm⟩))))
  next hpc =>
    split_ifs at hstep with hflags
    · exact .inr (.inr (.inr (.inr (.inr (.inl
        ⟨hpc, hflags.1, hflags.2, (Option.some.inj hstep).symm⟩)))))
    · exact .inr (.inr (.inr (.inr (.inr (.inr
        ⟨hpc, hflags, (Option.some.inj hstep).symm⟩)))))
  next => contradiction

theorem mainLoopSoftCore_eq_none {header : SharedHeader}
    (hstep : mainLoopSoftCore header = none) :
    header.decryptPxCount = header.imageW * header.imageH ∧
      header.decryptDone = true := by
  unfold mainLoopSoftCore at hstep
  split_ifs at hstep with hrest hdone
  exact ⟨not_not.mp hrest, hdone⟩

/-! ## The invariant -/

theorem Threads.Running.mainStep {t t' : Threads} (h : t.Running load)
    (hstep : t.mainStep = some t') : t'.Running load := by
  have hvalid := h.valid.mainStep hstep
  obtain ⟨hpc, rfl⟩ | ⟨hpc, hhard, rfl⟩ | ⟨hpc, hhard, rfl⟩ |
    ⟨hpc, header, hheader, rfl⟩ | ⟨hpc, hheader, rfl⟩ |
    ⟨hpc, hnios, hhps, rfl⟩ | ⟨hpc, -, rfl⟩ := Threads.mainStep_cases hstep
  · exact
      { valid := hvalid
        imageCopyDone := h.imageCopyDone
        soft_started := by simp
        hard_started := by simp
        decrypted := by simp [MainPc.Decrypted]
        saved := by simp }
  · exact
      { valid := hvalid
        imageCopyDone := h.imageCopyDone
        soft_started := fun _ => h.soft_started (by simp [hpc])
        hard_started := by simp
        decrypted := by simp [MainPc.Decrypted]
        saved := by simp }
  · exact
      { valid := hvalid
        imageCopyDone := by
          simpa [Threads.setHeader, startHard_eq] using h.imageCopyDone
        soft_started := fun _ => h.soft_started (by simp [hpc])
        hard_started := fun _ _ _ => by
          simp [Threads.setHeader, startHard_eq, hhard]
        decrypted := by simp [MainPc.Decrypted]
        saved := by simp }
  · obtain ⟨-, -, hhps⟩ := mainLoopSoftCore_frame hheader
    have hcopied : header.imageCopyDone = t.header.imageCopyDone := by
      obtain ⟨-, rfl⟩ | ⟨-, rfl⟩ := mainLoopSoftCore_eq_some hheader <;> rfl
    exact
      { valid := hvalid
        imageCopyDone := hcopied.trans h.imageCopyDone
        soft_started := h.soft_started
        hard_started := fun hsoft hhard hnot =>
          hhps.trans (h.hard_started hsoft hhard hnot)
        decrypted := by simp [Threads.setHeader, hpc, MainPc.Decrypted]
        saved := by simp [Threads.setHeader, hpc] }
  · exact
      { valid := hvalid
        imageCopyDone := h.imageCopyDone
        soft_started := fun _ => h.soft_started (by simp [hpc])
        hard_started := fun _ _ => h.hard_started (by simp [hpc]) (by simp [hpc])
        decrypted := fun _ => (mainLoopSoftCore_eq_none hheader).2
        saved := by simp }
  · exact
      { valid := hvalid
        imageCopyDone := h.imageCopyDone
        soft_started := fun _ => h.soft_started (by simp [hpc])
        hard_started := fun _ _ => h.hard_started (by simp [hpc]) (by simp [hpc])
        decrypted := fun _ => h.decrypted (.inl hpc)
        saved := fun _ => ⟨hnios, hhps⟩ }
  · exact h

theorem Threads.Running.softStep {t t' : Threads} (h : t.Running load)
    (hstep : t.softStep conv = some t') : t'.Running load := by
  have hframe := Threads.softStep_frame hstep
  obtain ⟨done, hheader, hkept⟩ := hframe.header
  exact
    { valid := h.valid.softStep hstep
      imageCopyDone := by rw [hheader]; exact h.imageCopyDone
      soft_started := fun _ => hframe.started.2
      hard_started := by
        rw [hframe.main, hframe.hard, hheader]
        exact h.hard_started
      decrypted := by rw [hframe.main, hheader]; exact h.decrypted
      saved := by
        rw [hframe.main, hheader]
        exact fun hmain => ⟨hkept (h.saved hmain).1, (h.saved hmain).2⟩ }

theorem Threads.Running.hardStep {t t' : Threads} (h : t.Running load)
    (hstep : t.hardStep conv = some t') : t'.Running load := by
  have hframe := Threads.hardStep_frame hstep
  obtain ⟨done, hheader, hkept⟩ := hframe.header
  exact
    { valid := h.valid.hardStep hstep
      imageCopyDone := by rw [hheader]; exact h.imageCopyDone
      soft_started := by rw [hframe.main, hframe.soft]; exact h.soft_started
      hard_started := fun _ _ hnot => absurd hnot hframe.started.2
      decrypted := by rw [hframe.main, hheader]; exact h.decrypted
      saved := by
        rw [hframe.main, hheader]
        exact fun hmain => ⟨(h.saved hmain).1, hkept (h.saved hmain).2⟩ }

theorem Threads.Running.step {t t' : Threads} {thread : Thread}
    (h : t.Running load) (hstep : t.step conv thread = some t') :
    t'.Running load := by
  cases thread with
  | main => exact h.mainStep hstep
  | soft => exact h.softStep hstep
  | hard => exact h.hardStep hstep

/-! ## Decryption -/

/--
The steps left to the soft core once decryption is over.  A batch that ends
before the split was measured earlier, and another tick follows it.
-/
def SoftPc.rank (load : Load) : SoftPc → Nat
  | .notStarted | .exited => 0
  | .sleeping => load.split + 2
  | .filtering idx last _ =>
      if last = load.split then last - idx + 1 else last - idx + load.split + 3

theorem Threads.Running.decryptPxCount {t : Threads} (h : t.Running load)
    (hmain : t.main.Decrypted) : t.header.decryptPxCount = load.total :=
  h.valid.consistent.decryptDone (h.decrypted hmain)

/--
The steps left to the hard core once decryption is over, after `count` of its
pixels.  Here a batch measured earlier may still wait at the test.
-/
def HardPc.rank (load : Load) (count : Int) : HardPc → Nat
  | .notStarted | .exited => 0
  | .sleeping => load.total + 4
  | .counting => load.total + 3
  | .testing unfiltered =>
      if load.split + count + unfiltered = load.total then load.total + 2
      else 2 * load.total + 7
  | .filtering idx last _ =>
      if last = load.total then last - idx + 1 else last - idx + load.total + 5

attribute [ext] SharedHeader Process

def Load.finished (load : Load) : Process where
  header :=
    { load.header with
      decryptPxCount := load.total
      decryptDone := true
      niosFilterDone := true
      hpsFilterDone := true }
  softFilterPxCount := load.split
  hardFilterPxCount := load.total - load.split

theorem Threads.Running.finished {t : Threads} (h : t.Running load)
    (hpc : t.main = .saved) : t.process = load.finished := by
  obtain ⟨hnios, hhps⟩ := h.saved hpc
  have hconsistent := h.valid.consistent
  have hcopied := h.imageCopyDone
  have hdone := h.decrypted (.inr hpc)
  have hdecrypt := h.decryptPxCount (.inr hpc)
  have hsoft := hconsistent.niosFilterDone hnios
  have hhard : t.process.hardFilterPxCount = load.total - load.split :=
    eq_sub_of_add_eq' (hconsistent.hpsFilterDone hhps)
  have himageW := hconsistent.imageW
  have himageH := hconsistent.imageH
  have hsplit := hconsistent.filterHpsStart
  exact Process.ext (SharedHeader.ext himageW himageH hcopied hdecrypt hdone
    hsplit hnios hhps) hsoft hhard

end Termination

end NiosHps.Simulator
