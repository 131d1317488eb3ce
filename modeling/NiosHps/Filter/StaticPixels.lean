import NiosHps.Filter.Pixel
import NiosHps.Foundation.System

/-!
# The static array of `filter_pixel`

`pixels[9]` is a static of the function, and the simulator calls the function
from two threads.  A call is nine stores into the array followed by nine loop
iterations, each of which reads one cell; the accumulator is private.  A cell
remembers which call stored it, which no step reads.
-/

namespace NiosHps.Filter

open NiosHps.Foundation

inductive Core where
  | soft
  | hard
  deriving DecidableEq, Repr

def Core.other : Core → Core
  | .soft => .hard
  | .hard => .soft

structure Cell where
  value : UInt8
  writer : Option Core
  deriving DecidableEq, Repr

/-- `pc` counts the stores and the iterations that the call has made. -/
structure Call where
  pc : Nat
  result : ℚ

structure Calls where
  pixels : Fin 9 → Cell
  call : Core → Call

namespace Calls

def stepCall (own : Fin 9 → UInt8) (core : Core) (s : Calls) : Option Calls :=
  let call := s.call core
  if hstore : call.pc < 9 then
    some
      { pixels := Function.update s.pixels ⟨call.pc, hstore⟩
          ⟨own ⟨call.pc, hstore⟩, some core⟩
        call := Function.update s.call core { call with pc := call.pc + 1 } }
  else if hloop : call.pc - 9 < 9 then
    let i : Fin 9 := ⟨call.pc - 9, hloop⟩
    some
      { s with
        call := Function.update s.call core
          ⟨call.pc + 1, call.result + (s.pixels i).value.toNat * filter i⟩ }
  else none

end Calls

/-- Two calls, started on whatever the array holds. -/
def race (own : Core → Fin 9 → UInt8) : System Calls Core where
  init s := (∀ core, s.call core = ⟨0, 0⟩) ∧ ∀ k, (s.pixels k).writer = none
  step s core := s.stepCall (own core) core

def pixelOf (i j : Nat) : Core → Nat
  | .soft => i
  | .hard => j

def twoPixels (image : Nat → UInt8) (w h i j : Nat) (core : Core) :
    Fin 9 → UInt8 :=
  samples image (pixelOf i j core) w h

/-- The iteration that `core` is about to make reads no foreign pixel. -/
def Calls.Undisturbed (own : Core → Fin 9 → UInt8) (s : Calls) : Prop :=
  ∀ core (k : Fin 9), (s.call core).pc = 9 + k →
    ¬((s.pixels k).writer = some core.other ∧ (s.pixels k).value ≠ own core k)

/-- A call that has returned has returned its filtered pixel. -/
def Calls.ReturnsAlone (conv : FloatToU8) (image : Nat → UInt8) (w h i j : Nat)
    (s : Calls) : Prop :=
  ∀ core, (s.call core).pc = 18 →
    conv.toFun (round (s.call core).result) =
      filterPixel conv image (pixelOf i j core) w h

section Steps

variable (own : Core → Fin 9 → UInt8) {s : Calls} {core : Core}

theorem weightingLoop_succ (pixels : Fin 9 → UInt8) {n : Nat} (hn : n < 9) :
    weightingLoop pixels (n + 1) =
      weightingLoop pixels n + (pixels ⟨n, hn⟩).toNat * filter ⟨n, hn⟩ := by
  simp [weightingLoop, hn]

theorem Core.other_ne (core : Core) : core.other ≠ core := by
  cases core <;> simp [Core.other]

theorem step_store (hpc : (s.call core).pc < 9) :
    (race own).step s core =
      some
        { pixels := Function.update s.pixels ⟨(s.call core).pc, hpc⟩
            ⟨own core ⟨(s.call core).pc, hpc⟩, some core⟩
          call := Function.update s.call core
            { s.call core with pc := (s.call core).pc + 1 } } := by
  simp [race, Calls.stepCall, hpc]

theorem step_iterate {n : Nat} (hn : n < 9) (hpc : (s.call core).pc = 9 + n) :
    (race own).step s core =
      some
        { s with
          call := Function.update s.call core
            ⟨9 + n + 1, (s.call core).result +
              (s.pixels ⟨n, hn⟩).value.toNat * filter ⟨n, hn⟩⟩ } := by
  simp [race, Calls.stepCall, hpc, hn]

theorem step_returned (hpc : 18 ≤ (s.call core).pc) :
    (race own).step s core = none := by
  have hstore : ¬(s.call core).pc < 9 := by omega
  have hloop : ¬(s.call core).pc - 9 < 9 := by omega
  simp [race, Calls.stepCall, hstore, hloop]

theorem exists_stored (core : Core) (hstart : s.call core = ⟨0, 0⟩) (n : Nat)
    (hn : n ≤ 9) :
    ∃ s', (race own).run s (List.replicate n core) = some s' ∧
      s'.call core = ⟨n, 0⟩ ∧ s'.call core.other = s.call core.other ∧
      ∀ k : Fin 9, (k : Nat) < n → s'.pixels k = ⟨own core k, some core⟩ := by
  induction n with
  | zero => exact ⟨s, rfl, hstart, rfl, by simp⟩
  | succ n ih =>
      obtain ⟨s', hrun, hcall, hother, hstored⟩ := ih (by omega)
      have hpc : (s'.call core).pc < 9 := by
        simp only [hcall]
        omega
      refine ⟨_, System.run_replicate_succ hrun (step_store own hpc), ?_, ?_, ?_⟩
      · simp [hcall]
      · simp only [Function.update_of_ne core.other_ne, hother]
      · intro k hk
        simp only [hcall]
        by_cases hkn : k = ⟨n, by omega⟩
        · rw [hkn]
          simp
        · have hlt : (k : Nat) < n := by
            have hne : (k : Nat) ≠ n := fun h => hkn (Fin.ext h)
            omega
          rw [Function.update_of_ne hkn]
          exact hstored k hlt

theorem exists_iterated (core : Core) (hstart : s.call core = ⟨9, 0⟩) (n : Nat)
    (hn : n ≤ 9) :
    ∃ s', (race own).run s (List.replicate n core) = some s' ∧
      s'.pixels = s.pixels ∧
      s'.call core =
        ⟨9 + n, weightingLoop (fun k => (s.pixels k).value) n⟩ := by
  induction n with
  | zero => exact ⟨s, rfl, rfl, hstart⟩
  | succ n ih =>
      obtain ⟨s', hrun, hpixels, hcall⟩ := ih (by omega)
      have hpc : (s'.call core).pc = 9 + n := by rw [hcall]
      refine ⟨_, System.run_replicate_succ hrun (step_iterate own (by omega) hpc),
        hpixels, ?_⟩
      simp only [Function.update_self, hcall, hpixels,
        weightingLoop_succ _ (by omega : n < 9), Nat.add_assoc]

end Steps

/-! ## A call alone -/

theorem alone_returns (conv : FloatToU8) (image : Nat → UInt8) (w h i j : Nat)
    (core : Core) {s : Calls} (hs : (race (twoPixels image w h i j)).init s) :
    ∃ s', (race (twoPixels image w h i j)).run s (List.replicate 18 core) =
        some s' ∧
      (s'.call core).pc = 18 ∧
      conv.toFun (round (s'.call core).result) =
        filterPixel conv image (pixelOf i j core) w h := by
  obtain ⟨s₁, hrun₁, hcall₁, -, hstored⟩ :=
    exists_stored (twoPixels image w h i j) core (hs.1 core) 9 le_rfl
  obtain ⟨s₂, hrun₂, -, hcall₂⟩ :=
    exists_iterated (twoPixels image w h i j) core hcall₁ 9 le_rfl
  have hvalues : (fun k => (s₁.pixels k).value) = twoPixels image w h i j core :=
    funext fun k => by rw [hstored k k.isLt]
  refine ⟨s₂, ?_, by rw [hcall₂], ?_⟩
  · rw [show 18 = 9 + 9 from rfl, List.replicate_add, System.run_append, hrun₁]
    exact hrun₂
  · rw [hcall₂, hvalues]
    rfl

/-! ## Calls with the same samples -/

structure Agrees (v : Fin 9 → UInt8) (s : Calls) : Prop where
  value : ∀ k, (s.pixels k).writer ≠ none → (s.pixels k).value = v k
  stored : ∀ core (k : Fin 9), (k : Nat) < (s.call core).pc →
    (s.pixels k).writer ≠ none
  result : ∀ core,
    (s.call core).result = weightingLoop v ((s.call core).pc - 9)

theorem Agrees.store {own : Core → Fin 9 → UInt8} {v : Fin 9 → UInt8}
    (hown : ∀ core, own core = v) {s s' : Calls} {core : Core}
    (h : Agrees v s) (hpc : (s.call core).pc < 9)
    (hstep : (race own).step s core = some s') : Agrees v s' := by
  rw [step_store own hpc] at hstep
  cases hstep
  refine ⟨fun k hk => ?_, fun c k hk => ?_, fun c => ?_⟩
  · by_cases hcell : k = ⟨(s.call core).pc, hpc⟩
    · rw [hcell]
      simp [hown]
    · simp only [Function.update_of_ne hcell] at hk ⊢
      exact h.value k hk
  · by_cases hcell : k = ⟨(s.call core).pc, hpc⟩
    · rw [hcell]
      simp
    · have hne : (k : Nat) ≠ (s.call core).pc := fun heq => hcell (Fin.ext heq)
      simp only [Function.update_of_ne hcell]
      by_cases hc : c = core
      · subst hc
        simp only [Function.update_self] at hk
        exact h.stored c k (by omega)
      · simp only [Function.update_of_ne hc] at hk
        exact h.stored c k hk
  · by_cases hc : c = core
    · subst hc
      simp only [Function.update_self, h.result c]
      rw [show (s.call c).pc + 1 - 9 = (s.call c).pc - 9 by omega]
    · simp only [Function.update_of_ne hc]
      exact h.result c

theorem Agrees.iterate {own : Core → Fin 9 → UInt8} {v : Fin 9 → UInt8}
    {s s' : Calls} {core : Core} (h : Agrees v s) {n : Nat} (hn : n < 9)
    (hpc : (s.call core).pc = 9 + n)
    (hstep : (race own).step s core = some s') : Agrees v s' := by
  rw [step_iterate own hn hpc] at hstep
  cases hstep
  refine ⟨h.value, fun c k hk => ?_, fun c => ?_⟩
  · by_cases hc : c = core
    · subst hc
      exact h.stored c k (by omega)
    · simp only [Function.update_of_ne hc] at hk
      exact h.stored c k hk
  · by_cases hc : c = core
    · subst hc
      have hcell := h.value ⟨n, hn⟩
        (h.stored c ⟨n, hn⟩ (by simp only [hpc]; omega))
      have hresult := h.result c
      rw [hpc, Nat.add_sub_cancel_left] at hresult
      simp only [Function.update_self, hcell, hresult]
      rw [Nat.add_assoc, Nat.add_sub_cancel_left, weightingLoop_succ v hn]
    · simp only [Function.update_of_ne hc]
      exact h.result c

theorem agrees_inductive {own : Core → Fin 9 → UInt8} {v : Fin 9 → UInt8}
    (hown : ∀ core, own core = v) : (race own).Inductive (Agrees v) where
  init s hs := by
    constructor
    · intro k hk
      exact absurd (hs.2 k) hk
    · intro core k hk
      simp [hs.1 core] at hk
    · intro core
      simp [hs.1 core, weightingLoop]
  step s core s' h hstep := by
    by_cases hstore : (s.call core).pc < 9
    · exact h.store hown hstore hstep
    · obtain ⟨n, hpc⟩ := Nat.exists_eq_add_of_le (not_lt.mp hstore)
      by_cases hn : n < 9
      · exact h.iterate hn hpc hstep
      · rw [step_returned own (by omega)] at hstep
        contradiction

/-! ## Calls with different samples -/

/--
The hard call stores all its samples between the stores and the loop of the
soft call; the soft call then reads the first sample in which they differ.
-/
theorem exists_disturbed (own : Core → Fin 9 → UInt8) (k : Fin 9)
    (hne : own .soft k ≠ own .hard k) :
    ∃ s, (race own).Reachable s ∧ ¬s.Undisturbed own := by
  let s₀ : Calls := ⟨fun _ => ⟨0, none⟩, fun _ => ⟨0, 0⟩⟩
  have hinit : (race own).init s₀ := ⟨fun _ => rfl, fun _ => rfl⟩
  obtain ⟨s₁, hrun₁, hsoft₁, hhard₁, -⟩ :=
    exists_stored own .soft (hinit.1 .soft) 9 le_rfl
  obtain ⟨s₂, hrun₂, -, hsoft₂, hstored⟩ := exists_stored own .hard hhard₁ 9 le_rfl
  obtain ⟨s₃, hrun₃, hpixels, hcall⟩ :=
    exists_iterated own .soft (hsoft₂.trans hsoft₁) k (by omega)
  have hreachable := (((System.Reachable.init hinit).run hrun₁).run hrun₂).run hrun₃
  refine ⟨s₃, hreachable, fun h => h .soft k (congrArg Call.pc hcall) ?_⟩
  rw [hpixels, hstored k k.isLt]
  exact ⟨rfl, hne.symm⟩

/--
Two calls of `filter_pixel` never disturb each other, in any interleaving, if
and only if their nine samples agree cell by cell.
-/
theorem calls_undisturbed_iff (conv : FloatToU8) (image : Nat → UInt8)
    (w h i j : Nat) :
    (∀ s, (race (twoPixels image w h i j)).Reachable s →
      s.Undisturbed (twoPixels image w h i j) ∧
      s.ReturnsAlone conv image w h i j) ↔
    ∀ k, image (sampleIndex i w h k) = image (sampleIndex j w h k) := by
  constructor
  · intro hall k
    by_contra hne
    obtain ⟨s, hs, hdisturbed⟩ :=
      exists_disturbed (twoPixels image w h i j) k hne
    exact hdisturbed (hall s hs).1
  · intro hagree s hs
    have hsame : samples image i w h = samples image j w h := funext hagree
    have hown : ∀ core, twoPixels image w h i j core = samples image i w h := by
      intro core
      cases core with
      | soft => rfl
      | hard => exact hsame.symm
    have h := (agrees_inductive hown).reachable hs
    constructor
    · rintro core k hpc ⟨hwriter, hvalue⟩
      rw [hown] at hvalue
      exact hvalue (h.value k (by simp [hwriter]))
    · intro core hpc
      rw [h.result core, hpc, filterPixel]
      exact congrArg (fun v => conv.toFun (round (weightingLoop v 9)))
        (hown core).symm

theorem calls_disturbed :
    ¬∀ (conv : FloatToU8) (image : Nat → UInt8) (w h i j : Nat),
      i < w * h → j < w * h →
      ∀ s, (race (twoPixels image w h i j)).Reachable s →
        s.Undisturbed (twoPixels image w h i j) ∧
        s.ReturnsAlone conv image w h i j := by
  intro hall
  let image : Nat → UInt8 := fun i => if i = 0 then 0 else 1
  let conv : FloatToU8 := ⟨fun n => UInt8.ofNat n.toNat, fun v => by simp⟩
  obtain ⟨s, hs, hdisturbed⟩ :=
    exists_disturbed (twoPixels image 2 1 0 1) 1 (by decide)
  exact hdisturbed
    (hall conv image 2 1 0 1 (by decide) (by decide) s hs).1

end NiosHps.Filter
