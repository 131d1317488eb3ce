import Mathlib.Data.Option.Basic
import Mathlib.Data.List.Basic
import Mathlib.Logic.Relation

/-!
# Event-driven transition systems

A system is a set of initial states and a partial step function: `step s e` is
the state after event `e`, or `none` when `e` cannot happen in `s`.  A schedule
is a list of events, so interleavings of several parties are schedules whose
events name the party that moves.

The two run predicates are the vocabulary of guarded runs: `AllSteps P` speaks
about every step a schedule attempts (the failing one included), `AllStates P`
about every state it visits.
-/

namespace NiosHps.Foundation

structure System (State Event : Type*) where
  init : State → Prop
  step : State → Event → Option State

namespace System

variable {State Event : Type*} (M : System State Event)

def run : State → List Event → Option State
  | s, [] => some s
  | s, e :: events => (M.step s e).bind fun s' => run s' events

def AllSteps (P : State → Event → Prop) : State → List Event → Prop
  | _, [] => True
  | s, e :: events =>
      P s e ∧
        match M.step s e with
        | none => True
        | some s' => AllSteps P s' events

def AllStates (P : State → Prop) : State → List Event → Prop
  | s, [] => P s
  | s, e :: events =>
      P s ∧
        match M.step s e with
        | none => True
        | some s' => AllStates P s' events

inductive Reachable : State → Prop
  | init {s : State} : M.init s → Reachable s
  | step {s s' : State} {e : Event} :
      Reachable s → M.step s e = some s' → Reachable s'

structure Inductive (I : State → Prop) : Prop where
  init : ∀ s, M.init s → I s
  step : ∀ s e s', I s → M.step s e = some s' → I s'

variable {M}

@[simp] theorem run_nil (s : State) : M.run s [] = some s := rfl

theorem run_cons {s : State} {e : Event} {events : List Event} {t : State} :
    M.run s (e :: events) = some t ↔
      ∃ s', M.step s e = some s' ∧ M.run s' events = some t := by
  simp [run, Option.bind_eq_some_iff]

theorem run_append (s : State) (first second : List Event) :
    M.run s (first ++ second) =
      (M.run s first).bind fun s' => M.run s' second := by
  induction first generalizing s with
  | nil => rfl
  | cons e first ih =>
      simp only [List.cons_append, run]
      cases M.step s e with
      | none => rfl
      | some s' => simpa using ih s'

theorem run_append_cons {s t : State} {e : Event} {first second : List Event} :
    M.run s (first ++ e :: second) = some t ↔
      ∃ u v, M.run s first = some u ∧ M.step u e = some v ∧
        M.run v second = some t := by
  simp [run_append, run, Option.bind_eq_some_iff]

theorem run_replicate_succ {s t u : State} {e : Event} {n : Nat}
    (hrun : M.run s (List.replicate n e) = some t) (hstep : M.step t e = some u) :
    M.run s (List.replicate (n + 1) e) = some u := by
  rw [List.replicate_succ', run_append, hrun]
  simp [run, hstep]

theorem Reachable.run {s t : State} {events : List Event}
    (hs : M.Reachable s) (hrun : M.run s events = some t) :
    M.Reachable t := by
  induction events generalizing s with
  | nil =>
      cases hrun
      exact hs
  | cons e events ih =>
      obtain ⟨s', hstep, hrest⟩ := run_cons.mp hrun
      exact ih (hs.step hstep) hrest

def Moves (M : System State Event) (s s' : State) : Prop :=
  ∃ e, M.step s e = some s'

theorem Reachable.moves {s t : State} (hs : M.Reachable s)
    (hpath : Relation.ReflTransGen M.Moves s t) : M.Reachable t := by
  induction hpath with
  | refl => exact hs
  | tail _ hmove ih =>
      obtain ⟨e, hstep⟩ := hmove
      exact ih.step hstep

theorem reachable_iff_run {t : State} :
    M.Reachable t ↔ ∃ s events, M.init s ∧ M.run s events = some t := by
  constructor
  · intro ht
    induction ht with
    | init hs => exact ⟨_, [], hs, rfl⟩
    | @step s s' e _ hstep ih =>
        obtain ⟨s₀, events, hinit, hrun⟩ := ih
        refine ⟨s₀, events ++ [e], hinit, ?_⟩
        simp [run_append, hrun, System.run, hstep]
  · rintro ⟨s, events, hinit, hrun⟩
    exact (Reachable.init hinit).run hrun

theorem Inductive.reachable {I : State → Prop} (hI : M.Inductive I)
    {s : State} (hs : M.Reachable s) : I s := by
  induction hs with
  | init hs => exact hI.init _ hs
  | step _ hstep ih => exact hI.step _ _ _ ih hstep

/-! ## Guarded runs -/

@[simp] theorem allSteps_nil (P : State → Event → Prop) (s : State) :
    M.AllSteps P s [] := trivial

theorem allSteps_cons {P : State → Event → Prop} {s : State} {e : Event}
    {events : List Event} :
    M.AllSteps P s (e :: events) ↔
      P s e ∧ ∀ s', M.step s e = some s' → M.AllSteps P s' events := by
  simp only [AllSteps]
  cases M.step s e <;> simp

theorem allStates_cons {P : State → Prop} {s : State} {e : Event}
    {events : List Event} :
    M.AllStates P s (e :: events) ↔
      P s ∧ ∀ s', M.step s e = some s' → M.AllStates P s' events := by
  simp only [AllStates]
  cases M.step s e <;> simp

theorem AllStates.head {P : State → Prop} {s : State} {events : List Event}
    (h : M.AllStates P s events) : P s := by
  cases events with
  | nil => exact h
  | cons e events => exact (allStates_cons.mp h).1

theorem AllStates.mono {P Q : State → Prop} (hPQ : ∀ s, P s → Q s)
    {s : State} {events : List Event} (h : M.AllStates P s events) :
    M.AllStates Q s events := by
  induction events generalizing s with
  | nil => exact hPQ s h
  | cons e events ih =>
      obtain ⟨hs, hrest⟩ := allStates_cons.mp h
      exact allStates_cons.mpr ⟨hPQ s hs, fun s' hstep => ih (hrest s' hstep)⟩

theorem AllStates.last {P : State → Prop} {s t : State} {events : List Event}
    (h : M.AllStates P s events) (hrun : M.run s events = some t) : P t := by
  induction events generalizing s with
  | nil =>
      cases hrun
      exact h
  | cons e events ih =>
      obtain ⟨s', hstep, hrest⟩ := run_cons.mp hrun
      exact ih ((allStates_cons.mp h).2 s' hstep) hrest

theorem AllSteps.last {P : State → Event → Prop} {s t : State} {e : Event}
    {events : List Event} (h : M.AllSteps P s (events ++ [e]))
    (hrun : M.run s events = some t) : P t e := by
  induction events generalizing s with
  | nil =>
      cases hrun
      exact (allSteps_cons.mp h).1
  | cons e' events ih =>
      obtain ⟨s', hstep, hrest⟩ := run_cons.mp hrun
      exact ih ((allSteps_cons.mp h).2 s' hstep) hrest

/--
The guarded-run rule: an invariant that only guarded steps keep still holds in
every state of a run whose steps all meet the guard.
-/
theorem AllSteps.allStates {I : State → Prop} {guard : State → Event → Prop}
    (hkeep : ∀ s e s', I s → guard s e → M.step s e = some s' → I s')
    {s : State} {events : List Event} (hs : I s)
    (hguard : M.AllSteps guard s events) : M.AllStates I s events := by
  induction events generalizing s with
  | nil => exact hs
  | cons e events ih =>
      obtain ⟨hhead, htail⟩ := allSteps_cons.mp hguard
      refine allStates_cons.mpr ⟨hs, fun s' hstep => ?_⟩
      exact ih (hkeep s e s' hs hhead hstep) (htail s' hstep)

/--
Step properties that are equivalent under an invariant are equivalent along
runs: the invariant only has to survive the steps that have the property.
-/
theorem allSteps_congr {I : State → Prop} {P Q : State → Event → Prop}
    (hiff : ∀ s e, I s → (P s e ↔ Q s e))
    (hkeep : ∀ s e s', I s → Q s e → M.step s e = some s' → I s')
    {s : State} {events : List Event} (hs : I s) :
    M.AllSteps P s events ↔ M.AllSteps Q s events := by
  induction events generalizing s with
  | nil => simp
  | cons e events ih =>
      rw [allSteps_cons, allSteps_cons, hiff s e hs]
      refine and_congr_right fun hq => forall_congr' fun s' => ?_
      exact imp_congr_right fun hstep => ih (hkeep s e s' hs hq hstep)

/--
Where an unguarded step always leads to a violation, the guard is exactly what
keeps a property along runs.
-/
theorem allStates_iff_allSteps {I P : State → Prop}
    {guard : State → Event → Prop} (hholds : ∀ s, I s → P s)
    (hkeep : ∀ s e s', I s → guard s e → M.step s e = some s' → I s')
    (hbreak : ∀ s e, I s → ¬guard s e → ∃ s', M.step s e = some s' ∧ ¬P s')
    {s : State} {events : List Event} (hs : I s) :
    M.AllStates P s events ↔ M.AllSteps guard s events := by
  induction events generalizing s with
  | nil => simp [AllStates, hholds s hs]
  | cons e events ih =>
      rw [allStates_cons, allSteps_cons]
      by_cases hguard : guard s e
      · have hnext : ∀ s', M.step s e = some s' →
            (M.AllStates P s' events ↔ M.AllSteps guard s' events) :=
          fun s' hstep => ih (hkeep s e s' hs hguard hstep)
        simp only [hholds s hs, hguard, true_and]
        exact forall₂_congr hnext
      · obtain ⟨s', hstep, hviolation⟩ := hbreak s e hs hguard
        simp only [hguard, false_and, iff_false, not_and]
        exact fun _ hstates => hviolation (hstates s' hstep).head

/--
Where every guarded step of `M` is a run of `N`, a guarded run of `M` is the run
of `N` that makes those runs one after the other.
-/
theorem AllSteps.run_flatMap {Event' : Type*} {N : System State Event'}
    {guard : State → Event → Prop} {expand : Event → List Event'}
    (hexpand : ∀ s e, guard s e → N.run s (expand e) = M.step s e)
    {s : State} {events : List Event} (h : M.AllSteps guard s events) :
    N.run s (events.flatMap expand) = M.run s events := by
  induction events generalizing s with
  | nil => rfl
  | cons e events ih =>
      obtain ⟨hhead, htail⟩ := allSteps_cons.mp h
      rw [List.flatMap_cons, run_append, hexpand s e hhead, run]
      cases hstep : M.step s e with
      | none => rfl
      | some s' => exact ih (htail s' hstep)

/-! ## Simulation -/

/--
`N` replays `M` through `abs`: event by event, under an invariant of `M`, the
abstraction of the next state is the next state of the abstraction.
-/
structure Replays (N : System State Event) {Concrete : Type*}
    (M : System Concrete Event) (I : Concrete → Prop)
    (abs : Concrete → State) : Prop where
  step : ∀ s e, I s → N.step (abs s) e = (M.step s e).map abs

theorem Replays.run {Concrete : Type*} {N : System State Event}
    {M : System Concrete Event} {I : Concrete → Prop}
    {abs : Concrete → State} (h : N.Replays M I abs)
    (hkeep : ∀ s e s', I s → M.step s e = some s' → I s')
    {s : Concrete} (hs : I s) (events : List Event) :
    N.run (abs s) events = (M.run s events).map abs := by
  induction events generalizing s with
  | nil => rfl
  | cons e events ih =>
      simp only [System.run, h.step s e hs]
      cases hstep : M.step s e with
      | none => rfl
      | some s' => simpa using ih (hkeep s e s' hs hstep)

/--
`Refines R` says that every step of `M` from related states is matched by a
(possibly empty) path of the abstract relation `A`.
-/
def Refines {Abstract : Type*} (M : System State Event)
    (A : Abstract → Abstract → Prop) (R : State → Abstract → Prop) : Prop :=
  ∀ s e s' a, R s a → M.step s e = some s' →
    ∃ a', Relation.ReflTransGen A a a' ∧ R s' a'

theorem Refines.run {Abstract : Type*} {A : Abstract → Abstract → Prop}
    {R : State → Abstract → Prop} (h : M.Refines A R) {s t : State}
    {a : Abstract} {events : List Event} (hR : R s a)
    (hrun : M.run s events = some t) :
    ∃ b, Relation.ReflTransGen A a b ∧ R t b := by
  induction events generalizing s a with
  | nil =>
      cases hrun
      exact ⟨a, .refl, hR⟩
  | cons e events ih =>
      obtain ⟨s', hstep, hrest⟩ := run_cons.mp hrun
      obtain ⟨a', hpath, hR'⟩ := h s e s' a hR hstep
      obtain ⟨b, hpath', hRb⟩ := ih hR' hrest
      exact ⟨b, hpath.trans hpath', hRb⟩

end System

end NiosHps.Foundation
