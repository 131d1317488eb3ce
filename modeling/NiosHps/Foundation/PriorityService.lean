import Mathlib.Data.Finset.Card
import NiosHps.Foundation.System

/-!
# Requests served by priority

A server takes the least pending request; a request stays pending until it is
taken.  What a step does not take and leaves pending was pending before, or has
arrived.  While a request waits, every service goes to a smaller one: each uses
up one that was pending or has arrived since.
-/

namespace NiosHps.Foundation

namespace System

section PriorityService

variable {State Event Request : Type*} [LinearOrder Request]
variable (M : System State Event) (pending : State → Finset Request)
  (serves : State → Event → Option Request)

def waiting (s : State) (e : Event) : Finset Request :=
  match serves s e with
  | none => pending s
  | some request => (pending s).erase request

/-- In the states of `I` a step serves the least request or none, and drops no other. -/
structure ServesLeast (I : State → Prop) : Prop where
  keeps : ∀ s e s', I s → M.step s e = some s' →
    waiting pending serves s e ⊆ pending s'
  least : ∀ s e s' request, I s → M.step s e = some s' →
    serves s e = some request →
    request ∈ pending s ∧ ∀ other ∈ pending s, request ≤ other

def before (request : Request) (requests : Finset Request) : Finset Request :=
  requests.filter (· < request)

def services : State → List Event → Nat
  | _, [] => 0
  | s, e :: events =>
      (if (serves s e).isSome then 1 else 0) +
        match M.step s e with
        | none => 0
        | some s' => services s' events

def arrivalsBefore (request : Request) : State → List Event → Nat
  | _, [] => 0
  | s, e :: events =>
      match M.step s e with
      | none => 0
      | some s' =>
          (before request (pending s' \ waiting pending serves s e)).card +
            arrivalsBefore request s' events

variable {M pending serves} {I : State → Prop} {s s' t : State} {e : Event}
  {request : Request}

theorem mem_before {requests : Finset Request} {other : Request} :
    other ∈ before request requests ↔ other ∈ requests ∧ other < request :=
  Finset.mem_filter

theorem ServesLeast.mem_of_mem (h : M.ServesLeast pending serves I) (hs : I s)
    (hstep : M.step s e = some s') (hmem : request ∈ pending s)
    (hserves : serves s e ≠ some request) : request ∈ pending s' := by
  refine h.keeps s e s' hs hstep ?_
  unfold waiting
  cases hserved : serves s e with
  | none => exact hmem
  | some other =>
      have hne : request ≠ other := fun heq => hserves (by rw [hserved, heq])
      exact Finset.mem_erase.mpr ⟨hne, hmem⟩

theorem ServesLeast.card_waiting (h : M.ServesLeast pending serves I) (hs : I s)
    (hstep : M.step s e = some s') (hmem : request ∈ pending s)
    (hserves : serves s e ≠ some request) :
    (before request (waiting pending serves s e)).card +
        (if (serves s e).isSome then 1 else 0) =
      (before request (pending s)).card := by
  unfold waiting
  cases hserved : serves s e with
  | none => rfl
  | some other =>
      obtain ⟨hother, hleast⟩ := h.least s e s' other hs hstep hserved
      have hne : other ≠ request := fun heq => hserves (by rw [hserved, heq])
      have hlt : other < request := lt_of_le_of_ne (hleast request hmem) hne
      have herase : before request ((pending s).erase other) =
          (before request (pending s)).erase other :=
        Finset.filter_erase ..
      rw [herase]
      exact Finset.card_erase_add_one (mem_before.mpr ⟨hother, hlt⟩)

theorem ServesLeast.card_step (h : M.ServesLeast pending serves I) (hs : I s)
    (hstep : M.step s e = some s') (request : Request) :
    (before request (pending s')).card =
      (before request (waiting pending serves s e)).card +
        (before request (pending s' \ waiting pending serves s e)).card := by
  have hsplit : before request (pending s') =
      before request (waiting pending serves s e) ∪
        before request (pending s' \ waiting pending serves s e) := by
    rw [before, before, before, ← Finset.filter_union,
      Finset.union_sdiff_of_subset (h.keeps s e s' hs hstep)]
  rw [hsplit]
  refine Finset.card_union_of_disjoint ?_
  exact Finset.disjoint_filter_filter Finset.disjoint_sdiff

/--
As long as a pending request is not served it stays pending, and the services
are paid for by the requests before it, those pending and those that arrive.
-/
theorem ServesLeast.services_eq (h : M.ServesLeast pending serves I)
    (hkeep : ∀ s e s', I s → M.step s e = some s' → I s') (hs : I s)
    {events : List Event} (hrun : M.run s events = some t)
    (hmem : request ∈ pending s)
    (hwaits : M.AllSteps (fun s e => serves s e ≠ some request) s events) :
    request ∈ pending t ∧
      services M serves s events + (before request (pending t)).card =
        (before request (pending s)).card +
          arrivalsBefore M pending serves request s events := by
  induction events generalizing s with
  | nil =>
      cases hrun
      exact ⟨hmem, by simp [services, arrivalsBefore]⟩
  | cons e events ih =>
      obtain ⟨s', hstep, hrest⟩ := run_cons.mp hrun
      obtain ⟨hserves, hwaits⟩ := allSteps_cons.mp hwaits
      obtain ⟨hend, hcount⟩ := ih (hkeep s e s' hs hstep) hrest
        (h.mem_of_mem hs hstep hmem hserves) (hwaits s' hstep)
      refine ⟨hend, ?_⟩
      have htaken := h.card_waiting hs hstep hmem hserves
      have harrived := h.card_step hs hstep request
      simp only [services, arrivalsBefore, hstep]
      omega

end PriorityService

end System

end NiosHps.Foundation
