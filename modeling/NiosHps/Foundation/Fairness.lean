import Mathlib.Algebra.Order.Group.Nat
import Mathlib.Order.Basic
import NiosHps.Foundation.System

/-!
# Fair schedules

An infinite schedule names one event for every slot; an event that cannot happen
in its slot is skipped.  A schedule is fair to an event that it names again and
again.  `LeadsTo` speaks about one behaviour, the states between the slots.

The rank rules need a helpful event, which can always happen and lowers the rank;
the other events may not raise it.  Either may reach the goal at once.
-/

namespace NiosHps.Foundation

namespace System

variable {State Event : Type*} (M : System State Event)

def attempt (s : State) (e : Event) : State := (M.step s e).getD s

/-- The state before slot `n` of the schedule. -/
def behaviour (schedule : Nat → Event) (s : State) : Nat → State
  | 0 => s
  | n + 1 => M.attempt (behaviour schedule s n) (schedule n)

def FairTo (schedule : Nat → Event) (e : Event) : Prop :=
  ∀ n, ∃ m, n ≤ m ∧ schedule m = e

def Stable (P : State → Prop) : Prop := ∀ s e, P s → P (M.attempt s e)

def LeadsTo (states : Nat → State) (P Q : State → Prop) : Prop :=
  ∀ n, P (states n) → ∃ m, n ≤ m ∧ Q (states m)

variable {M}

theorem attempt_of_step {s s' : State} {e : Event}
    (hstep : M.step s e = some s') : M.attempt s e = s' := by
  rw [attempt, hstep, Option.getD_some]

theorem attempt_of_none {s : State} {e : Event} (hstep : M.step s e = none) :
    M.attempt s e = s := by
  rw [attempt, hstep, Option.getD_none]

/-- What a step keeps, a slot keeps: the skipped event changes nothing. -/
theorem stable_of_step {P : State → Prop}
    (hkeep : ∀ s e s', P s → M.step s e = some s' → P s') : M.Stable P := by
  intro s e hs
  cases hstep : M.step s e with
  | none => rwa [attempt_of_none hstep]
  | some s' =>
      rw [attempt_of_step hstep]
      exact hkeep s e s' hs hstep

theorem Stable.behaviour {P : State → Prop} (hP : M.Stable P)
    {schedule : Nat → Event} {s : State} {n m : Nat}
    (hn : P (M.behaviour schedule s n)) (hle : n ≤ m) :
    P (M.behaviour schedule s m) := by
  induction m, hle using Nat.le_induction with
  | base => exact hn
  | succ m _ ih => exact hP _ _ ih

theorem Replays.behaviour {Concrete : Type*} {N : System State Event}
    {M : System Concrete Event} {I : Concrete → Prop}
    {abs : Concrete → State} (h : N.Replays M I abs) (hI : M.Stable I)
    {schedule : Nat → Event} {s : Concrete} (hs : I s) (n : Nat) :
    N.behaviour schedule (abs s) n = abs (M.behaviour schedule s n) := by
  induction n with
  | zero => rfl
  | succ n ih =>
      have hn : I (M.behaviour schedule s n) :=
        hI.behaviour (n := 0) hs (Nat.zero_le n)
      have hreplay := h.step _ (schedule n) hn
      rw [System.behaviour, System.behaviour, ih]
      cases hstep : M.step (M.behaviour schedule s n) (schedule n) with
      | none =>
          rw [hstep] at hreplay
          rw [attempt_of_none hstep, attempt_of_none hreplay]
      | some s' =>
          rw [hstep] at hreplay
          rw [attempt_of_step hstep, attempt_of_step hreplay]

/-! ## Chains of leads-to -/

theorem LeadsTo.trans {states : Nat → State} {P Q R : State → Prop}
    (hPQ : LeadsTo states P Q) (hQR : LeadsTo states Q R) :
    LeadsTo states P R := by
  intro n hn
  obtain ⟨m, hnm, hm⟩ := hPQ n hn
  obtain ⟨k, hmk, hk⟩ := hQR m hm
  exact ⟨k, hnm.trans hmk, hk⟩

theorem LeadsTo.of_imp {states : Nat → State} {P Q : State → Prop}
    (h : ∀ s, P s → Q s) : LeadsTo states P Q := fun n hn =>
  ⟨n, le_rfl, h _ hn⟩

theorem LeadsTo.mono {states : Nat → State} {P P' Q Q' : State → Prop}
    (h : LeadsTo states P Q) (hP : ∀ s, P' s → P s) (hQ : ∀ s, Q s → Q' s) :
    LeadsTo states P' Q' :=
  ((LeadsTo.of_imp hP).trans h).trans (LeadsTo.of_imp hQ)

theorem LeadsTo.of_unless {states : Nat → State} {P Q : State → Prop}
    (h : LeadsTo states (fun s => P s ∧ ¬Q s) Q) : LeadsTo states P Q := by
  intro n hn
  by_cases hgoal : Q (states n)
  · exact ⟨n, le_rfl, hgoal⟩
  · exact h n ⟨hn, hgoal⟩

theorem reached_or_stays {P Q : State → Prop} {schedule : Nat → Event} {s : State}
    (hkeep : ∀ s e s', P s → M.step s e = some s' → Q s' ∨ P s') {n m : Nat}
    (hn : P (M.behaviour schedule s n)) (hle : n ≤ m) :
    (∃ k, n ≤ k ∧ Q (M.behaviour schedule s k)) ∨ P (M.behaviour schedule s m) := by
  induction m, hle using Nat.le_induction with
  | base => exact .inr hn
  | succ m hle ih =>
      rcases ih with hreached | hm
      · exact .inl hreached
      rw [behaviour]
      cases hstep : M.step (M.behaviour schedule s m) (schedule m) with
      | none =>
          rw [attempt_of_none hstep]
          exact .inr hm
      | some s' =>
          rw [attempt_of_step hstep]
          refine (hkeep _ _ _ hm hstep).imp_left fun hgoal => ⟨m + 1, by omega, ?_⟩
          rwa [behaviour, attempt_of_step hstep]

/-! ## The rank rules -/

section Rank

variable {P Q : State → Prop} {rank : State → Nat} {schedule : Nat → Event}
  {s : State}

theorem reached_or_lower_or_same {helpful : State → Event}
    (hkeep : ∀ s e s', P s → M.step s e = some s' →
      Q s' ∨ P s' ∧ (rank s' < rank s ∨
        rank s' = rank s ∧ helpful s' = helpful s))
    {n m bound : Nat} {e : Event} (hn : P (M.behaviour schedule s n))
    (hbound : rank (M.behaviour schedule s n) = bound)
    (he : helpful (M.behaviour schedule s n) = e) (hle : n ≤ m) :
    (∃ k, n ≤ k ∧ (Q (M.behaviour schedule s k) ∨
      P (M.behaviour schedule s k) ∧ rank (M.behaviour schedule s k) < bound)) ∨
      P (M.behaviour schedule s m) ∧ rank (M.behaviour schedule s m) = bound ∧
        helpful (M.behaviour schedule s m) = e := by
  refine reached_or_stays (P := fun t => P t ∧ rank t = bound ∧ helpful t = e)
    (Q := fun t => Q t ∨ P t ∧ rank t < bound) ?_ ⟨hn, hbound, he⟩ hle
  rintro t e' t' ⟨ht, hrank, hsame⟩ hstep
  rcases hkeep t e' t' ht hstep with hgoal | ⟨ht', hlower | ⟨hrank', hsame'⟩⟩
  · exact .inl (.inl hgoal)
  · exact .inl (.inr ⟨ht', hrank ▸ hlower⟩)
  · exact .inr ⟨ht', hrank'.trans hrank, hsame'.trans hsame⟩

/--
The helpful event may depend on the state, as long as it only changes when the
rank falls.
-/
theorem leadsTo_of_helpful (P : State → Prop) (rank : State → Nat)
    (helpful : State → Event)
    (hfair : ∀ s, P s → FairTo schedule (helpful s))
    (hkeep : ∀ s e s', P s → M.step s e = some s' →
      Q s' ∨ P s' ∧ (rank s' < rank s ∨
        rank s' = rank s ∧ helpful s' = helpful s))
    (hhelpful : ∀ s, P s → ∃ s', M.step s (helpful s) = some s' ∧
      (Q s' ∨ P s' ∧ rank s' < rank s)) :
    LeadsTo (M.behaviour schedule s) P Q := by
  intro n hn
  -- induction on the rank: it falls at the latest in a slot of the helpful event
  induction hbound : rank (M.behaviour schedule s n) using Nat.strong_induction_on
    generalizing n with
  | h bound ih =>
      obtain ⟨m, hnm, hm⟩ := hfair _ hn n
      have hlater : ∃ k, n ≤ k ∧ (Q (M.behaviour schedule s k) ∨
          P (M.behaviour schedule s k) ∧
            rank (M.behaviour schedule s k) < bound) := by
        rcases reached_or_lower_or_same hkeep hn hbound rfl hnm with
          hreached | ⟨hPm, hrank, hsame⟩
        · exact hreached
        · obtain ⟨s', hstep, hnext⟩ := hhelpful _ hPm
          have hslot : M.behaviour schedule s (m + 1) = s' := by
            rw [behaviour, hm, ← hsame, attempt_of_step hstep]
          refine ⟨m + 1, by omega, ?_⟩
          rw [hslot, ← hrank]
          exact hnext
      obtain ⟨k, hnk, hgoal | ⟨hPk, hlower⟩⟩ := hlater
      · exact ⟨k, hnk, hgoal⟩
      · obtain ⟨l, hkl, hgoal⟩ := ih _ (by omega) _ hPk rfl
        exact ⟨l, by omega, hgoal⟩

theorem leadsTo_of_rank {helpful : Event} (P : State → Prop) (rank : State → Nat)
    (hfair : FairTo schedule helpful)
    (hothers : ∀ s e s', e ≠ helpful → P s → M.step s e = some s' →
      Q s' ∨ P s' ∧ rank s' ≤ rank s)
    (hhelpful : ∀ s, P s → ∃ s', M.step s helpful = some s' ∧
      (Q s' ∨ P s' ∧ rank s' < rank s)) :
    LeadsTo (M.behaviour schedule s) P Q := by
  refine leadsTo_of_helpful P rank (fun _ => helpful) (fun _ _ => hfair) ?_ hhelpful
  intro s e s' hs hstep
  by_cases he : e = helpful
  · obtain ⟨t, ht, hnext⟩ := hhelpful s hs
    rw [he, ht] at hstep
    obtain rfl := Option.some.inj hstep
    exact hnext.imp_right fun h => ⟨h.1, .inl h.2⟩
  · refine (hothers s e s' he hs hstep).imp_right fun h => ⟨h.1, ?_⟩
    exact (Nat.lt_or_eq_of_le h.2).imp_right fun hsame => ⟨hsame, rfl⟩

end Rank

theorem behaviour_of_fixed {schedule : Nat → Event} {s : State} {n m : Nat}
    (hfixed : ∀ e, M.attempt (M.behaviour schedule s n) e =
      M.behaviour schedule s n) (hle : n ≤ m) :
    M.behaviour schedule s m = M.behaviour schedule s n := by
  induction m, hle using Nat.le_induction with
  | base => rfl
  | succ m _ ih =>
      rw [behaviour, ih]
      exact hfixed _

end System

end NiosHps.Foundation
