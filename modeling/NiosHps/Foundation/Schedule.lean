import Mathlib.Logic.Function.Basic
import NiosHps.Foundation.System

/-!
# Alarms on a clock that never wraps

An alarm is due at a tick.  When that tick comes its callback runs, which may
change the world, and tells how many ticks later it is due again; zero takes the
alarm off the schedule.  The alarms of one tick run in the order in which they
stand on the schedule, the one that was started last first.
-/

namespace NiosHps.Foundation

structure Schedule (α σ : Type*) where
  now : Nat
  registered : List α
  due : α → Nat
  callback : α → σ → Nat × σ
  /-- The alarms that were started at some time. -/
  known : List α
  world : σ

namespace Schedule

inductive Event (α σ : Type*) where
  | start (a : α) (ticks : Nat) (callback : σ → Nat × σ)
  | stop (a : α)
  | tick
  | act (f : σ → σ)

variable {α σ : Type*} [DecidableEq α]

def visit (s : Schedule α σ) (a : α) : Schedule α σ :=
  if s.due a = s.now then
    let (ticks, world) := s.callback a s.world
    if ticks = 0 then { s with registered := s.registered.erase a, world := world }
    else { s with due := Function.update s.due a (s.now + ticks), world := world }
  else s

def tick (s : Schedule α σ) : Schedule α σ :=
  s.registered.foldl visit { s with now := s.now + 1 }

def start (s : Schedule α σ) (a : α) (ticks : Nat) (callback : σ → Nat × σ) :
    Schedule α σ :=
  { s with
    registered := a :: s.registered
    due := Function.update s.due a (s.now + ticks + 1)
    callback := Function.update s.callback a callback
    known := a :: s.known }

def stop (s : Schedule α σ) (a : α) : Schedule α σ :=
  { s with registered := s.registered.erase a }

/-- An alarm that runs is not started again, one that is stopped was started
before, and none is set `limit` ticks ahead. -/
def step (limit : Nat) (s : Schedule α σ) : Event α σ → Option (Schedule α σ)
  | .start a ticks callback =>
      if a ∉ s.registered ∧ ticks + 1 < limit then some (s.start a ticks callback)
      else none
  | .stop a => if a ∈ s.known then some (s.stop a) else none
  | .tick => some s.tick
  | .act f => some { s with world := f s.world }

end Schedule

def schedule (α σ : Type*) [DecidableEq α] (limit : Nat) :
    System (Schedule α σ) (Schedule.Event α σ) where
  init s := s.now = 0 ∧ s.registered = [] ∧ s.known = []
  step s := s.step limit

end NiosHps.Foundation
