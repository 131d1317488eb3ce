import NiosHps.Foundation.CircularList
import NiosHps.Foundation.System

/-!
# The alarms of the Nios (`alt_tick.c`, `alt_alarm_start.c`)

The system clock counts ticks in 32 bits and calls the alarms whose time has
come.  An alarm that is due only after the counter has wrapped has its `rollover`
flag set.  The registered alarms hang on `alt_alarm_list`.

All of this runs with interrupts off.  A callback does not start or stop alarms
itself, other than by what it returns.
-/

namespace NiosHps.Board

open NiosHps.Foundation

inductive LlistNode (α : Type) where
  | altAlarmList
  | alarm (a : α)
  deriving DecidableEq

/-- `callback` stands for the function together with its `context`. -/
structure Alarm (σ : Type) where
  time : UInt32
  callback : σ → UInt32 × σ
  rollover : UInt8

structure SysClock (α σ : Type) where
  altTickRate : UInt32
  altNticks : UInt32
  llist : Links (LlistNode α)
  alarm : α → Alarm σ
  world : σ

inductive AlarmErrno where
  | enotsup
  | einval
  deriving DecidableEq, Repr

namespace SysClock

variable {α σ : Type} [DecidableEq α]

def altSysclkInit (c : SysClock α σ) (nticks : UInt32) : SysClock α σ × Int :=
  if c.altTickRate = 0 then ({ c with altTickRate := nticks }, 0) else (c, -1)

def altAlarmStart (c : SysClock α σ) (alarm : Option α) (nticks : UInt32)
    (callback : σ → UInt32 × σ) : Except AlarmErrno (SysClock α σ) :=
  if c.altTickRate ≠ 0 then
    match alarm with
    | some a =>
        let time := nticks + c.altNticks + 1
        let rollover := if time < c.altNticks then 1 else 0
        .ok
          { c with
            alarm := Function.update c.alarm a ⟨time, callback, rollover⟩
            llist := c.llist.insert .altAlarmList (.alarm a) }
    | none => .error .einval
  else .error .enotsup

def altAlarmStop (c : SysClock α σ) (a : α) : SysClock α σ :=
  { c with llist := c.llist.remove (.alarm a) }

def setRollover (c : SysClock α σ) (a : α) (rollover : UInt8) : SysClock α σ :=
  { c with
    alarm := Function.update c.alarm a { c.alarm a with rollover := rollover } }

def setTime (c : SysClock α σ) (a : α) (time : UInt32) : SysClock α σ :=
  { c with alarm := Function.update c.alarm a { c.alarm a with time := time } }

/-- An alarm set `2 ^ 32 - 1` ticks ahead is already due. -/
theorem altAlarmStart_longest {c c' : SysClock α σ} {a : α}
    {callback : σ → UInt32 × σ}
    (hstart : c.altAlarmStart (some a) 0xFFFFFFFF callback = .ok c') :
    (c'.alarm a).time = c'.altNticks ∧ (c'.alarm a).rollover = 0 := by
  have htime : 0xFFFFFFFF + c.altNticks + 1 = c.altNticks := by
    rw [UInt32.add_comm 0xFFFFFFFF, UInt32.add_assoc]
    exact UInt32.add_zero _
  simp only [altAlarmStart, htime, if_neg (UInt32.lt_irrefl c.altNticks)] at hstart
  split_ifs at hstart
  cases hstart
  simp only [Function.update_self, and_self]

/-- The callback, and what `alt_tick` makes of the value it returns. -/
def callAlarm (c : SysClock α σ) (a : α) : SysClock α σ :=
  let (nextCallback, world) := (c.alarm a).callback c.world
  let c := { c with world := world }
  if nextCallback = 0 then c.altAlarmStop a
  else
    let c := c.setTime a ((c.alarm a).time + nextCallback)
    if (c.alarm a).time < c.altNticks then c.setRollover a 1 else c

def clearRollover (c : SysClock α σ) (a : α) : SysClock α σ :=
  if (c.alarm a).rollover ≠ 0 ∧ c.altNticks = 0 then c.setRollover a 0 else c

/-- One turn of the loop of `alt_tick`. -/
def visitAlarm (c : SysClock α σ) (a : α) : SysClock α σ :=
  let c := c.clearRollover a
  if (c.alarm a).time ≤ c.altNticks ∧ (c.alarm a).rollover = 0 then c.callAlarm a
  else c

def visitNode (c : SysClock α σ) : LlistNode α → SysClock α σ
  | .altAlarmList => c
  | .alarm a => c.visitAlarm a

def altTick (fuel : Nat) (c : SysClock α σ) : Option (SysClock α σ) :=
  Links.walk llist visitNode .altAlarmList fuel
    { c with altNticks := c.altNticks + 1 } (c.llist.next .altAlarmList)

end SysClock

variable {α σ : Type}

inductive AlarmEvent (α σ : Type) where
  | start (a : α) (nticks : UInt32) (callback : σ → UInt32 × σ)
  | stop (a : α)
  | tick
  | act (f : σ → σ)

structure SysClock.Loaded (c : SysClock α σ) : Prop where
  altTickRate : c.altTickRate = 0
  altNticks : c.altNticks = 0
  llist : c.llist.Alone .altAlarmList

def alarmClock (α σ : Type) [DecidableEq α] (fuel : Nat) :
    System (SysClock α σ) (AlarmEvent α σ) where
  init c := ∃ loaded : SysClock α σ, loaded.Loaded ∧
    ∃ nticks, nticks ≠ 0 ∧ c = (loaded.altSysclkInit nticks).1
  step c
    | .start a nticks callback =>
        match c.altAlarmStart (some a) nticks callback with
        | .ok c => some c
        | .error _ => none
    | .stop a => some (c.altAlarmStop a)
    | .tick => c.altTick fuel
    | .act f => some { c with world := f c.world }

end NiosHps.Board
