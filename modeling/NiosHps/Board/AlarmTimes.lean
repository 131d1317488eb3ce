import Mathlib.Algebra.Group.Nat.Defs
import Mathlib.Data.List.Basic
import NiosHps.Board.Alarms
import NiosHps.Foundation.Schedule

/-!
# The alarms are called in time

The 32-bit counter and the `rollover` flags are what a schedule with unbounded
times looks like from the current tick: an alarm is due within the next `2 ^ 32`
ticks, so its time and one flag say when.  The loop of `alt_tick` visits the
alarms in the order of the list, also when one of them takes itself off, and
after its visit an alarm agrees with the schedule at the new tick.
-/

namespace NiosHps.Board

open NiosHps.Foundation

variable {α σ : Type}

def countTicks (callback : σ → UInt32 × σ) (world : σ) : Nat × σ :=
  ((callback world).1.toNat, (callback world).2)

def AlarmEvent.scheduled : AlarmEvent α σ → Schedule.Event α σ
  | .start a nticks callback => .start a nticks.toNat (countTicks callback)
  | .stop a => .stop a
  | .tick => .tick
  | .act f => .act f

/-! ## One alarm -/

/-- What the fields of an alarm say about one that is due at a later tick. -/
structure Agrees (alarm : Alarm σ) (due : Nat) (callback : σ → Nat × σ)
    (now : Nat) : Prop where
  later : now < due
  near : due < now + 2 ^ 32
  time : alarm.time.toNat = due % 2 ^ 32
  rollover : alarm.rollover ≠ 0 ↔ now / 2 ^ 32 < due / 2 ^ 32
  callback : callback = countTicks alarm.callback

namespace Alarm

def cleared (alarm : Alarm σ) (nticks : UInt32) : Alarm σ :=
  if alarm.rollover ≠ 0 ∧ nticks = 0 then { alarm with rollover := 0 } else alarm

def Fires (alarm : Alarm σ) (nticks : UInt32) : Prop :=
  alarm.time ≤ nticks ∧ alarm.rollover = 0

def rescheduled (alarm : Alarm σ) (nticks nextCallback : UInt32) : Alarm σ :=
  let time := alarm.time + nextCallback
  if time < nticks then { alarm with time := time, rollover := 1 }
  else { alarm with time := time }

section Fields

variable (alarm : Alarm σ) (nticks nextCallback : UInt32)

@[simp] theorem cleared_time : (alarm.cleared nticks).time = alarm.time := by
  unfold cleared
  split_ifs <;> rfl

@[simp] theorem cleared_callback :
    (alarm.cleared nticks).callback = alarm.callback := by
  unfold cleared
  split_ifs <;> rfl

theorem cleared_rollover :
    (alarm.cleared nticks).rollover ≠ 0 ↔ alarm.rollover ≠ 0 ∧ nticks ≠ 0 := by
  unfold cleared
  split_ifs with hclear
  · simp [hclear.2]
  · tauto

@[simp] theorem rescheduled_time :
    (alarm.rescheduled nticks nextCallback).time = alarm.time + nextCallback := by
  simp only [rescheduled]
  split_ifs <;> rfl

@[simp] theorem rescheduled_callback :
    (alarm.rescheduled nticks nextCallback).callback = alarm.callback := by
  simp only [rescheduled]
  split_ifs <;> rfl

theorem rescheduled_rollover (hclear : alarm.rollover = 0) :
    (alarm.rescheduled nticks nextCallback).rollover ≠ 0 ↔
      alarm.time + nextCallback < nticks := by
  simp only [rescheduled]
  split_ifs with hwraps
  · simp [hwraps]
  · simp [hwraps, hclear]

end Fields

end Alarm

section Agrees

variable {alarm : Alarm σ} {due now : Nat} {callback : σ → Nat × σ}
  {nticks nextCallback : UInt32}

theorem Agrees.cleared_rollover (h : Agrees alarm due callback now)
    (hnticks : nticks.toNat = (now + 1) % 2 ^ 32) :
    (alarm.cleared nticks).rollover ≠ 0 ↔
      (now + 1) / 2 ^ 32 < due / 2 ^ 32 := by
  have hlater := h.later
  have hnear := h.near
  have hzero : nticks ≠ 0 ↔ (now + 1) % 2 ^ 32 ≠ 0 := by
    rw [← hnticks, ne_eq, ne_eq, ← UInt32.toNat_inj]
    rfl
  rw [Alarm.cleared_rollover, h.rollover, hzero]
  omega

theorem Agrees.fires_iff (h : Agrees alarm due callback now)
    (hnticks : nticks.toNat = (now + 1) % 2 ^ 32) :
    (alarm.cleared nticks).Fires nticks ↔ due = now + 1 := by
  have hlater := h.later
  have hnear := h.near
  have hclear : (alarm.cleared nticks).rollover = 0 ↔
      ¬(now + 1) / 2 ^ 32 < due / 2 ^ 32 := by
    rw [← h.cleared_rollover hnticks, not_not]
  rw [Alarm.Fires, hclear, Alarm.cleared_time, UInt32.le_iff_toNat_le, h.time,
    hnticks]
  omega

theorem Agrees.cleared (h : Agrees alarm due callback now)
    (hnticks : nticks.toNat = (now + 1) % 2 ^ 32) (hdue : due ≠ now + 1) :
    Agrees (alarm.cleared nticks) due callback (now + 1) where
  later := by
    have hlater := h.later
    omega
  near := by
    have hnear := h.near
    omega
  time := by rw [Alarm.cleared_time, h.time]
  rollover := h.cleared_rollover hnticks
  callback := by rw [Alarm.cleared_callback, h.callback]

theorem Agrees.rescheduled (h : Agrees alarm due callback now)
    (hnticks : nticks.toNat = (now + 1) % 2 ^ 32) (hdue : due = now + 1)
    (hnext : nextCallback ≠ 0) :
    Agrees ((alarm.cleared nticks).rescheduled nticks nextCallback)
      (now + 1 + nextCallback.toNat) callback (now + 1) := by
  have hword := nextCallback.toNat_lt
  have hpositive : nextCallback.toNat ≠ 0 := fun hzero =>
    hnext (UInt32.toNat.inj hzero)
  have htime : (alarm.time + nextCallback).toNat =
      (now + 1 + nextCallback.toNat) % 2 ^ 32 := by
    rw [UInt32.toNat_add, h.time, hdue, Nat.mod_add_mod]
  refine ⟨by omega, by omega, ?_, ?_, ?_⟩
  · rw [Alarm.rescheduled_time, Alarm.cleared_time, htime]
  · have hfires := (h.fires_iff hnticks).mpr hdue
    rw [Alarm.rescheduled_rollover _ _ _ hfires.2, Alarm.cleared_time,
      UInt32.lt_iff_toNat_lt, htime, hnticks]
    omega
  · rw [Alarm.rescheduled_callback, Alarm.cleared_callback, h.callback]

end Agrees

/-! ## One turn of the loop -/

namespace SysClock

section Turn

variable [DecidableEq α] {c : SysClock α σ} {a : α}

theorem clearRollover_eq (c : SysClock α σ) (a : α) :
    c.clearRollover a =
      { c with
        alarm := Function.update c.alarm a ((c.alarm a).cleared c.altNticks) } := by
  unfold clearRollover Alarm.cleared
  split_ifs
  · rfl
  · rw [Function.update_eq_self]

theorem callAlarm_of_zero (hzero : ((c.alarm a).callback c.world).1 = 0) :
    c.callAlarm a =
      { c with
        world := ((c.alarm a).callback c.world).2
        llist := c.llist.remove (.alarm a) } := by
  simp only [callAlarm, if_pos hzero]
  rfl

theorem callAlarm_of_ne_zero (hnext : ((c.alarm a).callback c.world).1 ≠ 0) :
    c.callAlarm a =
      { c with
        world := ((c.alarm a).callback c.world).2
        alarm := Function.update c.alarm a ((c.alarm a).rescheduled c.altNticks
          ((c.alarm a).callback c.world).1) } := by
  simp only [callAlarm, if_neg hnext, setTime, setRollover, Alarm.rescheduled,
    Function.update_self, Function.update_idem]
  split_ifs <;> rfl

theorem visitAlarm_of_not_fires
    (hwaits : ¬((c.alarm a).cleared c.altNticks).Fires c.altNticks) :
    c.visitAlarm a =
      { c with
        alarm := Function.update c.alarm a ((c.alarm a).cleared c.altNticks) } := by
  simp only [visitAlarm, clearRollover_eq, Function.update_self]
  exact if_neg hwaits

theorem visitAlarm_of_fires
    (hfires : ((c.alarm a).cleared c.altNticks).Fires c.altNticks) :
    c.visitAlarm a = (c.clearRollover a).callAlarm a := by
  simp only [visitAlarm, clearRollover_eq, Function.update_self]
  exact if_pos hfires

theorem visitAlarm_of_zero
    (hfires : ((c.alarm a).cleared c.altNticks).Fires c.altNticks)
    (hzero : ((c.alarm a).callback c.world).1 = 0) :
    c.visitAlarm a =
      { c with
        alarm := Function.update c.alarm a ((c.alarm a).cleared c.altNticks)
        world := ((c.alarm a).callback c.world).2
        llist := c.llist.remove (.alarm a) } := by
  rw [visitAlarm_of_fires hfires, clearRollover_eq, callAlarm_of_zero] <;>
    simp [hzero]

theorem visitAlarm_of_ne_zero
    (hfires : ((c.alarm a).cleared c.altNticks).Fires c.altNticks)
    (hnext : ((c.alarm a).callback c.world).1 ≠ 0) :
    c.visitAlarm a =
      { c with
        world := ((c.alarm a).callback c.world).2
        alarm := Function.update c.alarm a
          (((c.alarm a).cleared c.altNticks).rescheduled c.altNticks
            ((c.alarm a).callback c.world).1) } := by
  rw [visitAlarm_of_fires hfires, clearRollover_eq, callAlarm_of_ne_zero] <;>
    simp [hnext]

theorem llist_visitNode (c : SysClock α σ) (node : LlistNode α) :
    (c.visitNode node).llist = c.llist ∨
      (c.visitNode node).llist = c.llist.remove node := by
  cases node with
  | altAlarmList => exact .inl rfl
  | alarm a =>
      by_cases hfires : ((c.alarm a).cleared c.altNticks).Fires c.altNticks
      · by_cases hzero : ((c.alarm a).callback c.world).1 = 0
        · exact .inr (congrArg llist (visitAlarm_of_zero hfires hzero))
        · exact .inl (by rw [visitNode, visitAlarm_of_ne_zero hfires hzero])
      · exact .inl (by rw [visitNode, visitAlarm_of_not_fires hfires])

end Turn

end SysClock

/-! ## The clock and the schedule -/

/-- In a tick that has visited the alarms `done` and has still to visit `rest`. -/
structure Tracks (c : SysClock α σ) (s : Schedule α σ) (done rest : List α) :
    Prop where
  tickRate : c.altTickRate ≠ 0
  altNticks : c.altNticks.toNat = s.now % 2 ^ 32
  world : c.world = s.world
  registered : s.registered = done ++ rest
  ring : c.llist.Ring .altAlarmList (s.registered.map .alarm)
  visited : ∀ a ∈ done, Agrees (c.alarm a) (s.due a) (s.callback a) s.now
  waiting : ∀ a ∈ rest, ∃ earlier, s.now = earlier + 1 ∧
    Agrees (c.alarm a) (s.due a) (s.callback a) earlier
  alone : ∀ a ∈ s.known, a ∉ s.registered → c.llist.Alone (.alarm a)

namespace Tracks

variable {c : SysClock α σ} {s : Schedule α σ} {a : α} {done rest : List α}

theorem nodup (h : Tracks c s done rest) : (done ++ rest).Nodup := by
  have hnodup := (List.nodup_cons.mp h.ring.nodup).2.of_map
  rwa [h.registered] at hnodup

variable [DecidableEq α]

theorem repeats (h : Tracks c s done (a :: rest)) {alarm : Alarm σ} (due : Nat)
    (world : σ) (hagrees : Agrees alarm due (s.callback a) s.now) :
    Tracks { c with alarm := Function.update c.alarm a alarm, world := world }
      { s with due := Function.update s.due a due, world := world }
      (done ++ [a]) rest := by
  have hnodup := h.nodup
  refine ⟨h.tickRate, h.altNticks, rfl, ?_, h.ring, ?_, ?_, h.alone⟩
  · simp [h.registered]
  · intro b hb
    rcases eq_or_ne b a with rfl | hne
    · simpa using hagrees
    · have hdone : b ∈ done := by simpa [hne] using hb
      simpa [hne] using h.visited b hdone
  · intro b hb
    have hne : b ≠ a := by grind
    simpa [hne] using h.waiting b (List.mem_cons_of_mem a hb)

theorem stops (h : Tracks c s done (a :: rest)) (alarm : Alarm σ) (world : σ) :
    Tracks
      { c with
        alarm := Function.update c.alarm a alarm
        world := world
        llist := c.llist.remove (.alarm a) }
      { s with registered := s.registered.erase a, world := world } done rest := by
  have hnodup := h.nodup
  have hmem : a ∈ s.registered := by simp [h.registered]
  have herase : s.registered.erase a = done ++ rest := by
    have hdone : a ∉ done := by grind
    rw [h.registered, List.erase_append_right _ hdone, List.erase_cons_head]
  have hring := h.ring
  rw [h.registered, List.map_append, List.map_cons] at hring
  refine ⟨h.tickRate, h.altNticks, rfl, herase, ?_, ?_, ?_, ?_⟩
  · rw [herase, List.map_append]
    exact hring.remove
  · intro b hb
    have hne : b ≠ a := by grind
    simpa [hne] using h.visited b hb
  · intro b hb
    have hne : b ≠ a := by grind
    simpa [hne] using h.waiting b (List.mem_cons_of_mem a hb)
  · intro b hknown hb
    rcases eq_or_ne b a with rfl | hne
    · exact Links.alone_remove _
    · have hout : b ∉ s.registered := by
        rw [herase] at hb
        rw [h.registered]
        grind
      refine (h.alone b hknown hout).remove h.ring (List.mem_map_of_mem hmem) ?_
      simpa using hne

theorem visit (h : Tracks c s done (a :: rest)) :
    ∃ done', Tracks (c.visitAlarm a) (s.visit a) done' rest := by
  obtain ⟨earlier, hnow, hagrees⟩ := h.waiting a List.mem_cons_self
  have hnticks : c.altNticks.toNat = (earlier + 1) % 2 ^ 32 := by
    rw [← hnow]
    exact h.altNticks
  by_cases hdue : s.due a = s.now
  · have hfires := (hagrees.fires_iff hnticks).mpr (hdue.trans hnow)
    have hcall : s.callback a s.world =
        (((c.alarm a).callback c.world).1.toNat,
          ((c.alarm a).callback c.world).2) := by
      rw [hagrees.callback, ← h.world]
      rfl
    by_cases hzero : ((c.alarm a).callback c.world).1 = 0
    · have hvisit : s.visit a =
          { s with
            registered := s.registered.erase a
            world := ((c.alarm a).callback c.world).2 } := by
        simp [Schedule.visit, hdue, hcall, hzero]
      rw [SysClock.visitAlarm_of_zero hfires hzero, hvisit]
      exact ⟨done, h.stops _ _⟩
    · have hnat : ((c.alarm a).callback c.world).1.toNat ≠ 0 := fun heq =>
        hzero (UInt32.toNat.inj heq)
      have hvisit : s.visit a =
          { s with
            due := Function.update s.due a
              (s.now + ((c.alarm a).callback c.world).1.toNat)
            world := ((c.alarm a).callback c.world).2 } := by
        simp [Schedule.visit, hdue, hcall, hnat]
      rw [SysClock.visitAlarm_of_ne_zero hfires hzero, hvisit]
      refine ⟨done ++ [a], h.repeats _ _ ?_⟩
      rw [hnow]
      exact hagrees.rescheduled hnticks (hdue.trans hnow) hzero
  · have hlater : s.due a ≠ earlier + 1 := fun heq => hdue (heq.trans hnow.symm)
    have hwaits := mt (hagrees.fires_iff hnticks).mp hlater
    have hvisit : s.visit a = s := if_neg hdue
    rw [SysClock.visitAlarm_of_not_fires hwaits, hvisit]
    have hkept := h.repeats (s.due a) c.world
      (hnow ▸ hagrees.cleared hnticks hlater)
    rw [Function.update_eq_self, h.world] at hkept
    refine ⟨done ++ [a], ?_⟩
    simpa [h.world] using hkept

theorem visits (h : Tracks c s done rest) :
    ∃ done', Tracks (rest.foldl SysClock.visitAlarm c)
      (rest.foldl Schedule.visit s) done' [] := by
  induction rest generalizing c s done with
  | nil => exact ⟨done, h⟩
  | cons a rest ih =>
      obtain ⟨done', h'⟩ := h.visit
      exact ih h'

end Tracks

def Keeps (c : SysClock α σ) (s : Schedule α σ) : Prop :=
  Tracks c s s.registered []

namespace Keeps

variable {c : SysClock α σ} {s s' : Schedule α σ} {fuel : Nat}

theorem of_tracks {done : List α} (h : Tracks c s done []) : Keeps c s := by
  have hdone : s.registered = done := by rw [h.registered, List.append_nil]
  rwa [Keeps, hdone]

theorem ticked (h : Keeps c s) :
    Tracks { c with altNticks := c.altNticks + 1 } { s with now := s.now + 1 } []
      s.registered where
  tickRate := h.tickRate
  altNticks := by
    rw [UInt32.toNat_add, h.altNticks]
    exact Nat.mod_add_mod _ _ _
  world := h.world
  registered := rfl
  ring := h.ring
  visited := by simp
  waiting a ha := ⟨s.now, rfl, h.visited a ha⟩
  alone := h.alone

variable [DecidableEq α]

theorem tick (h : Keeps c s) (hfuel : s.registered.length < fuel) :
    ∃ c', c.altTick fuel = some c' ∧ Keeps c' s.tick := by
  obtain ⟨done, hvisits⟩ := h.ticked.visits
  refine ⟨_, ?_, of_tracks hvisits⟩
  have hring : ({ c with altNticks := c.altNticks + 1 } : SysClock α σ).llist.Ring
      .altAlarmList ([] ++ s.registered.map .alarm) := h.ring
  rw [SysClock.altTick, h.ring.next_head]
  refine (Links.walk_eq_foldl SysClock.llist_visitNode hring ?_).trans ?_
  · rwa [List.length_map]
  · rw [List.foldl_map]
    rfl

theorem start (h : Keeps c s) {a : α} {nticks : UInt32}
    (callback : σ → UInt32 × σ) (hnew : a ∉ s.registered)
    (hlimit : nticks.toNat + 1 < 2 ^ 32) :
    ∃ c', c.altAlarmStart (some a) nticks callback = .ok c' ∧
      Keeps c' (s.start a nticks.toNat (countTicks callback)) := by
  have htime : (nticks + c.altNticks + 1).toNat =
      (s.now + nticks.toNat + 1) % 2 ^ 32 := by
    rw [UInt32.toNat_add, UInt32.toNat_add, h.altNticks]
    show ((nticks.toNat + s.now % 2 ^ 32) % 2 ^ 32 + 1) % 2 ^ 32 = _
    omega
  have hagrees : Agrees
      ⟨nticks + c.altNticks + 1, callback,
        if nticks + c.altNticks + 1 < c.altNticks then 1 else 0⟩
      (s.now + nticks.toNat + 1) (countTicks callback) s.now := by
    refine ⟨by omega, by omega, htime, ?_, rfl⟩
    have hwraps : nticks + c.altNticks + 1 < c.altNticks ↔
        s.now / 2 ^ 32 < (s.now + nticks.toNat + 1) / 2 ^ 32 := by
      rw [UInt32.lt_iff_toNat_lt, htime, h.altNticks]
      omega
    rw [← hwraps]
    split_ifs with hlt <;> simp [hlt]
  have hout : (LlistNode.alarm a) ∉
      LlistNode.altAlarmList :: s.registered.map LlistNode.alarm := by
    simpa using hnew
  refine ⟨_, by rw [SysClock.altAlarmStart, if_pos h.tickRate], ?_⟩
  refine ⟨h.tickRate, h.altNticks, h.world, (List.append_nil _).symm,
    h.ring.insert hout, ?_, by simp, ?_⟩
  · intro b hb
    rcases eq_or_ne b a with rfl | hne
    · simpa [Schedule.start] using hagrees
    · have hold : b ∈ s.registered := by simpa [Schedule.start, hne] using hb
      simpa [Schedule.start, hne] using h.visited b hold
  · intro b hknown hb
    have hne : b ≠ a := fun heq => hb (by simp [Schedule.start, heq])
    have hold : b ∈ s.known := by simpa [Schedule.start, hne] using hknown
    have hnot : b ∉ s.registered := fun hmem => hb (List.mem_cons_of_mem a hmem)
    exact (h.alone b hold hnot).insert h.ring (by simp) (by simp) (by simpa using hne)

theorem stop (h : Keeps c s) {a : α} (hknown : a ∈ s.known) :
    Keeps (c.altAlarmStop a) (s.stop a) := by
  by_cases hmem : a ∈ s.registered
  · obtain ⟨before, after, hsplit⟩ := List.append_of_mem hmem
    have hnodup := h.nodup
    rw [List.append_nil, hsplit] at hnodup
    have hbefore : a ∉ before := by grind
    have herase : s.registered.erase a = before ++ after := by
      rw [hsplit, List.erase_append_right _ hbefore, List.erase_cons_head]
    have hring := h.ring
    rw [hsplit, List.map_append, List.map_cons] at hring
    refine ⟨h.tickRate, h.altNticks, h.world, (List.append_nil _).symm, ?_, ?_,
      by simp, ?_⟩
    · rw [Schedule.stop, herase, List.map_append]
      exact hring.remove
    · exact fun b hb => h.visited b (List.mem_of_mem_erase hb)
    · intro b hb hout
      rcases eq_or_ne b a with rfl | hne
      · exact Links.alone_remove _
      · have hnot : b ∉ s.registered := fun hold =>
          hout ((List.mem_erase_of_ne hne).mpr hold)
        exact (h.alone b hb hnot).remove h.ring (List.mem_map_of_mem hmem)
          (by simpa using hne)
  · have hsame : s.stop a = s := by rw [Schedule.stop, List.erase_of_not_mem hmem]
    have halone := h.alone a hknown hmem
    rw [hsame, SysClock.altAlarmStop, halone.remove_eq]
    exact h

theorem step (h : Keeps c s) {e : AlarmEvent α σ}
    (hstep : (schedule α σ (2 ^ 32)).step s e.scheduled = some s')
    (hfuel : s.registered.length < fuel) :
    ∃ c', (alarmClock α σ fuel).step c e = some c' ∧ Keeps c' s' := by
  cases e with
  | start a nticks callback =>
      simp only [schedule, AlarmEvent.scheduled, Schedule.step] at hstep
      split_ifs at hstep with hguard
      cases hstep
      obtain ⟨c', hstart, hkeeps⟩ := h.start callback hguard.1 hguard.2
      exact ⟨c', by simp only [alarmClock, hstart], hkeeps⟩
  | stop a =>
      simp only [schedule, AlarmEvent.scheduled, Schedule.step] at hstep
      split_ifs at hstep with hknown
      cases hstep
      exact ⟨_, rfl, h.stop hknown⟩
  | tick =>
      cases hstep
      exact h.tick hfuel
  | act f =>
      cases hstep
      refine ⟨_, rfl, h.tickRate, h.altNticks, congrArg f h.world, h.registered,
        h.ring, h.visited, h.waiting, h.alone⟩

theorem init (hc : (alarmClock α σ fuel).init c)
    (hs : (schedule α σ (2 ^ 32)).init s) (hworld : c.world = s.world) :
    Keeps c s := by
  obtain ⟨loaded, ⟨hrate, hnticks, halone⟩, nticks, hne, rfl⟩ := hc
  obtain ⟨hnow, hregistered, hknown⟩ := hs
  rw [SysClock.altSysclkInit, if_pos hrate] at hworld ⊢
  rw [Keeps, hregistered]
  refine ⟨hne, ?_, hworld, hregistered, ?_, by simp, by simp, ?_⟩
  · simp [hnticks, hnow]
  · rw [hregistered]
    exact Links.ring_nil.mpr halone
  · simp [hknown]

end Keeps

/-! ## Runs -/

section Runs

variable [DecidableEq α]

theorem length_foldl_visit (rest : List α) (s : Schedule α σ) :
    (rest.foldl Schedule.visit s).registered.length ≤ s.registered.length := by
  induction rest generalizing s with
  | nil => exact le_rfl
  | cons a rest ih =>
      refine (ih (s.visit a)).trans ?_
      simp only [Schedule.visit]
      split_ifs
      · exact List.length_erase_le
      · exact le_rfl
      · exact le_rfl

theorem length_schedule_step {limit : Nat} {s s' : Schedule α σ}
    {e : Schedule.Event α σ} (hstep : (schedule α σ limit).step s e = some s') :
    s'.registered.length ≤ s.registered.length + 1 := by
  cases e with
  | start a ticks callback =>
      simp only [schedule, Schedule.step] at hstep
      split_ifs at hstep
      cases hstep
      exact le_rfl
  | stop a =>
      simp only [schedule, Schedule.step] at hstep
      split_ifs at hstep
      cases hstep
      exact List.length_erase_le.trans (Nat.le_succ _)
  | tick =>
      cases hstep
      exact (length_foldl_visit _ _).trans (Nat.le_succ _)
  | act f =>
      cases hstep
      exact Nat.le_succ _

theorem Keeps.run {c : SysClock α σ} {s t : Schedule α σ} {fuel : Nat}
    {events : List (AlarmEvent α σ)} (h : Keeps c s)
    (hrun : (schedule α σ (2 ^ 32)).run s (events.map AlarmEvent.scheduled) = some t)
    (hfuel : s.registered.length + events.length < fuel) :
    ∃ d, (alarmClock α σ fuel).run c events = some d ∧ Keeps d t := by
  induction events generalizing c s with
  | nil =>
      cases hrun
      exact ⟨c, rfl, h⟩
  | cons e events ih =>
      obtain ⟨s', hstep, hrest⟩ := System.run_cons.mp hrun
      have hlength := length_schedule_step hstep
      rw [List.length_cons] at hfuel
      have hshort : s.registered.length < fuel := by omega
      have hrestFuel : s'.registered.length + events.length < fuel := by omega
      obtain ⟨c', hmoves, h'⟩ := h.step hstep hshort
      obtain ⟨d, hd, hkeeps⟩ := ih h' hrest hrestFuel
      exact ⟨d, System.run_cons.mpr ⟨c', hmoves, hd⟩, hkeeps⟩

end Runs

end NiosHps.Board
