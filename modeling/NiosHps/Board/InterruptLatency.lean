import NiosHps.Board.InterruptDispatch
import NiosHps.Foundation.PriorityService

/-!
# How long a request waits

`alt_irq_handler` serves the lowest line that is pending, and looks again after
every routine.  A line is pending from its request until its routine starts;
while that routine has still to clear it, a new request changes nothing.  So the
board serves by priority, and a request waits for the lines below its own: those
that are pending, and those that become pending meanwhile.  Each of them costs
the processor four steps at most.
-/

namespace NiosHps.Board

open NiosHps.Foundation
open Handshake (secondPage)

/-- The line that a routine has still to clear. -/
def Routine.clears : Routine → Option Irq
  | .jtagUartIrq => some jtagUart0Irq
  | .timerScIrq | .timer0_1msIsr => some timer0_1msIrq
  | .btnIsr | .btnIsrClear _ => some pioBtnIrq
  | .swIsr => some pioSwIrq
  | .timer1_100usIsr | .timer1_100usIsrClear => some timer1_100usIrq
  | .btnIsrAct _ | .swIsrShow => none

def CpuMode.clears : CpuMode → Option Irq
  | .routine r => r.clears
  | _ => none

def Routine.stepsLeft : Routine → Nat
  | .btnIsr => 3
  | .btnIsrClear _ | .swIsr | .timer1_100usIsr => 2
  | _ => 1

def CpuMode.stepsLeft : CpuMode → Nat
  | .main => 2
  | .exception => 1
  | .routine r => r.stepsLeft
  | .handler | .again => 0

def SocEvent.isCpu : SocEvent → Bool
  | .cpu => true
  | _ => false

namespace Soc

def Requested (b : Soc) (i : Irq) : Prop :=
  b.devices.requests.getD i false = true ∧
    registered b.boot b.startUp.stage i = true

def pending (b : Soc) : Finset Irq :=
  Finset.univ.filter fun i =>
    b.ipending.getLsbD i = true ∧ b.mode.clears ≠ some i

def serves (b : Soc) : SocEvent → Option Irq
  | .cpu =>
      if b.mode = .handler ∨ b.mode = .again then firstActive b.ipending
      else none
  | _ => none

/-- The initialisation is over, and the program has come to things in order. -/
structure Booted (b : Soc) : Prop where
  wired : b.Wired
  awake : b.boot ≠ .irqInit
  armed : b.pio ≠ .done → b.startUp.stage = .decryptWh
  enabled : b.mode = .main → b.boot ≠ .cpuEnable → b.controller.pie = true

section Booted

variable {off : SharedDataOffset} {b b' : Soc} {e : SocEvent}

theorem Booted.mem_pending (h : b.Booted) {i : Irq} :
    i ∈ b.pending ↔ b.Requested i ∧ b.mode.clears ≠ some i := by
  rw [pending, Finset.mem_filter, ipending_getLsbD, h.wired.table.ienable h.awake,
    h.wired.table.altIrqActive, Bool.and_eq_true]
  exact ⟨fun hi => hi.2, fun hi => ⟨Finset.mem_univ i, hi⟩⟩

/-! ## What a step keeps -/

theorem lt_of_registered {boot : BootStage} {i : Irq}
    (hregistered : registered boot .decryptWh i = true) : i.val < 2 := by
  revert i
  cases boot <;> decide

theorem registered_mainStep {s s' : StartUp} (hstep : s.mainStep = some s')
    {boot : BootStage} {i : Irq}
    (hregistered : registered boot s.stage i = true) :
    registered boot s'.stage i = true := by
  unfold StartUp.mainStep at hstep
  cases hstage : s.stage <;> rw [hstage] at hstep hregistered <;> cases hstep
  · rwa [registered_registerBtn]
  · simp only [(registered_next boot i).1, hregistered, Bool.or_true]
  · simp only [(registered_next boot i).2.1, hregistered, Bool.or_true]
  · simp only [(registered_next boot i).2.2, hregistered, Bool.or_true]

/-- Clearing the captures before anything is registered loses no request. -/
theorem Requested.of_pio {i : Irq} {devices : Devices} {pio : PioStage}
    (hi : b.Requested i) (hstage : b.startUp.stage = .decryptWh)
    (huart : devices.jtagUart = b.devices.jtagUart)
    (htimer : devices.timer0To = b.devices.timer0To) :
    Requested { b with devices := devices, pio := pio } i := by
  obtain ⟨hrequest, hregistered⟩ := hi
  refine ⟨?_, hregistered⟩
  rw [hstage] at hregistered
  have hlt := lt_of_registered hregistered
  interval_cases i.val
  · exact huart.trans hrequest
  · exact htimer.trans hrequest

theorem Booted.afterHandshake (h : b.Booted)
    (hstep : b.afterHandshake = some b') {i : Irq} (hi : b.Requested i) :
    b'.Requested i := by
  have hstage := h.armed
  unfold Soc.afterHandshake at hstep
  cases hpio : b.pio with
  | done =>
      simp only [hpio] at hstep
      cases hmain : b.startUp.mainStep with
      | none =>
          simp only [hmain] at hstep
          cases hstep
          exact hi
      | some startUp =>
          have hregistered := registered_mainStep hmain hi.2
          simp only [hmain] at hstep
          cases hregistration : registration b.startUp.stage <;>
            simp only [hregistration] at hstep <;> cases hstep <;>
            exact ⟨hi.1, hregistered⟩
  | _ =>
      have hstage := hstage (by rw [hpio]; exact nofun)
      simp only [hpio] at hstep
      cases hstep
      exact hi.of_pio hstage rfl rfl

theorem Booted.mainStep (h : b.Booted) (hstep : b.mainStep off = some b')
    {i : Irq} (hi : b.Requested i) : b'.Requested i := by
  have hregistered := hi.2
  have hearly := h.wired.early
  unfold Soc.mainStep at hstep
  cases hboot : b.boot <;> rw [hboot] at hregistered hearly <;>
    simp only [hboot] at hstep
  case main =>
    split_ifs at hstep
    · exact h.afterHandshake hstep hi
    · obtain ⟨handshake, -, rfl⟩ := Option.map_eq_some_iff.mp hstep
      exact ⟨hi.1, hregistered⟩
  all_goals
    have hstage := hearly nofun
    rw [hstage] at hregistered
  case jtagUartRegister =>
    cases hstep
    refine ⟨hi.1, ?_⟩
    change registered .main b.startUp.stage i = true
    rw [hstage, (registered_boot i).2, hregistered, Bool.or_true]
  all_goals
    rw [registered_of_early (by decide)] at hregistered
    contradiction

structure OnLine (r : Routine) (b b' : Soc) : Prop where
  boot : b'.boot = b.boot
  pio : b'.pio = b.pio
  stage : b'.startUp.stage = b.startUp.stage
  mode : b'.mode ≠ .main
  requests : ∀ i : Irq, r.clears ≠ some i →
    b.devices.requests.getD i false = true →
    b'.devices.requests.getD i false = true
  clears : ∀ i, r.clears ≠ some i → b'.mode.clears ≠ some i
  stepsLeft : b'.mode.stepsLeft + 1 = r.stepsLeft

theorem onLine_callIsr {r : Routine} {e : Interrupt} {mode : CpuMode}
    (hstep : b.callIsr e mode = some b') (hmode : mode ≠ .main)
    (hclears : ∀ i, r.clears ≠ some i → mode.clears ≠ some i)
    (hstepsLeft : mode.stepsLeft + 1 = r.stepsLeft) : OnLine r b b' := by
  obtain ⟨nios, -, rfl⟩ := Option.map_eq_some_iff.mp hstep
  exact ⟨rfl, rfl, rfl, hmode, fun _ _ => id, hclears, hstepsLeft⟩

theorem routineStep_onLine {r : Routine} (hroutine : r ≠ .timer0_1msIsr)
    (hstep : b.routineStep r = some b') : OnLine r b b' := by
  cases r with
  | jtagUartIrq =>
      cases hstep
      refine ⟨rfl, rfl, rfl, nofun, ?_, nofun, rfl⟩
      rintro ⟨_ | n, hn⟩ hne hrequest
      · exact absurd rfl hne
      · exact hrequest
  | timerScIrq =>
      cases hstep
      refine ⟨rfl, rfl, rfl, nofun, ?_, nofun, rfl⟩
      rintro ⟨_ | _ | n, hn⟩ hne hrequest
      · exact hrequest
      · exact absurd rfl hne
      · exact hrequest
  | btnIsr =>
      cases hstep
      exact ⟨rfl, rfl, rfl, nofun, fun _ _ => id, fun _ => id, rfl⟩
  | btnIsrClear edgeCapture =>
      cases hstep
      refine ⟨rfl, rfl, rfl, nofun, ?_, nofun, rfl⟩
      rintro ⟨_ | _ | _ | n, hn⟩ hne hrequest
      · exact hrequest
      · exact hrequest
      · exact absurd rfl hne
      · exact hrequest
  | btnIsrAct edgeCapture => exact onLine_callIsr hstep nofun nofun rfl
  | swIsr =>
      cases hstep
      refine ⟨rfl, rfl, rfl, nofun, ?_, nofun, rfl⟩
      rintro ⟨_ | _ | _ | _ | n, hn⟩ hne hrequest
      · exact hrequest
      · exact hrequest
      · exact hrequest
      · exact absurd rfl hne
      · exact hrequest
  | swIsrShow => exact onLine_callIsr hstep nofun nofun rfl
  | timer1_100usIsr => exact onLine_callIsr hstep nofun (fun _ => id) rfl
  | timer1_100usIsrClear =>
      cases hstep
      refine ⟨rfl, rfl, rfl, nofun, ?_, nofun, rfl⟩
      rintro ⟨_ | _ | _ | _ | _ | n, hn⟩ hne hrequest
      · exact hrequest
      · exact hrequest
      · exact hrequest
      · exact hrequest
      · exact absurd rfl hne
      · exact hrequest
  | timer0_1msIsr => exact absurd rfl hroutine

/-! ## The order of things is kept -/

theorem Booted.keep (h : b.Booted) (hwired : b'.Wired) (hboot : b'.boot = b.boot)
    (hpio : b'.pio = b.pio) (hstage : b'.startUp.stage = b.startUp.stage)
    (henabled : b'.mode = .main → b'.boot ≠ .cpuEnable →
      b'.controller.pie = true) : b'.Booted where
  wired := hwired
  awake := by rw [hboot]; exact h.awake
  armed := by rw [hpio, hstage]; exact h.armed
  enabled := henabled

theorem Booted.ofAfterHandshake (h : b.Booted) (hmode : b.mode = .main)
    (hboot : b.boot = .main) (hwired : b'.Wired)
    (hstep : b.afterHandshake = some b') : b'.Booted ∧ b'.mode = b.mode := by
  have hpie := h.enabled hmode (by rw [hboot]; exact nofun)
  have hstage := h.armed
  unfold Soc.afterHandshake at hstep
  cases hpio : b.pio with
  | done =>
      simp only [hpio] at hstep
      cases hmain : b.startUp.mainStep with
      | none =>
          simp only [hmain] at hstep
          cases hstep
          exact ⟨h, rfl⟩
      | some startUp =>
          simp only [hmain] at hstep
          cases hregistration : registration b.startUp.stage <;>
            simp only [hregistration] at hstep <;> cases hstep <;>
            exact ⟨⟨hwired, h.awake, fun hne => absurd rfl hne,
              fun _ _ => hpie⟩, rfl⟩
  | _ =>
      have hstage := hstage (by rw [hpio]; exact nofun)
      simp only [hpio] at hstep
      cases hstep
      exact ⟨⟨hwired, h.awake, fun _ => hstage, fun _ _ => hpie⟩, rfl⟩

theorem Booted.ofMainStep (h : b.Booted) (hmode : b.mode = .main)
    (hwired : b'.Wired) (hstep : b.mainStep off = some b') :
    b'.Booted ∧ b'.mode = b.mode := by
  have hpie := h.enabled hmode
  unfold Soc.mainStep at hstep
  cases hboot : b.boot <;> simp only [hboot] at hstep <;> rw [hboot] at hpie
  case main =>
    split_ifs at hstep
    · exact h.ofAfterHandshake hmode hboot hwired hstep
    · obtain ⟨handshake, -, rfl⟩ := Option.map_eq_some_iff.mp hstep
      exact ⟨⟨hwired, nofun, h.armed, fun _ _ => hpie nofun⟩, rfl⟩
  case irqInit => exact absurd hboot h.awake
  case cpuEnable =>
    cases hstep
    exact ⟨⟨hwired, nofun, h.armed, fun _ _ => rfl⟩, rfl⟩
  all_goals
    cases hstep
    exact ⟨⟨hwired, nofun, h.armed, fun _ _ => hpie nofun⟩, rfl⟩

/-! ## The board serves the lowest line -/

theorem serves_eq_none {e : SocEvent} (he : e ≠ .cpu) : b.serves e = none := by
  cases e with
  | cpu => exact absurd rfl he
  | _ => rfl

theorem serves_of_mode (hmode : b.mode ≠ .handler ∧ b.mode ≠ .again) :
    b.serves .cpu = none := by
  simp only [serves, hmode.1, hmode.2, or_self, if_false]

structure Serves (b b' : Soc) (served : Option Irq) : Prop where
  booted : b'.Booted
  keeps : ∀ i ∈ b.pending, served ≠ some i → i ∈ b'.pending
  least : ∀ i, served = some i → i ∈ b.pending ∧ ∀ j ∈ b.pending, i ≤ j

theorem Booted.serves_none (h : b.Booted) (hbooted : b'.Booted)
    (hrequested : ∀ i, b.Requested i → b.mode.clears ≠ some i →
      b'.Requested i)
    (hclears : ∀ i, b.mode.clears ≠ some i → b'.mode.clears ≠ some i) :
    Serves b b' none where
  booted := hbooted
  keeps i hi _ := by
    obtain ⟨hrequest, hclear⟩ := h.mem_pending.mp hi
    exact hbooted.mem_pending.mpr ⟨hrequested i hrequest hclear, hclears i hclear⟩
  least := nofun

theorem clears_enter {i : Irq} {isr : IsrFunc} (hroutine : routineOf i = some isr) :
    isr.enter.clears = some i := by
  unfold routineOf at hroutine
  split at hroutine <;> cases hroutine <;> rfl

theorem Booted.serves_dispatch (h : b.Booted)
    (hmode : b.mode = .handler ∨ b.mode = .again ∧ b.ipending ≠ 0)
    (hstep : b.dispatch = some b') : Serves b b' (firstActive b.ipending) := by
  obtain ⟨hne, hclear, hpending⟩ :
      b.mode ≠ .main ∧ b.mode.clears = none ∧ b.ipending ≠ 0 := by
    rcases hmode with hmode | ⟨hmode, hpending⟩
    · rw [hmode]
      exact ⟨nofun, rfl, h.wired.requested (.inr hmode)⟩
    · rw [hmode]
      exact ⟨nofun, rfl, hpending⟩
  have hmem (i : Irq) : i ∈ b.pending ↔ b.ipending.getLsbD i = true := by
    rw [pending, Finset.mem_filter, hclear]
    simp
  obtain ⟨i, isr, hfirst, hroutine, hnext, hwired⟩ :=
    h.wired.dispatch h.awake (h.wired.estatus hne) hpending
  rw [hnext] at hstep
  cases hstep
  have hbooted := h.keep hwired rfl rfl rfl nofun
  rcases firstActive_cases b.ipending with ⟨-, hzero⟩ | ⟨i', hfirst', hset, hleast⟩
  · exact absurd hzero hpending
  · obtain rfl : i = i' := Option.some.inj (hfirst.symm.trans hfirst')
    rw [hfirst]
    refine ⟨hbooted, fun j hj hserved => ?_, fun j hserved => ?_⟩
    · obtain ⟨hrequested, -⟩ := h.mem_pending.mp hj
      refine hbooted.mem_pending.mpr ⟨hrequested, ?_⟩
      exact fun hclears => hserved ((clears_enter hroutine).symm.trans hclears)
    · cases hserved
      exact ⟨(hmem i).mpr hset, fun j hj => hleast j ((hmem j).mp hj)⟩

theorem Booted.serves_cpu (h : b.Booted) (hstep : b.cpuStep off = some b') :
    Serves b b' (b.serves .cpu) := by
  have hwired := (h.wired.cpuStep hstep).wired
  rcases cpuStep_cases hstep with ⟨hmode, -, -, rfl⟩ | ⟨hmode, -, hmain⟩ |
    ⟨hmode, rfl⟩ | ⟨hmode, hdispatch⟩ | ⟨hmode, hzero, rfl⟩ |
    ⟨r, hmode, hroutine⟩
  · rw [serves_of_mode (by rw [hmode]; exact ⟨nofun, nofun⟩)]
    exact h.serves_none (h.keep hwired rfl rfl rfl nofun) (fun _ hi _ => hi)
      fun _ _ => nofun
  · rw [serves_of_mode (by rw [hmode]; exact ⟨nofun, nofun⟩)]
    obtain ⟨hbooted, hmode'⟩ := h.ofMainStep hmode hwired hmain
    refine h.serves_none hbooted (fun _ hi _ => h.mainStep hmain hi) fun i hi => ?_
    rwa [hmode']
  · rw [serves_of_mode (by rw [hmode]; exact ⟨nofun, nofun⟩)]
    exact h.serves_none (h.keep hwired rfl rfl rfl nofun) (fun _ hi _ => hi)
      fun _ _ => nofun
  · have hserves : b.serves .cpu = firstActive b.ipending :=
      if_pos (hmode.imp_right And.left)
    rw [hserves]
    exact h.serves_dispatch hmode hdispatch
  · have hserves : b.serves .cpu = none := by
      simp only [serves, hmode, hzero, or_true, if_true]
      decide
    have hestatus := h.wired.estatus (by rw [hmode]; exact nofun)
    rw [hserves]
    exact h.serves_none (h.keep hwired rfl rfl rfl fun _ _ => hestatus)
      (fun _ hi _ => hi) fun _ _ => nofun
  · rw [serves_of_mode (by rw [hmode]; exact ⟨nofun, nofun⟩)]
    have hframe := routineStep_onLine (h.wired.running r hmode).1 hroutine
    have hclears : b.mode.clears = r.clears := by rw [hmode]; rfl
    refine h.serves_none (h.keep hwired hframe.boot hframe.pio hframe.stage
      fun hmain => absurd hmain hframe.mode) (fun i hi hclear => ?_) ?_
    · rw [hclears] at hclear
      refine ⟨hframe.requests i hclear hi.1, ?_⟩
      rw [hframe.boot, hframe.stage]
      exact hi.2
    · rw [hclears]
      exact hframe.clears

theorem Booted.serves_step (h : b.Booted) (hstep : b.step off e = some b') :
    Serves b b' (b.serves e) := by
  have hwired := (h.wired.step hstep).wired
  have hdevice (hmoves : (b.deviceStep e).map
      (fun devices => { b with devices := devices }) = some b') :
      Serves b b' none := by
    obtain ⟨devices, hdevices, rfl⟩ := Option.map_eq_some_iff.mp hmoves
    exact h.serves_none (h.keep hwired rfl rfl rfl h.enabled)
      (fun _ hi _ => ⟨deviceStep_requests hdevices hi.1, hi.2⟩) fun _ => id
  cases e with
  | cpu => exact h.serves_cpu hstep
  | hps =>
      obtain ⟨startUp, hmoves, rfl⟩ := Option.map_eq_some_iff.mp hstep
      obtain ⟨handshake, -, rfl⟩ := Option.map_eq_some_iff.mp hmoves
      exact h.serves_none (h.keep hwired rfl rfl rfl h.enabled)
        (fun _ hi _ => hi) fun _ => id
  | hpsStore store =>
      obtain ⟨startUp, hmoves, rfl⟩ := Option.map_eq_some_iff.mp hstep
      simp only [StartUp.step] at hmoves
      split_ifs at hmoves
      cases hmoves
      exact h.serves_none (h.keep hwired rfl rfl rfl h.enabled)
        (fun _ hi _ => hi) fun _ => id
  | btn value => exact hdevice hstep
  | sw value => exact hdevice hstep
  | jtagUart => exact hdevice hstep
  | timeout0 => exact hdevice hstep
  | timeout1 => exact hdevice hstep

theorem servesLeast (off : SharedDataOffset) :
    (interrupted off).ServesLeast pending serves Booted where
  keeps b e b' h hstep i hi := by
    have hserves := h.serves_step hstep
    cases hserved : b.serves e with
    | none =>
        simp only [System.waiting, hserved] at hi
        exact hserves.keeps i hi (by rw [hserved]; exact nofun)
    | some j =>
        simp only [System.waiting, hserved, Finset.mem_erase] at hi
        refine hserves.keeps i hi.2 ?_
        rw [hserved]
        exact fun heq => hi.1 (Option.some.inj heq).symm
  least b e b' i h hstep hserved := (h.serves_step hstep).least i hserved

theorem step_of_ne_cpu (he : e ≠ .cpu) (hstep : b.step off e = some b') :
    b'.boot = b.boot ∧ b'.startUp.stage = b.startUp.stage ∧
      b'.mode = b.mode := by
  have hdevice (hmoves : (b.deviceStep e).map
      (fun devices => { b with devices := devices }) = some b') :
      b'.boot = b.boot ∧ b'.startUp.stage = b.startUp.stage ∧
        b'.mode = b.mode := by
    obtain ⟨devices, -, rfl⟩ := Option.map_eq_some_iff.mp hmoves
    exact ⟨rfl, rfl, rfl⟩
  cases e with
  | cpu => exact absurd rfl he
  | hps =>
      obtain ⟨startUp, hmoves, rfl⟩ := Option.map_eq_some_iff.mp hstep
      obtain ⟨handshake, -, rfl⟩ := Option.map_eq_some_iff.mp hmoves
      exact ⟨rfl, rfl, rfl⟩
  | hpsStore store =>
      obtain ⟨startUp, hmoves, rfl⟩ := Option.map_eq_some_iff.mp hstep
      simp only [StartUp.step] at hmoves
      split_ifs at hmoves
      cases hmoves
      exact ⟨rfl, rfl, rfl⟩
  | btn value => exact hdevice hstep
  | sw value => exact hdevice hstep
  | jtagUart => exact hdevice hstep
  | timeout0 => exact hdevice hstep
  | timeout1 => exact hdevice hstep

theorem Wired.irqInit (h : b.Wired) (hboot : b.boot = .irqInit)
    (hstep : b.step off .cpu = some b') :
    b' =
      { b with
        controller := { b.controller with ienable := 0 }, boot := .cpuEnable } := by
  obtain ⟨hmode, hpie⟩ := h.asleep hboot
  have hcpu : b.cpuStep off = some b' := hstep
  have htakes : ¬(b.controller.pie = true ∧ b.ipending ≠ 0) := fun htakes => by
    rw [hpie] at htakes
    exact absurd htakes.1 (by decide)
  simp only [Soc.cpuStep, hmode, if_neg htakes, Soc.mainStep, hboot] at hcpu
  rw [← Option.some.inj hcpu, hmode]

theorem reachable_booted (hb : (interrupted off).Reachable b)
    (hawake : b.boot ≠ .irqInit) : b.Booted := by
  induction hb with
  | init hinit =>
      obtain ⟨ienable, jtagUart, btn, sw, rfl⟩ := hinit
      exact absurd rfl hawake
  | @step b b' e hb hstep ih =>
      by_cases hboot : b.boot = .irqInit
      · have h := (wired_inductive off).reachable hb
        by_cases he : e = .cpu
        · subst he
          have hcpu : b.step off .cpu = some b' := hstep
          have hwired := (h.step hcpu).wired
          obtain rfl := h.irqInit hboot hcpu
          have hstage := h.early (by rw [hboot]; exact nofun)
          exact ⟨hwired, nofun, fun _ => hstage, fun _ hne => absurd rfl hne⟩
        · exact absurd ((step_of_ne_cpu he hstep).1.trans hboot) hawake
      · exact ((ih hboot).serves_step hstep).booted

/-! ## What it costs the processor -/

theorem Routine.stepsLeft_le (r : Routine) : r.stepsLeft ≤ 3 := by
  unfold Routine.stepsLeft
  split <;> decide

theorem CpuMode.stepsLeft_le (mode : CpuMode) : mode.stepsLeft ≤ 3 := by
  cases mode with
  | routine r => exact Routine.stepsLeft_le r
  | _ => decide

theorem card_before_le (requests : Finset Irq) (i : Irq) :
    (System.before i requests).card ≤ i.val := by
  have hsubset : System.before i requests ⊆ Finset.Iio i := fun j hj =>
    Finset.mem_Iio.mpr (System.mem_before.mp hj).2
  exact (Finset.card_le_card hsubset).trans_eq (Fin.card_Iio i)

theorem Booted.ipending_ne_zero (h : b.Booted) {i : Irq} (hi : i ∈ b.pending) :
    b.ipending ≠ 0 ∧ b.boot ≠ .cpuEnable := by
  refine ⟨fun hzero => ?_, fun hboot => ?_⟩
  · have hbit := (Finset.mem_filter.mp hi).2.1
    rw [hzero] at hbit
    simp at hbit
  · have hregistered := (h.mem_pending.mp hi).1.2
    rw [hboot, h.wired.early (by rw [hboot]; exact nofun),
      registered_of_early (by decide)] at hregistered
    contradiction

theorem Booted.stepsLeft_cpu (h : b.Booted) {i : Irq} (hi : i ∈ b.pending)
    (hstep : b.cpuStep off = some b') :
    1 + b'.mode.stepsLeft ≤
      b.mode.stepsLeft + 4 * (if (b.serves .cpu).isSome then 1 else 0) := by
  obtain ⟨hpending, hboot⟩ := h.ipending_ne_zero hi
  rcases cpuStep_cases hstep with ⟨hmode, -, -, rfl⟩ | ⟨hmode, hidle, -⟩ |
    ⟨hmode, rfl⟩ | ⟨hmode, hdispatch⟩ | ⟨-, hzero, -⟩ | ⟨r, hmode, hroutine⟩
  · rw [hmode]
    exact Nat.le_add_right 2 _
  · exact absurd ⟨h.enabled hmode hboot, hpending⟩ hidle
  · rw [hmode]
    exact Nat.le_add_right 1 _
  · have hserves : b.serves .cpu = firstActive b.ipending :=
      if_pos (hmode.imp_right And.left)
    have hne : b.mode ≠ .main := by
      rcases hmode with hmode | ⟨hmode, -⟩ <;> rw [hmode] <;> exact nofun
    obtain ⟨j, isr, hfirst, -, hnext, -⟩ :=
      h.wired.dispatch h.awake (h.wired.estatus hne) hpending
    rw [hnext] at hdispatch
    cases hdispatch
    rw [hserves, hfirst]
    have hle : 1 + isr.enter.stepsLeft ≤ 4 :=
      Nat.add_le_add_left (Routine.stepsLeft_le isr.enter) 1
    exact hle.trans (Nat.le_add_left 4 _)
  · exact absurd hzero hpending
  · have hframe := routineStep_onLine (h.wired.running r hmode).1 hroutine
    have hleft : b.mode.stepsLeft = r.stepsLeft := by rw [hmode]; rfl
    have hless := hframe.stepsLeft
    omega

theorem Booted.stepsLeft_step (h : b.Booted) {i : Irq} (hi : i ∈ b.pending)
    (hstep : b.step off e = some b') :
    (if e.isCpu then 1 else 0) + b'.mode.stepsLeft ≤
      b.mode.stepsLeft + 4 * (if (b.serves e).isSome then 1 else 0) := by
  by_cases he : e = .cpu
  · subst he
    exact h.stepsLeft_cpu hi hstep
  · have hnot : e.isCpu = false := by
      cases e <;> first | rfl | exact absurd rfl he
    rw [(step_of_ne_cpu he hstep).2.2, serves_eq_none he, hnot]
    exact le_of_eq (Nat.zero_add _)

def cpuSteps (events : List SocEvent) : Nat := events.countP SocEvent.isCpu

theorem Booted.cpuSteps_le (h : b.Booted) {i : Irq} (hi : i ∈ b.pending)
    {events : List SocEvent}
    (hrun : (interrupted off).run b events = some b')
    (hwaits : (interrupted off).AllSteps (fun b e => b.serves e ≠ some i) b
      events) :
    cpuSteps events + b'.mode.stepsLeft ≤
      b.mode.stepsLeft +
        4 * System.services (interrupted off) serves b events := by
  induction events generalizing b with
  | nil =>
      cases hrun
      exact le_of_eq (Nat.zero_add _)
  | cons e events ih =>
      obtain ⟨c, hstep, hrest⟩ := System.run_cons.mp hrun
      obtain ⟨hserves, hwaits⟩ := System.allSteps_cons.mp hwaits
      have hkeeps := h.serves_step hstep
      have hleft := ih hkeeps.booted (hkeeps.keeps i hi hserves) hrest
        (hwaits c hstep)
      have hone := h.stepsLeft_step hi hstep
      simp only [cpuSteps, List.countP_cons, System.services, hstep] at hleft ⊢
      omega

end Booted

/--
Once the initialisation has cleared `ienable`, a pending line stays pending until
its routine starts.  The processor comes to that after three steps, and four for
every line below that is pending or becomes so meanwhile.
-/
theorem irq_latency (off : SharedDataOffset) (b b' : Soc) (i : Irq)
    (events : List SocEvent) (hb : (interrupted off).Reachable b)
    (hawake : b.boot ≠ .irqInit) (hi : i ∈ b.pending)
    (hrun : (interrupted off).run b events = some b')
    (hwaits : (interrupted off).AllSteps (fun b e => b.serves e ≠ some i) b
      events) :
    i ∈ b'.pending ∧
      cpuSteps events ≤ 3 + 4 * ((System.before i b.pending).card +
        System.arrivalsBefore (interrupted off) pending serves i b events) := by
  have h := reachable_booted hb hawake
  obtain ⟨hend, hcount⟩ := (servesLeast off).services_eq
    (fun _ _ _ hs hstep => (hs.serves_step hstep).booted) h hrun hi hwaits
  have hcpu := h.cpuSteps_le hi hrun hwaits
  have hfirst := CpuMode.stepsLeft_le b.mode
  refine ⟨hend, ?_⟩
  omega

def clockRun : List SocEvent :=
  [.cpu, .cpu, .cpu, .cpu, .cpu, .jtagUart, .timeout0]

theorem irq_latency_clock :
    ∃ b b', (interrupted secondPage).run (reset 0 false 0 0) clockRun = some b ∧
      (interrupted secondPage).run b [.cpu, .cpu, .cpu, .cpu] = some b' ∧
      timer0_1msIrq ∈ b'.pending := by
  have hinit : (interrupted secondPage).Reachable (reset 0 false 0 0) :=
    .init ⟨0, false, 0, 0, rfl⟩
  have hrun (b : Soc)
      (hb : (interrupted secondPage).run (reset 0 false 0 0) clockRun = some b) :
      (interrupted secondPage).Reachable b := hinit.run hb
  refine ⟨_, _, rfl, rfl, ?_⟩
  exact (irq_latency secondPage _ _ timer0_1msIrq [.cpu, .cpu, .cpu, .cpu]
    (hrun _ rfl) (by decide) (by decide) rfl
    ⟨by decide, by decide, by decide, by decide, trivial⟩).1

end Soc

end NiosHps.Board
