import NiosHps.Board.InterruptTable

/-!
# What the interrupt handler runs

The controller and the program agree at every step: a line is enabled exactly
if its routine is in the table, and a request stays until its own routine has
cleared it.  So the handler finds a request whenever it looks for one without a
test, the entry that it takes is never empty, and it is always the routine of
the device.  The routine that filters in `main.c` is never registered: the line
of its timer belongs to the system clock.

Over `StartUp`, whose interrupts arrive only once they are registered and the
timer only once it runs, all this is no more than the choice of an interrupt.
-/

namespace NiosHps.Board

open NiosHps.Foundation
open Handshake (secondPage)

theorem Nios.isr_timer1Started {s s' : Nios} {e : Interrupt}
    (hisr : s.isr e = some s') (hstarted : s.timer1Started = true) :
    s'.timer1Started = true := by
  have hdecrypt (hpx : s.decryptPx = some s') : s'.timer1Started = true := by
    unfold decryptPx at hpx
    split_ifs at hpx
    cases hpx
    exact hstarted
  cases e with
  | btn edgeCapture pioSw =>
      simp only [isr, btnIsr] at hisr
      split_ifs at hisr <;> (try exact hdecrypt hisr) <;> cases hisr
      · unfold increase
        split_ifs <;> exact hstarted
      · exact hstarted
      · exact hstarted
      · exact hstarted
      · exact hstarted
      · exact hstarted
      · rfl
      · exact hstarted
  | sw pioSw =>
      cases hisr
      unfold swIsr
      split_ifs <;> exact hstarted
  | timer1 pioSw =>
      simp only [isr, timer1_100usIsr] at hisr
      split_ifs at hisr
      · exact hdecrypt hisr
      · cases hisr
        exact hstarted
      · cases hisr
        exact hstarted

namespace Soc

/-! ## The invariant -/

structure Wired (b : Soc) : Prop where
  table : Table b.boot b.startUp.stage b.controller
  early : b.boot ≠ .main → b.startUp.stage = .decryptWh
  asleep : b.boot = .irqInit → b.mode = .main ∧ b.controller.pie = false
  estatus : b.mode ≠ .main → b.controller.estatus = true
  requested : b.mode = .exception ∨ b.mode = .handler → b.ipending ≠ 0
  running : ∀ r, b.mode = .routine r →
    r ≠ .timer0_1msIsr ∧ registered b.boot b.startUp.stage r.irq = true ∧
      (r.irq = timer1_100usIrq → b.nios.timer1Started = true)
  timer1 : b.devices.timer1To = true → b.nios.timer1Started = true

section Wired

variable {off : SharedDataOffset} {b b' : Soc}

theorem table_reset (ienable : BitVec 32) (jtagUart : Bool) (btn : BitVec 4)
    (sw : BitVec 10) :
    Table .irqInit .decryptWh (reset ienable jtagUart btn sw).controller := by
  refine ⟨fun i => ?_, fun i => ?_, fun hboot => absurd rfl hboot⟩
  · rw [registered_of_early (by decide)]
    rfl
  · rw [registered_of_early (by decide)]
    exact BitVec.getLsbD_zero

theorem wired_reset (ienable : BitVec 32) (jtagUart : Bool) (btn : BitVec 4)
    (sw : BitVec 10) : (reset ienable jtagUart btn sw).Wired where
  table := table_reset ienable jtagUart btn sw
  early _ := rfl
  asleep _ := ⟨rfl, rfl⟩
  estatus hmode := absurd rfl hmode
  requested hmode := by rcases hmode with hmode | hmode <;> contradiction
  running := nofun
  timer1 := nofun

theorem ipending_ne_zero {b b' : Soc} (hpending : b.ipending ≠ 0)
    (hienable : b'.controller.ienable = b.controller.ienable)
    (hrequests : ∀ i, b.devices.requests.getD i false = true →
      b'.devices.requests.getD i false = true) : b'.ipending ≠ 0 := by
  intro hzero
  refine hpending (BitVec.eq_of_getLsbD_eq fun i hi => ?_)
  have hbit := congrArg (BitVec.getLsbD · i) hzero
  have hbefore := b.ipending_getLsbD ⟨i, hi⟩
  have hafter := b'.ipending_getLsbD ⟨i, hi⟩
  simp only at hbit hbefore hafter
  rw [hbefore]
  rw [hafter, hienable] at hbit
  cases hrequest : b.devices.requests.getD i false with
  | false => simp
  | true =>
      rw [hrequests i hrequest] at hbit
      simpa using hbit

theorem Wired.device (h : b.Wired) {e : SocEvent} {devices : Devices}
    (hstep : b.deviceStep e = some devices) :
    Wired { b with devices := devices } where
  table := h.table
  early := h.early
  asleep := h.asleep
  estatus := h.estatus
  requested hmode := ipending_ne_zero (h.requested hmode) rfl fun _ hrequest =>
    deviceStep_requests hstep hrequest
  running := h.running
  timer1 hto := by
    cases e <;> simp only [deviceStep] at hstep <;> (try split_ifs at hstep) <;>
      cases hstep <;> first | exact h.timer1 hto | assumption

theorem Wired.startUp (h : b.Wired) {startUp : StartUp}
    (hstage : startUp.stage = b.startUp.stage)
    (hstarted : b.nios.timer1Started = true →
      startUp.nios.timer1Started = true) :
    Wired { b with startUp := startUp } where
  table := by
    change Table b.boot startUp.stage b.controller
    rw [hstage]
    exact h.table
  early hboot := hstage.trans (h.early hboot)
  asleep := h.asleep
  estatus := h.estatus
  requested := h.requested
  running r hmode := by
    obtain ⟨hroutine, hregistered, htimer⟩ := h.running r hmode
    refine ⟨hroutine, ?_, fun hirq => hstarted (htimer hirq)⟩
    change registered b.boot startUp.stage r.irq = true
    rwa [hstage]
  timer1 hto := hstarted (h.timer1 hto)

theorem wired_main (hmode : b.mode = .main)
    (htable : Table b.boot b.startUp.stage b.controller)
    (hearly : b.boot ≠ .main → b.startUp.stage = .decryptWh)
    (hasleep : b.boot = .irqInit → b.controller.pie = false)
    (htimer1 : b.devices.timer1To = true → b.nios.timer1Started = true) :
    b.Wired where
  table := htable
  early := hearly
  asleep hboot := ⟨hmode, hasleep hboot⟩
  estatus hne := absurd hmode hne
  requested hor := by rw [hmode] at hor; rcases hor with hor | hor <;> contradiction
  running r hr := by rw [hmode] at hr; contradiction
  timer1 := htimer1

theorem wired_boot {boot : BootStage} {c : InterruptController}
    {devices : Devices} (hmode : b.mode = .main)
    (hstage : b.startUp.stage = .decryptWh) (htable : Table boot .decryptWh c)
    (hasleep : boot = .irqInit → c.pie = false)
    (htimer1 : devices.timer1To = true → b.nios.timer1Started = true) :
    Wired { b with boot := boot, controller := c, devices := devices } := by
  refine wired_main hmode ?_ (fun _ => hstage) hasleep htimer1
  change Table boot b.startUp.stage c
  rw [hstage]
  exact htable

theorem Wired.afterHandshake (h : b.Wired) (hmode : b.mode = .main)
    (hboot : b.boot = .main) (hstep : b.afterHandshake = some b') : b'.Wired := by
  have hearly {stage : MainStage} (hne : b.boot ≠ .main) : stage = .decryptWh :=
    absurd hboot hne
  have hasleep {P : Prop} (heq : b.boot = .irqInit) : P := by
    rw [hboot] at heq
    contradiction
  unfold Soc.afterHandshake at hstep
  cases hpio : b.pio with
  | done =>
      simp only [hpio] at hstep
      cases hmain : b.startUp.mainStep with
      | none =>
          simp only [hmain] at hstep
          cases hstep
          exact h
      | some startUp =>
          have htable := h.table.mainStep hmain
          have htimer1 := mainStep_timer1Started hmain
          simp only [hmain] at hstep
          cases hregistration : registration b.startUp.stage with
          | none =>
              simp only [hregistration] at hstep htable
              cases hstep
              exact wired_main hmode htable hearly hasleep fun hto =>
                htimer1.trans (h.timer1 hto)
          | some registration =>
              obtain ⟨irq, isr⟩ := registration
              simp only [hregistration] at hstep htable
              cases hstep
              exact wired_main hmode htable hearly hasleep fun hto =>
                htimer1.trans (h.timer1 hto)
  | _ =>
      simp only [hpio] at hstep
      cases hstep
      exact wired_main hmode h.table hearly hasleep h.timer1

theorem Wired.mainStep (h : b.Wired) (hmode : b.mode = .main)
    (hstep : b.mainStep off = some b') : b'.Wired := by
  have htable := h.table
  have hstage (hne : b.boot ≠ .main) := h.early hne
  unfold Soc.mainStep at hstep
  cases hboot : b.boot <;> rw [hboot] at htable hstage <;>
    simp only [hboot] at hstep
  case main =>
    split_ifs at hstep
    · exact h.afterHandshake hmode hboot hstep
    · obtain ⟨handshake, -, rfl⟩ := Option.map_eq_some_iff.mp hstep
      exact wired_main hmode htable (fun hne => absurd rfl hne) nofun h.timer1
  all_goals
    have hstage := hstage nofun
    rw [hstage] at htable
    cases hstep
  case irqInit =>
    exact wired_boot hmode hstage (htable.early (by decide) (by decide) rfl rfl
      fun _ => rfl) nofun h.timer1
  case cpuEnable =>
    exact wired_boot hmode hstage (htable.early (by decide) (by decide) rfl rfl
      fun _ => htable.ienable_of_early (by decide) nofun) nofun h.timer1
  case timer0Start =>
    exact wired_boot hmode hstage (htable.early (by decide) (by decide) rfl rfl
      fun _ => htable.ienable_of_early (by decide) nofun) nofun h.timer1
  case timer0Register =>
    exact wired_boot hmode hstage
      (htable.register rfl fun i => (registered_boot i).1) nofun h.timer1
  case jtagUartRegister =>
    exact wired_boot hmode hstage
      (htable.register rfl fun i => (registered_boot i).2) nofun h.timer1

theorem Wired.dispatch (h : b.Wired) (hawake : b.boot ≠ .irqInit)
    (hestatus : b.controller.estatus = true) (hpending : b.ipending ≠ 0) :
    ∃ i isr, firstActive b.ipending = some i ∧ routineOf i = some isr ∧
      b.dispatch = some { b with mode := .routine isr.enter } ∧
      Wired { b with mode := .routine isr.enter } := by
  rcases firstActive_cases b.ipending with ⟨-, hzero⟩ | ⟨i, hfound, hset, -⟩
  · exact absurd hzero hpending
  · rw [ipending_getLsbD, Bool.and_eq_true, h.table.ienable hawake,
      h.table.altIrqActive] at hset
    have haltIrq := h.table.altIrq i
    rw [if_pos hset.2] at haltIrq
    obtain ⟨isr, hisr⟩ := routineOf_of_registered hset.2
    obtain ⟨hirq, hroutine⟩ := enter_of_routineOf hisr
    refine ⟨i, isr, hfound, hisr, ?_, ?_⟩
    · simp only [Soc.dispatch, hfound, haltIrq, hisr, Option.bind_some,
        Option.map_some]
    · refine ⟨h.table, h.early, fun hboot => absurd hboot hawake, fun _ => hestatus,
        fun hor => ?_, fun r hr => ?_, h.timer1⟩
      · rcases hor with hor | hor <;> contradiction
      · simp only [CpuMode.routine.injEq] at hr
        subst hr
        refine ⟨hroutine, ?_, fun htimer => h.timer1 ?_⟩
        · rw [hirq]
          exact hset.2
        · have hi : i = timer1_100usIrq := hirq.symm.trans htimer
          rw [hi] at hset
          exact hset.1

theorem Wired.routine (h : b.Wired) {r : Routine} (hmode : b.mode = .routine r)
    {nios : Nios} {devices : Devices} {mode : CpuMode}
    (hnext : mode.Continues r)
    (hstarted : b.nios.timer1Started = true → nios.timer1Started = true)
    (hto : devices.timer1To = true → b.devices.timer1To = true) :
    Wired
      { b with
        startUp := { b.startUp with nios := nios }
        devices := devices
        mode := mode } where
  table := h.table
  early := h.early
  asleep hboot := by
    have hmain := (h.asleep hboot).1
    rw [hmode] at hmain
    contradiction
  estatus _ := h.estatus (by rw [hmode]; exact nofun)
  requested hor := by
    rcases hor with rfl | rfl
    · exact hnext.elim
    · exact hnext.elim
  running r' hr' := by
    subst hr'
    obtain ⟨-, hregistered, htimer⟩ := h.running r hmode
    refine ⟨hnext.2, ?_, fun hirq => hstarted (htimer (hnext.1 ▸ hirq))⟩
    rw [hnext.1]
    exact hregistered
  timer1 hto' := hstarted (h.timer1 (hto hto'))

/-- What the board allows of a step, and what `StartUp` makes of it. -/
structure Follows (off : SharedDataOffset) (b b' : Soc) : Prop where
  wired : b'.Wired
  startUp : b'.startUp = b.startUp ∨
    ∃ e, b.startUp.step off e = some b'.startUp

theorem mainStep_startUp (hstep : b.mainStep off = some b') :
    b'.startUp = b.startUp ∨ ∃ e, b.startUp.step off e = some b'.startUp := by
  unfold Soc.mainStep at hstep
  cases hboot : b.boot <;> simp only [hboot] at hstep
  case main =>
    split_ifs at hstep with hdone
    · unfold Soc.afterHandshake at hstep
      cases hpio : b.pio <;> simp only [hpio] at hstep
      case done =>
        cases hmain : b.startUp.mainStep with
        | none =>
            simp only [hmain] at hstep
            cases hstep
            exact .inl rfl
        | some startUp =>
            have hmoves : b.startUp.step off .main = some startUp := by
              rw [← hmain]
              exact if_pos hdone
            simp only [hmain] at hstep
            cases hregistration : registration b.startUp.stage <;>
              simp only [hregistration] at hstep <;> cases hstep <;>
              exact .inr ⟨_, hmoves⟩
      all_goals
        cases hstep
        exact .inl rfl
    · obtain ⟨handshake, hnios, rfl⟩ := Option.map_eq_some_iff.mp hstep
      refine .inr ⟨.handshake .nios, ?_⟩
      simp only [StartUp.step, Handshake.step, hnios, Option.map_some]
  all_goals
    cases hstep
    exact .inl rfl

theorem Wired.arrives (h : b.Wired) {r : Routine} (hmode : b.mode = .routine r)
    {e : Interrupt} (hirq : r.irq = e.irq) : b.startUp.Arrives e := by
  obtain ⟨-, hregistered, htimer⟩ := h.running r hmode
  refine ⟨?_, ?_⟩
  · rwa [← registered_irq b.boot, ← hirq]
  · cases e with
    | timer1 pioSw => exact htimer hirq
    | btn edgeCapture pioSw => rfl
    | sw pioSw => rfl

theorem Wired.notAsleep (h : b.Wired) {mode : CpuMode} (hmode : b.mode = mode)
    (hne : mode ≠ .main) {P : Prop} (hboot : b.boot = .irqInit) : P :=
  absurd (hmode.symm.trans (h.asleep hboot).1) hne

theorem Wired.callIsr (h : b.Wired) {r : Routine} (hmode : b.mode = .routine r)
    {e : Interrupt} {mode : CpuMode} (hnext : mode.Continues r)
    (harrives : b.startUp.Arrives e) (hstep : b.callIsr e mode = some b') :
    Follows off b b' := by
  obtain ⟨nios, hisr, rfl⟩ := Option.map_eq_some_iff.mp hstep
  refine ⟨h.routine hmode hnext (Nios.isr_timer1Started hisr) id,
    .inr ⟨.interrupt e, ?_⟩⟩
  simp only [StartUp.step, if_pos harrives, hisr, Option.map_some]

theorem Wired.routineStep (h : b.Wired) {r : Routine}
    (hmode : b.mode = .routine r) (hstep : b.routineStep r = some b') :
    Follows off b b' := by
  have hagain : CpuMode.again.Continues r := trivial
  cases r with
  | jtagUartIrq =>
      cases hstep
      exact ⟨h.routine hmode hagain id id, .inl rfl⟩
  | timerScIrq =>
      cases hstep
      exact ⟨h.routine hmode hagain id id, .inl rfl⟩
  | btnIsr =>
      cases hstep
      exact ⟨h.routine hmode ⟨rfl, nofun⟩ id id, .inl rfl⟩
  | btnIsrClear edgeCapture =>
      cases hstep
      exact ⟨h.routine hmode ⟨rfl, nofun⟩ id id, .inl rfl⟩
  | btnIsrAct edgeCapture =>
      exact h.callIsr hmode hagain (h.arrives hmode rfl) hstep
  | swIsr =>
      cases hstep
      exact ⟨h.routine hmode ⟨rfl, nofun⟩ id id, .inl rfl⟩
  | swIsrShow => exact h.callIsr hmode hagain (h.arrives hmode rfl) hstep
  | timer1_100usIsr =>
      have harrives : b.startUp.Arrives (.timer1 b.pioSw) := h.arrives hmode rfl
      have hnext : (CpuMode.routine .timer1_100usIsrClear).Continues
          .timer1_100usIsr := ⟨rfl, nofun⟩
      exact h.callIsr hmode hnext harrives hstep
  | timer1_100usIsrClear =>
      cases hstep
      exact ⟨h.routine hmode hagain id nofun, .inl rfl⟩
  | timer0_1msIsr => exact absurd rfl (h.running _ hmode).1

theorem cpuStep_cases (hstep : b.cpuStep off = some b') :
    (b.mode = .main ∧ b.controller.pie = true ∧ b.ipending ≠ 0 ∧
      b' =
        { b with
          controller :=
            { b.controller with estatus := b.controller.pie, pie := false }
          mode := .exception }) ∨
    (b.mode = .main ∧ ¬(b.controller.pie = true ∧ b.ipending ≠ 0) ∧
      b.mainStep off = some b') ∨
    (b.mode = .exception ∧ b' = { b with mode := .handler }) ∨
    ((b.mode = .handler ∨ b.mode = .again ∧ b.ipending ≠ 0) ∧
      b.dispatch = some b') ∨
    (b.mode = .again ∧ b.ipending = 0 ∧
      b' =
        { b with
          controller := { b.controller with pie := b.controller.estatus }
          mode := .main }) ∨
    ∃ r, b.mode = .routine r ∧ b.routineStep r = some b' := by
  unfold Soc.cpuStep at hstep
  cases hmode : b.mode with
  | main =>
      simp only [hmode] at hstep
      split_ifs at hstep with htakes
      · cases hstep
        exact .inl ⟨rfl, htakes.1, htakes.2, rfl⟩
      · exact .inr (.inl ⟨rfl, htakes, hstep⟩)
  | exception =>
      simp only [hmode] at hstep
      split_ifs at hstep
      cases hstep
      exact .inr (.inr (.inl ⟨rfl, rfl⟩))
  | handler =>
      simp only [hmode] at hstep
      exact .inr (.inr (.inr (.inl ⟨.inl rfl, hstep⟩)))
  | routine r =>
      simp only [hmode] at hstep
      exact .inr (.inr (.inr (.inr (.inr ⟨r, rfl, hstep⟩))))
  | again =>
      simp only [hmode] at hstep
      split_ifs at hstep with hnone
      · cases hstep
        exact .inr (.inr (.inr (.inr (.inl ⟨rfl, hnone, rfl⟩))))
      · exact .inr (.inr (.inr (.inl ⟨.inr ⟨rfl, hnone⟩, hstep⟩)))

theorem Wired.cpuStep (h : b.Wired) (hstep : b.cpuStep off = some b') :
    Follows off b b' := by
  rcases cpuStep_cases hstep with ⟨hmode, hpie, hpending, rfl⟩ |
    ⟨hmode, -, hmain⟩ | ⟨hmode, rfl⟩ | ⟨hmode, hdispatch⟩ | ⟨hmode, -, rfl⟩ |
    ⟨r, hmode, hroutine⟩
  · have hawake : b.boot ≠ .irqInit := fun hboot => by
      have hoff := (h.asleep hboot).2
      rw [hpie] at hoff
      contradiction
    exact ⟨⟨h.table.congr rfl rfl rfl, h.early, fun hboot => absurd hboot hawake,
      fun _ => hpie, fun _ => hpending, nofun, h.timer1⟩, .inl rfl⟩
  · exact ⟨h.mainStep hmode hmain, mainStep_startUp hmain⟩
  · exact ⟨⟨h.table, h.early, fun hboot => h.notAsleep hmode nofun hboot,
      fun _ => h.estatus (by rw [hmode]; exact nofun),
      fun _ => h.requested (.inl hmode), nofun, h.timer1⟩, .inl rfl⟩
  · obtain ⟨hne, hpending⟩ : b.mode ≠ .main ∧ b.ipending ≠ 0 := by
      rcases hmode with hmode | ⟨hmode, hpending⟩
      · exact ⟨by rw [hmode]; exact nofun, h.requested (.inr hmode)⟩
      · exact ⟨by rw [hmode]; exact nofun, hpending⟩
    obtain ⟨i, isr, -, -, hnext, hwired⟩ :=
      h.dispatch (h.notAsleep rfl hne) (h.estatus hne) hpending
    rw [hnext] at hdispatch
    cases hdispatch
    exact ⟨hwired, .inl rfl⟩
  · exact ⟨wired_main rfl (h.table.congr rfl rfl rfl) h.early
      (fun hboot => h.notAsleep hmode nofun hboot) h.timer1, .inl rfl⟩
  · exact h.routineStep hmode hroutine

theorem Wired.step {e : SocEvent} (h : b.Wired)
    (hstep : b.step off e = some b') : Follows off b b' := by
  have hdevice (hmoves : (b.deviceStep e).map
      (fun devices => { b with devices := devices }) = some b') :
      Follows off b b' := by
    obtain ⟨devices, hdevices, rfl⟩ := Option.map_eq_some_iff.mp hmoves
    exact ⟨h.device hdevices, .inl rfl⟩
  cases e with
  | cpu => exact h.cpuStep hstep
  | hps =>
      obtain ⟨startUp, hmoves, rfl⟩ := Option.map_eq_some_iff.mp hstep
      have hkeeps := hmoves
      obtain ⟨handshake, -, rfl⟩ := Option.map_eq_some_iff.mp hkeeps
      exact ⟨h.startUp rfl id, .inr ⟨_, hmoves⟩⟩
  | hpsStore store =>
      obtain ⟨startUp, hmoves, rfl⟩ := Option.map_eq_some_iff.mp hstep
      have hkeeps := hmoves
      simp only [StartUp.step] at hkeeps
      split_ifs at hkeeps
      cases hkeeps
      exact ⟨h.startUp rfl id, .inr ⟨_, hmoves⟩⟩
  | btn value => exact hdevice hstep
  | sw value => exact hdevice hstep
  | jtagUart => exact hdevice hstep
  | timeout0 => exact hdevice hstep
  | timeout1 => exact hdevice hstep

theorem wired_inductive (off : SharedDataOffset) :
    (interrupted off).Inductive Wired where
  init b hinit := by
    obtain ⟨ienable, jtagUart, btn, sw, rfl⟩ := hinit
    exact wired_reset ienable jtagUart btn sw
  step _ _ _ h hstep := (h.step hstep).wired

theorem reachable_startUp (hb : (interrupted off).Reachable b) :
    (startingUp off).Reachable b.startUp := by
  induction hb with
  | init hinit =>
      obtain ⟨ienable, jtagUart, btn, sw, rfl⟩ := hinit
      exact .init rfl
  | step hb hstep ih =>
      have h := (wired_inductive off).reachable hb
      rcases (h.step hstep).startUp with hsame | ⟨e, hmoves⟩
      · rwa [hsame]
      · exact ih.step hmoves

/-! ## The processor is never stuck in the handler -/

theorem Wired.callIsr_eq_none (h : b.Wired) {r : Routine}
    (hmode : b.mode = .routine r) {e : Interrupt} {mode : CpuMode}
    (hirq : r.irq = e.irq) (hnone : b.callIsr e mode = none) :
    b.startUp.Arrives e ∧ b.nios.Decrypts e ∧
      maxRes ≤ b.nios.decryptPxCount.toNat := by
  have hisr : b.nios.isr e = none := Option.map_eq_none_iff.mp hnone
  have hdecrypts : b.nios.Decrypts e := by
    by_contra hnot
    obtain ⟨nios, hsome, -⟩ := Nios.isr_of_not_decrypts hnot
    rw [hisr] at hsome
    contradiction
  refine ⟨h.arrives hmode hirq, hdecrypts, ?_⟩
  by_contra hlt
  obtain ⟨nios, hsome, -⟩ := Nios.decryptPx_of_lt (not_le.mp hlt)
  rw [Nios.isr_of_decrypts hdecrypts, hsome] at hisr
  contradiction

theorem mainStep_ne_none (b : Soc) : b.mainStep off ≠ none := by
  unfold Soc.mainStep
  cases b.boot with
  | main =>
      simp only
      split_ifs with hdone
      · unfold Soc.afterHandshake
        cases b.pio with
        | done =>
            simp only
            split
            · exact nofun
            · split <;> exact nofun
        | _ => exact nofun
      · unfold Handshake.niosStep
        cases hnios : b.startUp.handshake.nios with
        | done => exact absurd hnios hdone
        | wait =>
            simp only
            split_ifs <;> exact nofun
        | _ => exact nofun
  | _ => exact nofun

theorem Wired.cpuStep_eq_none (h : b.Wired) (hnone : b.cpuStep off = none) :
    ∃ e, b.startUp.Arrives e ∧ b.nios.Decrypts e ∧
      maxRes ≤ b.nios.decryptPxCount.toNat := by
  unfold Soc.cpuStep at hnone
  cases hmode : b.mode with
  | main =>
      simp only [hmode] at hnone
      split_ifs at hnone
      exact absurd hnone b.mainStep_ne_none
  | exception =>
      have hestatus := h.estatus (by rw [hmode]; exact nofun)
      have hrequested := h.requested (.inl hmode)
      simp only [hmode, if_pos (And.intro hestatus hrequested)] at hnone
      contradiction
  | handler =>
      obtain ⟨i, isr, -, -, hdispatch, -⟩ := h.dispatch
        (h.notAsleep hmode nofun) (h.estatus (by rw [hmode]; exact nofun))
        (h.requested (.inr hmode))
      simp only [hmode, hdispatch] at hnone
      contradiction
  | routine r =>
      simp only [hmode] at hnone
      cases r with
      | btnIsrAct edgeCapture => exact ⟨_, h.callIsr_eq_none hmode rfl hnone⟩
      | swIsrShow => exact ⟨_, h.callIsr_eq_none hmode rfl hnone⟩
      | timer1_100usIsr => exact ⟨_, h.callIsr_eq_none hmode rfl hnone⟩
      | _ => contradiction
  | again =>
      simp only [hmode] at hnone
      have hestatus := h.estatus (by rw [hmode]; exact nofun)
      split_ifs at hnone with hzero
      obtain ⟨i, isr, -, -, hdispatch, -⟩ :=
        h.dispatch (h.notAsleep hmode nofun) hestatus hzero
      rw [hdispatch] at hnone
      contradiction

end Wired

/--
What the board makes of the programs is a state that `StartUp` can reach.  Once
the initialisation has cleared `ienable`, the lines with a routine in the table
are the enabled ones, and it is the routine of the device.  The routine that
filters does not run, and the processor can go on, unless it is to decrypt a
pixel past the image.
-/
theorem handler_runs_registered (off : SharedDataOffset) (b : Soc)
    (hb : (interrupted off).Reachable b) :
    (startingUp off).Reachable b.startUp ∧
    (b.boot ≠ .irqInit → ∀ i : Irq, b.controller.altIrq i =
      if b.controller.ienable.getLsbD i = true then routineOf i else none) ∧
    (∀ r, b.mode = .routine r → r ≠ .timer0_1msIsr) ∧
    ((interrupted off).step b .cpu = none →
      ∃ e, b.startUp.Arrives e ∧ b.nios.Decrypts e ∧
        maxRes ≤ b.nios.decryptPxCount.toNat) := by
  have h := (wired_inductive off).reachable hb
  refine ⟨reachable_startUp hb, fun hawake i => ?_, fun r hmode =>
    (h.running r hmode).1, h.cpuStep_eq_none⟩
  rw [h.table.altIrq, h.table.ienable hawake, h.table.altIrqActive]

def uartRun : List SocEvent :=
  [.cpu, .cpu, .cpu, .cpu, .cpu, .jtagUart, .cpu, .cpu, .cpu]

theorem handler_runs_registered_uart :
    ∃ b, (interrupted secondPage).run (reset 0 false 0 0) uartRun = some b ∧
      b.mode = .routine .jtagUartIrq ∧
      (startingUp secondPage).Reachable b.startUp := by
  have hinit : (interrupted secondPage).Reachable (reset 0 false 0 0) :=
    .init ⟨0, false, 0, 0, rfl⟩
  have hrun (b : Soc)
      (hb : (interrupted secondPage).run (reset 0 false 0 0) uartRun = some b) :
      (interrupted secondPage).Reachable b := hinit.run hb
  exact ⟨_, rfl, rfl, (handler_runs_registered secondPage _ (hrun _ rfl)).1⟩

end Soc

end NiosHps.Board
