import NiosHps.Board.InterruptLatency

/-!
# Whether a press is reported

`btn_isr` reads the edge-capture register and then clears it, so only a press
between the two is lost.  Any other press keeps its bit until a reading reports
it, and the reading comes after the steps that the lines of the UART and of the
clock, which are below, can cost.
-/

namespace NiosHps.Board

open NiosHps.Foundation
open Handshake (secondPage)

namespace Soc

def ReadsBtn (b : Soc) (e : SocEvent) : Prop :=
  e.isCpu = true ∧ b.mode = .routine .btnIsr

def Clearing (b : Soc) : Prop :=
  ∃ edgeCapture, b.mode = .routine (.btnIsrClear edgeCapture)

def Unmasked (b : Soc) : Prop :=
  b.pio ≠ .btnIrqMask → b.devices.btnIrqMask = actionBtnMask4

instance (b : Soc) (e : SocEvent) : Decidable (b.ReadsBtn e) :=
  inferInstanceAs (Decidable (_ ∧ _))

section Captures

variable {off : SharedDataOffset} {b b' : Soc} {e : SocEvent}

/-! ## What happens to the register -/

structure KeepsCaptures (b b' : Soc) : Prop where
  pio : b'.pio = b.pio
  btnIrqMask : b'.devices.btnIrqMask = b.devices.btnIrqMask
  captures : ¬b.Clearing → ∀ k, b.devices.btnEdgeCapture.getLsbD k = true →
    b'.devices.btnEdgeCapture.getLsbD k = true

theorem KeepsCaptures.of_eq (hpio : b'.pio = b.pio)
    (hmask : b'.devices.btnIrqMask = b.devices.btnIrqMask)
    (hcapture : b'.devices.btnEdgeCapture = b.devices.btnEdgeCapture) :
    KeepsCaptures b b' :=
  ⟨hpio, hmask, fun _ k hk => by rwa [hcapture]⟩

theorem deviceStep_keepsCaptures {devices : Devices}
    (hstep : b.deviceStep e = some devices) :
    KeepsCaptures b { b with devices := devices } := by
  cases e with
  | btn value =>
      cases hstep
      refine ⟨rfl, rfl, fun _ k hk => ?_⟩
      change (b.devices.btnEdgeCapture ||| _).getLsbD k = true
      rw [BitVec.getLsbD_or, hk, Bool.true_or]
  | sw value =>
      cases hstep
      exact .of_eq rfl rfl rfl
  | jtagUart =>
      cases hstep
      exact .of_eq rfl rfl rfl
  | timeout0 =>
      simp only [deviceStep] at hstep
      split_ifs at hstep
      cases hstep
      exact .of_eq rfl rfl rfl
  | timeout1 =>
      simp only [deviceStep] at hstep
      split_ifs at hstep
      cases hstep
      exact .of_eq rfl rfl rfl
  | cpu => contradiction
  | hps => contradiction
  | hpsStore store => contradiction

theorem routineStep_keepsCaptures {r : Routine} (hmode : b.mode = .routine r)
    (hstep : b.routineStep r = some b') : KeepsCaptures b b' := by
  have hcall {e : Interrupt} {mode : CpuMode} (hcalls : b.callIsr e mode = some b') :
      KeepsCaptures b b' := by
    obtain ⟨nios, -, rfl⟩ := Option.map_eq_some_iff.mp hcalls
    exact .of_eq rfl rfl rfl
  cases r with
  | btnIsrClear edgeCapture =>
      cases hstep
      exact ⟨rfl, rfl, fun hopen => absurd ⟨edgeCapture, hmode⟩ hopen⟩
  | btnIsrAct edgeCapture => exact hcall hstep
  | swIsrShow => exact hcall hstep
  | timer1_100usIsr => exact hcall hstep
  | _ =>
      cases hstep
      exact .of_eq rfl rfl rfl

theorem mainStep_keepsCaptures (hpio : b.pio = .done)
    (hstep : b.mainStep off = some b') : KeepsCaptures b b' := by
  unfold Soc.mainStep at hstep
  cases hboot : b.boot <;> simp only [hboot] at hstep
  case main =>
    split_ifs at hstep
    · unfold Soc.afterHandshake at hstep
      simp only [hpio] at hstep
      cases hmain : b.startUp.mainStep with
      | none =>
          simp only [hmain] at hstep
          cases hstep
          exact .of_eq rfl rfl rfl
      | some startUp =>
          simp only [hmain] at hstep
          cases hregistration : registration b.startUp.stage <;>
            simp only [hregistration] at hstep <;> cases hstep <;>
            exact .of_eq hpio.symm rfl rfl
    · obtain ⟨handshake, -, rfl⟩ := Option.map_eq_some_iff.mp hstep
      exact .of_eq rfl rfl rfl
  all_goals
    cases hstep
    exact .of_eq rfl rfl rfl

theorem step_cases (hstep : b.step off e = some b') :
    KeepsCaptures b b' ∨
      e = .cpu ∧ b.mode = .main ∧ b.mainStep off = some b' := by
  have hdevice (hmoves : (b.deviceStep e).map
      (fun devices => { b with devices := devices }) = some b') :
      KeepsCaptures b b' := by
    obtain ⟨devices, hdevices, rfl⟩ := Option.map_eq_some_iff.mp hmoves
    exact deviceStep_keepsCaptures hdevices
  cases e with
  | cpu =>
      rcases cpuStep_cases hstep with ⟨-, -, -, rfl⟩ | ⟨hmode, -, hmain⟩ |
        ⟨-, rfl⟩ | ⟨-, hdispatch⟩ | ⟨-, -, rfl⟩ | ⟨r, hmode, hroutine⟩
      · exact .inl (.of_eq rfl rfl rfl)
      · exact .inr ⟨rfl, hmode, hmain⟩
      · exact .inl (.of_eq rfl rfl rfl)
      · obtain ⟨i, -, hnext⟩ := Option.bind_eq_some_iff.mp hdispatch
        obtain ⟨isr, -, rfl⟩ := Option.map_eq_some_iff.mp hnext
        exact .inl (.of_eq rfl rfl rfl)
      · exact .inl (.of_eq rfl rfl rfl)
      · exact .inl (routineStep_keepsCaptures hmode hroutine)
  | hps =>
      obtain ⟨startUp, -, rfl⟩ := Option.map_eq_some_iff.mp hstep
      exact .inl (.of_eq rfl rfl rfl)
  | hpsStore store =>
      obtain ⟨startUp, -, rfl⟩ := Option.map_eq_some_iff.mp hstep
      exact .inl (.of_eq rfl rfl rfl)
  | btn value => exact .inl (hdevice hstep)
  | sw value => exact .inl (hdevice hstep)
  | jtagUart => exact .inl (hdevice hstep)
  | timeout0 => exact .inl (hdevice hstep)
  | timeout1 => exact .inl (hdevice hstep)

theorem Unmasked.mainStep (h : b.Unmasked) (hstep : b.mainStep off = some b') :
    b'.Unmasked := by
  have hkeep (hdone : b.pio = .done) : b'.Unmasked := fun _ => by
    rw [(mainStep_keepsCaptures hdone hstep).btnIrqMask]
    exact h (by rw [hdone]; exact nofun)
  unfold Soc.mainStep at hstep
  cases hboot : b.boot <;> simp only [hboot] at hstep
  case main =>
    split_ifs at hstep
    · unfold Soc.afterHandshake at hstep
      cases hpio : b.pio with
      | done => exact hkeep hpio
      | btnIrqMask =>
          simp only [hpio] at hstep
          cases hstep
          exact fun _ => rfl
      | _ =>
          have hmask := h (by rw [hpio]; exact nofun)
          simp only [hpio] at hstep
          cases hstep
          exact fun _ => hmask
    · obtain ⟨handshake, -, rfl⟩ := Option.map_eq_some_iff.mp hstep
      exact h
  all_goals
    cases hstep
    exact h

theorem unmasked_inductive (off : SharedDataOffset) :
    (interrupted off).Inductive Unmasked where
  init b hinit := by
    obtain ⟨ienable, jtagUart, btn, sw, rfl⟩ := hinit
    exact fun hpio => absurd rfl hpio
  step b e b' h hstep := by
    rcases step_cases hstep with hkeeps | ⟨-, -, hmain⟩
    · intro hpio
      rw [hkeeps.pio] at hpio
      rw [hkeeps.btnIrqMask]
      exact h hpio
    · exact h.mainStep hmain

theorem step_keepsCaptures (hpio : b.pio = .done)
    (hstep : b.step off e = some b') : KeepsCaptures b b' := by
  rcases step_cases hstep with hkeeps | ⟨-, -, hmain⟩
  · exact hkeeps
  · exact mainStep_keepsCaptures hpio hmain

theorem Booted.not_clearing (h : b.Booted) (hopen : ¬b.Clearing)
    (hunread : ¬b.ReadsBtn e) (hstep : b.step off e = some b') :
    ¬b'.Clearing := by
  rintro ⟨edgeCapture, hclearing⟩
  by_cases he : e = .cpu
  · subst he
    rcases cpuStep_cases hstep with ⟨-, -, -, rfl⟩ | ⟨hmode, -, hmain⟩ |
      ⟨-, rfl⟩ | ⟨-, hdispatch⟩ | ⟨-, -, rfl⟩ | ⟨r, hmode, hroutine⟩
    · contradiction
    · have hwired := (h.wired.step hstep).wired
      rw [(h.ofMainStep hmode hwired hmain).2, hmode] at hclearing
      contradiction
    · contradiction
    · obtain ⟨i, -, hnext⟩ := Option.bind_eq_some_iff.mp hdispatch
      obtain ⟨isr, -, rfl⟩ := Option.map_eq_some_iff.mp hnext
      simp only [CpuMode.routine.injEq] at hclearing
      cases isr <;> exact nomatch hclearing
    · contradiction
    · -- no other routine has three steps left
      have hleft := (routineStep_onLine (h.wired.running r hmode).1 hroutine).stepsLeft
      rw [hclearing] at hleft
      have hread : r = .btnIsr := by
        cases r <;> first | rfl | cases hleft
      exact hunread ⟨rfl, hread ▸ hmode⟩
  · rw [(step_of_ne_cpu he hstep).2.2] at hclearing
    exact hopen ⟨edgeCapture, hclearing⟩

/-! ## A capture is read in the end -/

/-- Where the press may wait: for the handler, or for its routine to read it. -/
structure Captured (k : Nat) (b : Soc) : Prop where
  booted : b.Booted
  unmasked : b.Unmasked
  pio : b.pio = .done
  registered : registered b.boot b.startUp.stage pioBtnIrq = true
  capture : b.devices.btnEdgeCapture.getLsbD k = true
  notClearing : ¬b.Clearing

theorem getLsbD_actionBtnMask4 {k : Nat} (hk : k < 4) :
    actionBtnMask4.getLsbD k = true := by
  interval_cases k <;> decide

theorem Captured.requested {k : Nat} (hk : k < 4) (h : b.Captured k) :
    b.Requested pioBtnIrq := by
  refine ⟨?_, h.registered⟩
  have hmask := h.unmasked (by rw [h.pio]; exact nofun)
  have hne : b.devices.btnEdgeCapture &&& b.devices.btnIrqMask ≠ 0 := fun hzero => by
    have hbit := congrArg (BitVec.getLsbD · k) hzero
    simp [hmask, h.capture, getLsbD_actionBtnMask4 hk] at hbit
  exact decide_eq_true hne

theorem Captured.pending_or_reads {k : Nat} (hk : k < 4) (h : b.Captured k) :
    pioBtnIrq ∈ b.pending ∨ b.mode = .routine .btnIsr := by
  by_cases hmode : b.mode = .routine .btnIsr
  · exact .inr hmode
  · refine .inl (h.booted.mem_pending.mpr ⟨h.requested hk, fun hclears => ?_⟩)
    cases hb : b.mode with
    | routine r =>
        rw [hb] at hclears
        cases r with
        | btnIsr => exact hmode hb
        | btnIsrClear edgeCapture => exact h.notClearing ⟨edgeCapture, hb⟩
        | _ => contradiction
    | _ =>
        rw [hb] at hclears
        contradiction

theorem Captured.registered_step {k : Nat} (hk : k < 4) (h : b.Captured k)
    (hstep : b.step off e = some b') :
    Board.registered b'.boot b'.startUp.stage pioBtnIrq = true := by
  by_cases he : e = .cpu
  · subst he
    rcases cpuStep_cases hstep with ⟨-, -, -, rfl⟩ | ⟨-, -, hmain⟩ | ⟨-, rfl⟩ |
      ⟨-, hdispatch⟩ | ⟨-, -, rfl⟩ | ⟨r, hmode, hroutine⟩
    · exact h.registered
    · exact (h.booted.mainStep hmain (h.requested hk)).2
    · exact h.registered
    · obtain ⟨i, -, hnext⟩ := Option.bind_eq_some_iff.mp hdispatch
      obtain ⟨isr, -, rfl⟩ := Option.map_eq_some_iff.mp hnext
      exact h.registered
    · exact h.registered
    · have hframe :=
        routineStep_onLine (h.booted.wired.running r hmode).1 hroutine
      rw [hframe.boot, hframe.stage]
      exact h.registered
  · obtain ⟨hboot, hstage, -⟩ := step_of_ne_cpu he hstep
    rw [hboot, hstage]
    exact h.registered

theorem Captured.step {k : Nat} (hk : k < 4) (h : b.Captured k)
    (hunread : ¬b.ReadsBtn e) (hstep : b.step off e = some b') :
    b'.Captured k := by
  have hkeeps := step_keepsCaptures h.pio hstep
  exact
    { booted := (h.booted.serves_step hstep).booted
      unmasked := (unmasked_inductive off).step b e b' h.unmasked hstep
      pio := hkeeps.pio.trans h.pio
      registered := h.registered_step hk hstep
      capture := hkeeps.captures h.notClearing k h.capture
      notClearing := h.booted.not_clearing h.notClearing hunread hstep }

/-! ## When it is read -/

def stepsToRead (b : Soc) : Nat :=
  if b.mode = .routine .btnIsr then 0
  else 1 + b.mode.stepsLeft + 4 * (System.before pioBtnIrq b.pending).card

theorem mode_of_serves_btn (h : b.Booted) (hstep : b.step off e = some b')
    (hserves : b.serves e = some pioBtnIrq) :
    e = .cpu ∧ b'.mode = .routine .btnIsr := by
  by_cases he : e = .cpu
  · subst he
    refine ⟨rfl, ?_⟩
    simp only [serves] at hserves
    split_ifs at hserves with hmode
    have hpending : b.ipending ≠ 0 := fun hzero => by
      rw [hzero] at hserves
      exact absurd hserves (by decide)
    have hne : b.mode ≠ .main := by
      rcases hmode with hmode | hmode <;> simp [hmode]
    obtain ⟨i, isr, hfirst, hroutine, hnext, -⟩ :=
      h.wired.dispatch h.awake (h.wired.estatus hne) hpending
    obtain rfl : i = pioBtnIrq := Option.some.inj (hfirst.symm.trans hserves)
    obtain rfl : isr = .btnIsr := (Option.some.inj hroutine).symm
    have hcpu : b.cpuStep off = some b' := hstep
    have hsame : b.cpuStep off = b.dispatch := by
      rcases hmode with hmode | hmode
      · simp only [Soc.cpuStep, hmode]
      · simp only [Soc.cpuStep, hmode, if_neg hpending]
    rw [hsame, hnext] at hcpu
    cases hcpu
    rfl
  · rw [serves_eq_none he] at hserves
    contradiction

theorem Captured.stepsToRead_step {k : Nat} (hk : k < 4) (h : b.Captured k)
    (hunread : ¬b.ReadsBtn e) (hstep : b.step off e = some b') :
    (if e.isCpu then 1 else 0) + b'.stepsToRead ≤
      b.stepsToRead + 4 * (System.before pioBtnIrq
        (b'.pending \ System.waiting pending serves b e)).card := by
  by_cases hread : b.mode = .routine .btnIsr
  · have he : e.isCpu = false := by
      by_contra hcpu
      exact hunread ⟨by simpa using hcpu, hread⟩
    have hne : e ≠ .cpu := fun heq => by
      rw [heq] at he
      contradiction
    have hread' : b'.mode = .routine .btnIsr :=
      (step_of_ne_cpu hne hstep).2.2.trans hread
    simp only [stepsToRead, if_pos hread', he]
    exact Nat.zero_le _
  · have hpending := (h.pending_or_reads hk).resolve_right hread
    by_cases hserves : b.serves e = some pioBtnIrq
    · obtain ⟨rfl, hread'⟩ := mode_of_serves_btn h.booted hstep hserves
      simp only [stepsToRead, if_pos hread', if_neg hread, SocEvent.isCpu, if_true]
      omega
    · have htaken := (servesLeast off).card_waiting h.booted hstep hpending hserves
      have harrived := (servesLeast off).card_step h.booted hstep pioBtnIrq
      have hleft := h.booted.stepsLeft_step hpending hstep
      by_cases hread' : b'.mode = .routine .btnIsr
      · simp only [stepsToRead, if_neg hread, if_pos hread']
        omega
      · simp only [stepsToRead, if_neg hread, if_neg hread']
        omega

theorem Captured.run {k : Nat} (hk : k < 4) (h : b.Captured k)
    {events : List SocEvent}
    (hrun : (interrupted off).run b events = some b')
    (hunread : (interrupted off).AllSteps (fun b e => ¬b.ReadsBtn e) b events) :
    b'.Captured k ∧ cpuSteps events + b'.stepsToRead ≤ b.stepsToRead +
      4 * System.arrivalsBefore (interrupted off) pending serves pioBtnIrq b
        events := by
  induction events generalizing b with
  | nil =>
      cases hrun
      exact ⟨h, le_of_eq (Nat.zero_add _)⟩
  | cons e events ih =>
      obtain ⟨c, hstep, hrest⟩ := System.run_cons.mp hrun
      obtain ⟨hunread, hlater⟩ := System.allSteps_cons.mp hunread
      have hone := h.stepsToRead_step hk hunread hstep
      obtain ⟨hend, hcount⟩ :=
        ih (h.step hk hunread hstep) hrest (hlater c hstep)
      refine ⟨hend, ?_⟩
      simp only [cpuSteps, List.countP_cons, System.arrivalsBefore, hstep] at hcount ⊢
      omega

theorem stepsToRead_le (b : Soc) : b.stepsToRead ≤ 12 := by
  have hleft := CpuMode.stepsLeft_le b.mode
  have hbefore := card_before_le b.pending pioBtnIrq
  have hirq : pioBtnIrq.val = 2 := rfl
  unfold stepsToRead
  split_ifs
  · exact Nat.zero_le 12
  · omega

end Captures

/--
A button whose line is registered has been pressed, and the register is not just
being cleared.  Until a reading reports the press its bit stays, and a reading
comes within the steps that the lines below it can cost: twelve, and four for
each request of the UART and of the clock.
-/
theorem press_is_reported (off : SharedDataOffset) (b b' : Soc) (k : Fin 4)
    (events : List SocEvent) (hb : (interrupted off).Reachable b)
    (hregistered : b.startUp.stage ≠ .decryptWh ∧ b.startUp.stage ≠ .registerBtn)
    (hpressed : b.devices.btnEdgeCapture.getLsbD k = true)
    (hopen : ¬b.Clearing)
    (hrun : (interrupted off).run b events = some b')
    (hunread : (interrupted off).AllSteps (fun b e => ¬b.ReadsBtn e) b events) :
    b'.devices.btnEdgeCapture.getLsbD k = true ∧ ¬b'.Clearing ∧
      cpuSteps events ≤ 12 + 4 *
        System.arrivalsBefore (interrupted off) pending serves pioBtnIrq b
          events := by
  have hwired := (wired_inductive off).reachable hb
  have hboot : b.boot = .main := by
    by_contra hne
    exact hregistered.1 (hwired.early hne)
  have hbooted := reachable_booted hb (by rw [hboot]; exact nofun)
  have hpio : b.pio = .done := by
    by_contra hne
    exact hregistered.1 (hbooted.armed hne)
  have h : b.Captured k :=
    { booted := hbooted
      unmasked := (unmasked_inductive off).reachable hb
      pio := hpio
      registered := decide_eq_true hregistered
      capture := hpressed
      notClearing := hopen }
  obtain ⟨hend, hcount⟩ := h.run k.isLt hrun hunread
  have hstart := b.stepsToRead_le
  exact ⟨hend.capture, hend.notClearing, by omega⟩

def startPressed : List SocEvent :=
  List.replicate 7 .cpu ++ List.replicate 4 .hps ++ List.replicate 8 .cpu ++
    [.btn 0xE]

theorem press_is_reported_start :
    ∃ b b', (interrupted secondPage).run (reset 0 false 0xF 0) startPressed =
        some b ∧
      (interrupted secondPage).run b [.cpu, .timeout0, .cpu, .cpu, .cpu, .cpu] =
        some b' ∧
      b'.devices.btnEdgeCapture.getLsbD 0 = true := by
  have hinit : (interrupted secondPage).Reachable (reset 0 false 0xF 0) :=
    .init ⟨0, false, 0xF, 0, rfl⟩
  have hrun (b : Soc)
      (hb : (interrupted secondPage).run (reset 0 false 0xF 0) startPressed =
        some b) : (interrupted secondPage).Reachable b := hinit.run hb
  refine ⟨_, _, rfl, rfl, ?_⟩
  exact (press_is_reported secondPage _ _ 0
    [.cpu, .timeout0, .cpu, .cpu, .cpu, .cpu] (hrun _ rfl) (by decide) (by decide)
    (fun hopen => nomatch hopen) rfl
    ⟨by decide, by decide, by decide, by decide, by decide, by decide, trivial⟩).1

end Soc

end NiosHps.Board
