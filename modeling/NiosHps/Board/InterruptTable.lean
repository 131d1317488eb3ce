import NiosHps.Board.InterruptController

/-!
# The table of the interrupt handler

The scan of `alt_irq_handler` finds the lowest bit that is set, and does not end
only if there is none.  A line is enabled exactly if the program has come past
its registration, and its entry is then the routine of its device; this is kept
by the initialisation of the board support package and by `main`.
-/

namespace NiosHps.Board

open NiosHps.Foundation

/-! ## The lowest bit -/

theorem and_twoPow_ne_zero {active : BitVec 32} {i : Nat} (hi : i < 32) :
    active &&& BitVec.twoPow 32 i ≠ 0 ↔ active.getLsbD i = true := by
  rw [BitVec.and_twoPow]
  split_ifs with hbit
  · refine ⟨fun _ => hbit, fun _ heq => ?_⟩
    have hzero := congrArg (BitVec.getLsbD · i) heq
    simp [hi] at hzero
  · simp [hbit]

/-- The mask is at bit `i`, and the fuel covers the bits from there on. -/
theorem findActive_cases (active : BitVec 32) {fuel i : Nat}
    (hfuel : fuel + i = 32) :
    (findActive active fuel (BitVec.twoPow 32 i) i = none ∧
      ∀ j, i ≤ j → active.getLsbD j = false) ∨
    ∃ irq : Irq, findActive active fuel (BitVec.twoPow 32 i) i = some irq ∧
      active.getLsbD irq = true ∧
      ∀ j, i ≤ j → j < irq.val → active.getLsbD j = false := by
  induction fuel generalizing i with
  | zero =>
      refine .inl ⟨rfl, fun j hj => BitVec.getLsbD_of_ge active j (by omega)⟩
  | succ fuel ih =>
      have hi : i < 32 := by omega
      unfold findActive
      by_cases hbit : active.getLsbD i = true
      · right
        rw [if_pos ((and_twoPow_ne_zero hi).mpr hbit)]
        have hval : (Fin.ofNat 32 i).val = i := Nat.mod_eq_of_lt hi
        refine ⟨_, rfl, by rwa [hval], fun j hle hlt => ?_⟩
        omega
      · have hshift : BitVec.twoPow 32 i <<< 1 = BitVec.twoPow 32 (i + 1) := by
          rw [BitVec.twoPow_eq, BitVec.twoPow_eq, BitVec.shiftLeft_add]
        rw [if_neg (fun hne => hbit ((and_twoPow_ne_zero hi).mp hne)), hshift]
        have hfrom {j : Nat} (hle : i ≤ j) (hrest : i + 1 ≤ j →
            active.getLsbD j = false) : active.getLsbD j = false := by
          rcases hle.eq_or_lt with rfl | hlt
          · simpa using hbit
          · exact hrest hlt
        rcases ih (by omega : fuel + (i + 1) = 32) with
          ⟨hnone, hrest⟩ | ⟨irq, hsome, hset, hrest⟩
        · exact .inl ⟨hnone, fun j hle => hfrom hle (hrest j)⟩
        · refine .inr ⟨irq, hsome, hset, fun j hle hlt => ?_⟩
          exact hfrom hle fun hle => hrest j hle hlt

theorem firstActive_cases (active : BitVec 32) :
    (firstActive active = none ∧ active = 0) ∨
    ∃ irq : Irq, firstActive active = some irq ∧
      active.getLsbD irq = true ∧
      ∀ other : Irq, active.getLsbD other = true → irq ≤ other := by
  have hone : BitVec.twoPow 32 0 = 1 := rfl
  have hcases := findActive_cases active (rfl : 32 + 0 = 32)
  rw [hone] at hcases
  rcases hcases with ⟨hnone, hall⟩ | ⟨irq, hsome, hset, hbelow⟩
  · refine .inl ⟨hnone, BitVec.eq_of_getLsbD_eq fun j hj => ?_⟩
    rw [hall j (Nat.zero_le j)]
    simp
  · refine .inr ⟨irq, hsome, hset, fun other hother => ?_⟩
    by_contra hlt
    have hclear := hbelow other (Nat.zero_le _) (not_le.mp hlt)
    rw [hclear] at hother
    contradiction

/-! ## The lines -/

theorem or_and_ne_zero {w : Nat} {captured mask : BitVec w}
    (h : captured &&& mask ≠ 0) (edges : BitVec w) :
    (captured ||| edges) &&& mask ≠ 0 := by
  intro hzero
  refine h (BitVec.eq_of_getLsbD_eq fun i hi => ?_)
  have hbit := congrArg (BitVec.getLsbD · i) hzero
  simp only [BitVec.getLsbD_and, BitVec.getLsbD_or, BitVec.ofNat_eq_ofNat,
    BitVec.getLsbD_zero] at hbit ⊢
  cases hcaptured : captured.getLsbD i with
  | false => rfl
  | true => simpa [hcaptured] using hbit

def routineOf : Irq → Option IsrFunc
  | 0 => some .jtagUartIrq
  | 1 => some .timerScIrq
  | 2 => some .btnIsr
  | 3 => some .swIsr
  | 4 => some .timer1_100usIsr
  | _ => none

def Routine.irq : Routine → Irq
  | .jtagUartIrq => jtagUart0Irq
  | .timerScIrq | .timer0_1msIsr => timer0_1msIrq
  | .btnIsr | .btnIsrClear _ | .btnIsrAct _ => pioBtnIrq
  | .swIsr | .swIsrShow => pioSwIrq
  | .timer1_100usIsr | .timer1_100usIsrClear => timer1_100usIrq

def CpuMode.Continues (r : Routine) : CpuMode → Prop
  | .again => True
  | .routine r' => r'.irq = r.irq ∧ r' ≠ .timer0_1msIsr
  | _ => False

theorem enter_of_routineOf {i : Irq} {isr : IsrFunc}
    (h : routineOf i = some isr) :
    isr.enter.irq = i ∧ isr.enter ≠ .timer0_1msIsr := by
  unfold routineOf at h
  split at h <;> cases h <;> exact ⟨rfl, nofun⟩

def registered (boot : BootStage) (stage : MainStage) : Irq → Bool
  | 0 => boot = .main
  | 1 => boot = .jtagUartRegister ∨ boot = .main
  | 2 => stage ≠ .decryptWh ∧ stage ≠ .registerBtn
  | 3 => stage = .registerTimer1 ∨ stage = .idle
  | 4 => stage = .idle
  | _ => false

def Interrupt.irq : Interrupt → Irq
  | .btn _ _ => pioBtnIrq
  | .sw _ => pioSwIrq
  | .timer1 _ => timer1_100usIrq

theorem registered_irq (boot : BootStage) (stage : MainStage) (e : Interrupt) :
    registered boot stage e.irq = stage.registered e := by
  cases e <;> cases stage <;> rfl

namespace Soc

theorem ipending_getLsbD (b : Soc) (i : Irq) :
    b.ipending.getLsbD i =
      (b.devices.requests.getD i false && b.controller.ienable.getLsbD i) := by
  simp [ipending]

theorem deviceStep_requests {b : Soc} {e : SocEvent} {devices : Devices}
    (hstep : b.deviceStep e = some devices) {i : Nat}
    (hrequest : b.devices.requests.getD i false = true) :
    devices.requests.getD i false = true := by
  have hcases : i < 5 ∨ 5 ≤ i := by omega
  rcases hcases with hlt | hge
  · cases e <;> simp only [deviceStep] at hstep <;> (try split_ifs at hstep) <;>
      cases hstep <;> interval_cases i <;>
      simp only [Devices.requests, List.getD_cons_zero, List.getD_cons_succ,
        decide_eq_true_eq] at hrequest ⊢ <;>
      first
        | exact hrequest
        | rfl
        | exact or_and_ne_zero hrequest _
  · simp [Devices.requests, hge] at hrequest

end Soc

/-! ## The table -/

structure Table (boot : BootStage) (stage : MainStage)
    (c : InterruptController) : Prop where
  altIrq : ∀ i, c.altIrq i =
    if registered boot stage i then routineOf i else none
  altIrqActive : ∀ i : Irq, c.altIrqActive.getLsbD i = registered boot stage i
  ienable : boot ≠ .irqInit → c.ienable = c.altIrqActive

section Table

variable {boot boot' : BootStage} {stage stage' : MainStage}
  {c : InterruptController} {irq : Irq} {isr : IsrFunc}

theorem Table.register (h : Table boot stage c)
    (hroutine : routineOf irq = some isr)
    (hregistered : ∀ i, registered boot' stage' i =
      (decide (i = irq) || registered boot stage i)) :
    Table boot' stage' (c.altIcIsrRegister irq (some isr)) where
  altIrq i := by
    change Function.update c.altIrq irq (some isr) i = _
    by_cases hirq : i = irq
    · subst hirq
      simp [hregistered, hroutine]
    · rw [Function.update_of_ne hirq, h.altIrq, hregistered]
      simp [hirq]
  altIrqActive i := by
    change (c.altIrqActive ||| (1#32 <<< irq.val)).getLsbD i = _
    rw [BitVec.getLsbD_or, h.altIrqActive, hregistered, ← BitVec.twoPow_eq,
      BitVec.getLsbD_twoPow, Bool.or_comm]
    congr 1
    simp [irq.isLt, Fin.ext_iff, eq_comm]
  ienable _ := rfl

theorem Table.congr (h : Table boot stage c) {c' : InterruptController}
    (haltIrq : c'.altIrq = c.altIrq)
    (hactive : c'.altIrqActive = c.altIrqActive)
    (hienable : c'.ienable = c.ienable) : Table boot stage c' where
  altIrq := by rw [haltIrq]; exact h.altIrq
  altIrqActive := by rw [hactive]; exact h.altIrqActive
  ienable := by rw [hienable, hactive]; exact h.ienable

theorem Table.mono (h : Table boot stage c)
    (hregistered : ∀ i, registered boot' stage' i = registered boot stage i)
    (hienable : boot' ≠ .irqInit → c.ienable = c.altIrqActive) :
    Table boot' stage' c where
  altIrq i := by rw [hregistered]; exact h.altIrq i
  altIrqActive i := by rw [hregistered]; exact h.altIrqActive i
  ienable := hienable

theorem registered_registerBtn (boot : BootStage) (i : Irq) :
    registered boot .registerBtn i = registered boot .decryptWh i := by
  revert i
  cases boot <;> decide

theorem registered_next (boot : BootStage) (i : Irq) :
    registered boot .registerSw i =
      (decide (i = pioBtnIrq) || registered boot .registerBtn i) ∧
    registered boot .registerTimer1 i =
      (decide (i = pioSwIrq) || registered boot .registerSw i) ∧
    registered boot .idle i =
      (decide (i = timer1_100usIrq) || registered boot .registerTimer1 i) := by
  revert i
  cases boot <;> decide

theorem mainStep_timer1Started {s s' : StartUp} (hstep : s.mainStep = some s') :
    s'.nios.timer1Started = s.nios.timer1Started := by
  unfold StartUp.mainStep at hstep
  cases hstage : s.stage <;> rw [hstage] at hstep <;> cases hstep <;> rfl

def BootStage.Early (boot : BootStage) : Prop :=
  boot ≠ .jtagUartRegister ∧ boot ≠ .main

instance (boot : BootStage) : Decidable boot.Early :=
  inferInstanceAs (Decidable (_ ∧ _))

theorem registered_of_early {boot : BootStage} (hearly : boot.Early) (i : Irq) :
    registered boot .decryptWh i = false := by
  revert i hearly
  cases boot <;> decide

theorem Table.early (h : Table boot .decryptWh c) (hearly : boot.Early)
    (hearly' : boot'.Early) {c' : InterruptController}
    (haltIrq : c'.altIrq = c.altIrq)
    (hactive : c'.altIrqActive = c.altIrqActive)
    (hienable : boot' ≠ .irqInit → c'.ienable = 0) :
    Table boot' .decryptWh c' where
  altIrq i := by
    rw [haltIrq, h.altIrq, registered_of_early hearly, registered_of_early hearly']
  altIrqActive i := by
    rw [hactive, h.altIrqActive, registered_of_early hearly,
      registered_of_early hearly']
  ienable hne := by
    rw [hienable hne, hactive]
    refine BitVec.eq_of_getLsbD_eq fun i hi => ?_
    rw [h.altIrqActive ⟨i, hi⟩, registered_of_early hearly]
    exact BitVec.getLsbD_zero

theorem Table.ienable_of_early (h : Table boot .decryptWh c)
    (hearly : boot.Early) (hne : boot ≠ .irqInit) : c.ienable = 0 := by
  rw [h.ienable hne]
  refine BitVec.eq_of_getLsbD_eq fun i hi => ?_
  rw [h.altIrqActive ⟨i, hi⟩, registered_of_early hearly]
  exact BitVec.getLsbD_zero.symm

theorem routineOf_of_registered {i : Irq} (h : registered boot stage i = true) :
    ∃ isr, routineOf i = some isr := by
  unfold registered at h
  split at h
  · exact ⟨_, rfl⟩
  · exact ⟨_, rfl⟩
  · exact ⟨_, rfl⟩
  · exact ⟨_, rfl⟩
  · exact ⟨_, rfl⟩
  · contradiction

theorem registered_boot (i : Irq) :
    registered .jtagUartRegister .decryptWh i =
      (decide (i = timer0_1msIrq) || registered .timer0Register .decryptWh i) ∧
    registered .main .decryptWh i =
      (decide (i = jtagUart0Irq) || registered .jtagUartRegister .decryptWh i) := by
  revert i
  decide

theorem Table.mainStep {s s' : StartUp} (h : Table boot s.stage c)
    (hstep : s.mainStep = some s') :
    Table boot s'.stage (match Soc.registration s.stage with
      | none => c
      | some (irq, isr) => c.altIcIsrRegister irq (some isr)) := by
  unfold StartUp.mainStep at hstep
  cases hstage : s.stage with
  | decryptWh =>
      rw [hstage] at hstep h
      cases hstep
      exact h.mono (registered_registerBtn boot) h.ienable
  | registerBtn =>
      rw [hstage] at hstep h
      cases hstep
      exact h.register rfl fun i => (registered_next boot i).1
  | registerSw =>
      rw [hstage] at hstep h
      cases hstep
      exact h.register rfl fun i => (registered_next boot i).2.1
  | registerTimer1 =>
      rw [hstage] at hstep h
      cases hstep
      exact h.register rfl fun i => (registered_next boot i).2.2
  | idle =>
      rw [hstage] at hstep
      contradiction

end Table

end NiosHps.Board
