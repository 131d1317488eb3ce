import NiosHps.Board.JtagUartText

/-!
# The work of the interrupt routine

Every step of the routine either moves a byte from the ring to the FIFO or gets
it nearer to its end: it takes a byte that was typed, or gives up an enable bit,
or goes on to a later place.  Nothing but the program makes new work.
-/

namespace NiosHps.Board

open NiosHps.Foundation

/-- The device asks for bytes when it has none, never when it is full, and does
not offer what it does not have. -/
structure JtagUartCore.Sensible (core : JtagUartCore) : Prop where
  empty : core.asksWrite [] = true
  full : ∀ fifo, core.asksWrite fifo = true → fifo.length < jtagUartWriteDepth
  nothing : core.asksRead [] = false

def UartIrqPc.position (asks : Bool) : UartIrqPc → Nat
  | .receive _ _ false => 8
  | .received _ _ false => 7
  | .transmit 0 => 6
  | .idle => if asks then 5 else 3
  | .control => 4
  | .receive _ _ true => 2
  | .received _ _ true => 1
  | .transmit (_ + 1) => 0

theorem UartIrqPc.position_le (asks : Bool) (pc : UartIrqPc) :
    pc.position asks ≤ 8 := by
  unfold UartIrqPc.position
  split
  case h_4 => split_ifs <;> omega
  all_goals omega

namespace JtagUart

def asks (core : JtagUartCore) (u : JtagUart) : Bool := u.ri core || u.wi core

/-- What the routine can still do before the program does something. -/
def budget (u : JtagUart) : Nat :=
  2 * (jtagUartBufLen - u.rx.length) + (jtagUartReadDepth - u.readFifo.length) +
    u.control.re.toNat + u.control.we.toNat

def routineWork (core : JtagUartCore) (u : JtagUart) : Nat :=
  u.irq.position (u.asks core) + 10 * u.budget

/-- The bytes on their way, each counted twice while it is in the ring. -/
def load (u : JtagUart) : Nat := 2 * u.tx.length + u.writeFifo.length

def work (core : JtagUartCore) (u : JtagUart) : Nat :=
  u.routineWork core + 10 * u.load

def Justified (u : JtagUart) : Prop :=
  match u.irq with
  | .receive wi _ ravail =>
      (wi = true → u.control.we = true) ∧ u.control.re = true ∧
        (ravail = true → u.readFifo ≠ [])
  | .received wi _ _ => (wi = true → u.control.we = true) ∧ u.control.re = true
  | .transmit _ => u.control.we = true
  | _ => True

structure RoutineFrame (u u' : JtagUart) : Prop where
  write : u'.write = u.write
  returned : u'.returned = u.returned
  taken : u'.taken = u.taken
  hostInactive : u'.hostInactive = u.hostInactive
  next : u'.tx.next = u.tx.next

structure Sends (core : JtagUartCore) (u u' : JtagUart) : Prop where
  first : u.tx.first ≠ u.tx.next
  tx : u'.tx = u.tx.take
  writeFifo : u'.writeFifo = u.writeFifo ++ [u.tx.cells u.tx.first]
  budget : u'.budget = u.budget
  we : u'.control.we = u.control.we

structure Advances (core : JtagUartCore) (u u' : JtagUart) : Prop where
  tx : u'.tx = u.tx
  writeFifo : u'.writeFifo = u.writeFifo
  lower : u'.routineWork core < u.routineWork core
  we : u.tx.first ≠ u.tx.next → u'.control.we = u.control.we

structure RoutineStep (core : JtagUartCore) (u u' : JtagUart) : Prop where
  frame : u.RoutineFrame u'
  progress : u.Sends core u' ∨ u.Advances core u'
  justified : u'.Justified

variable {core : JtagUartCore} {u u' : JtagUart}

theorem routineStep_at {irq : UartIrqPc}
    (hlower : irq.position (u.asks core) < u.irq.position (u.asks core))
    (hjustified : Justified { u with irq := irq }) :
    u.RoutineStep core { u with irq := irq } where
  frame := ⟨rfl, rfl, rfl, rfl, rfl⟩
  progress := .inr
    { tx := rfl
      writeFifo := rfl
      lower := Nat.add_lt_add_right hlower _
      we := fun _ => rfl }
  justified := hjustified

theorem advances_of_budget (htx : u'.tx = u.tx)
    (hfifo : u'.writeFifo = u.writeFifo) (hbudget : u'.budget < u.budget)
    (hwe : u.tx.first ≠ u.tx.next → u'.control.we = u.control.we) :
    u.Advances core u' := by
  refine ⟨htx, hfifo, ?_, hwe⟩
  have hposition := u'.irq.position_le (u'.asks core)
  unfold routineWork
  omega

theorem budget_setIrqEnable_re (hre : u.control = u.irqEnable)
    (hon : u.control.re = true) (irq : UartIrqPc) :
    budget { u.setIrqEnable { u.irqEnable with re := false } with irq := irq } <
      u.budget := by
  rw [hre] at hon
  simp only [budget, setIrqEnable, hre, hon, Bool.toNat_false, Bool.toNat_true]
  omega

theorem budget_setIrqEnable_we (hwe : u.control = u.irqEnable)
    (hon : u.control.we = true) (irq : UartIrqPc) :
    budget { u.setIrqEnable { u.irqEnable with we := false } with irq := irq } <
      u.budget := by
  rw [hwe] at hon
  simp only [budget, setIrqEnable, hwe, hon, Bool.toNat_false, Bool.toNat_true]
  omega

theorem routineStep_receive {wi : Bool} {wspace : Nat} {ravail : Bool}
    (hjustified : u.Justified) (hirq : u.irq = .receive wi wspace ravail)
    (hstep : u.irqStep core = some u') : u.RoutineStep core u' := by
  unfold Justified at hjustified
  simp only [hirq] at hjustified
  obtain ⟨hwi, hre, hravail⟩ := hjustified
  unfold JtagUart.irqStep at hstep
  simp only [hirq] at hstep
  split_ifs at hstep with hfull
  · cases hstep
    refine routineStep_at ?_ ⟨hwi, hre⟩
    rw [hirq]
    cases ravail <;> simp [UartIrqPc.position]
  cases hfifo : u.readFifo with
  | nil =>
      have hnot : ravail = false := by
        cases ravail with
        | false => rfl
        | true => exact absurd hfifo (hravail rfl)
      rw [hfifo] at hstep
      cases hstep
      have hat : u.RoutineStep core { u with irq := .received wi wspace false } :=
        routineStep_at (by rw [hirq, hnot]; simp [UartIrqPc.position]) ⟨hwi, hre⟩
      simpa only [hfifo] using hat
  | cons byte rest =>
      rw [hfifo] at hstep
      cases hstep
      have hfree := RingBuffer.free_one hfull
      have hlength := RingBuffer.length_publish (hfree.store u.rx.next byte)
      have hbefore := hfree.length
      refine
        { frame := ⟨rfl, rfl, rfl, rfl, rfl⟩
          progress := .inr (advances_of_budget rfl rfl ?_ fun _ => rfl)
          justified := ⟨hwi, hre, fun hmore => ?_⟩ }
      · simp only [budget, hfifo, List.length_cons]
        rw [RingBuffer.store_next, RingBuffer.store_length] at hlength
        omega
      · simpa using hmore

theorem Orderly.routineStep_received {wi : Bool} {wspace : Nat} {ravail : Bool}
    (h : u.Orderly) (hjustified : u.Justified)
    (hirq : u.irq = .received wi wspace ravail)
    (hstep : u.irqStep core = some u') : u.RoutineStep core u' := by
  unfold Justified at hjustified
  simp only [hirq] at hjustified
  obtain ⟨hwi, hre⟩ := hjustified
  unfold JtagUart.irqStep at hstep
  simp only [hirq] at hstep
  cases ravail with
  | true =>
      cases hstep
      refine
        { frame := ⟨rfl, rfl, rfl, rfl, rfl⟩
          progress := .inr (advances_of_budget rfl rfl
            (budget_setIrqEnable_re h.control hre _) fun _ => ?_)
          justified := ?_ }
      · simp [setIrqEnable, h.control]
      · cases wi with
        | false => trivial
        | true =>
            rw [h.control] at hwi
            exact hwi rfl
  | false =>
      cases hstep
      refine routineStep_at ?_ ?_
      · rw [hirq]
        cases wi with
        | false => simp [UartIrqPc.position]
        | true => cases wspace <;> simp [UartIrqPc.position]
      · cases wi with
        | false => trivial
        | true => exact hwi rfl

theorem Orderly.routineStep_transmit {space : Nat} (h : u.Orderly)
    (hjustified : u.Justified) (hirq : u.irq = .transmit space)
    (hstep : u.irqStep core = some u') : u.RoutineStep core u' := by
  have hwe : u.control.we = true := by
    unfold Justified at hjustified
    simpa only [hirq] using hjustified
  have hspace := h.space
  simp only [hirq, UartIrqPc.space] at hspace
  unfold JtagUart.irqStep at hstep
  simp only [hirq] at hstep
  split_ifs at hstep with hpos hne
  · have hfits : u.writeFifo.length < jtagUartWriteDepth := by omega
    rw [writeData, if_pos hfits] at hstep
    cases hstep
    exact
      { frame := ⟨rfl, rfl, rfl, rfl, rfl⟩
        progress := .inl ⟨hne, rfl, rfl, rfl, rfl⟩
        justified := hwe }
  · cases hstep
    exact
      { frame := ⟨rfl, rfl, rfl, rfl, rfl⟩
        progress := .inr (advances_of_budget rfl rfl
          (budget_setIrqEnable_we h.control hwe _) fun hne' => absurd hne' hne)
        justified := trivial }
  · obtain rfl : space = 0 := by omega
    cases hstep
    refine routineStep_at ?_ trivial
    rw [hirq]
    simp [UartIrqPc.position]

theorem Orderly.routineStep (h : u.Orderly) (hjustified : u.Justified)
    (hs : core.Sensible) (hstep : u.irqStep core = some u') :
    u.RoutineStep core u' := by
  cases hirq : u.irq with
  | idle =>
      unfold JtagUart.irqStep at hstep
      simp only [hirq] at hstep
      split_ifs at hstep with hasks
      cases hstep
      have hasked : u.asks core = true := by
        rw [asks, Bool.or_eq_true]
        exact hasks
      refine routineStep_at ?_ trivial
      rw [hirq, hasked]
      simp [UartIrqPc.position]
  | control =>
      unfold JtagUart.irqStep at hstep
      simp only [hirq] at hstep
      have hwi (hwi : u.wi core = true) : u.control.we = true ∧
          core.asksWrite u.writeFifo = true := Bool.and_eq_true_iff.mp hwi
      split_ifs at hstep with hri hwrite
      · obtain ⟨hre, hread⟩ := Bool.and_eq_true_iff.mp hri
        cases hstep
        refine routineStep_at (by rw [hirq]; simp [UartIrqPc.position])
          ⟨fun h => (hwi h).1, hre, fun _ hnil => ?_⟩
        rw [hnil, hs.nothing] at hread
        contradiction
      · obtain ⟨hwe, hask⟩ := hwi hwrite
        have hroom := hs.full _ hask
        obtain ⟨space, hspace⟩ : ∃ space,
            jtagUartWriteDepth - u.writeFifo.length = space + 1 :=
          ⟨jtagUartWriteDepth - u.writeFifo.length - 1, by omega⟩
        rw [hspace] at hstep
        cases hstep
        exact routineStep_at (by rw [hirq]; simp [UartIrqPc.position]) hwe
      · cases hstep
        have hnot : u.asks core = false := by
          rw [asks, Bool.or_eq_false_iff]
          exact ⟨Bool.not_eq_true _ ▸ hri, Bool.not_eq_true _ ▸ hwrite⟩
        refine routineStep_at ?_ trivial
        rw [hirq, hnot]
        simp [UartIrqPc.position]
  | receive wi wspace ravail => exact routineStep_receive hjustified hirq hstep
  | received wi wspace ravail => exact h.routineStep_received hjustified hirq hstep
  | transmit space => exact h.routineStep_transmit hjustified hirq hstep

/-! ## The other steps -/

structure ProgramFrame (u u' : JtagUart) : Prop where
  irq : u'.irq = u.irq
  first : u'.tx.first = u.tx.first
  rx : u'.rx = u.rx
  readFifo : u'.readFifo = u.readFifo
  writeFifo : u'.writeFifo = u.writeFifo
  taken : u'.taken = u.taken
  hostInactive : u'.hostInactive = u.hostInactive
  re : u'.control.re = u.control.re
  we : u.control.we = true → u'.control.we = true

theorem Orderly.programFrame {w : Write} (h : u.Orderly)
    (hstep : u.programStep w = some u') : u.ProgramFrame u' := by
  unfold JtagUart.programStep at hstep
  cases hpc : w.pc with
  | memcpy txIn n done =>
      rw [hpc] at hstep
      dsimp only at hstep
      split_ifs at hstep
      · obtain ⟨byte, -, rfl⟩ := Option.map_eq_some_iff.mp hstep
        exact ⟨rfl, rfl, rfl, rfl, rfl, rfl, rfl, rfl, id⟩
      · cases hstep
        exact ⟨rfl, rfl, rfl, rfl, rfl, rfl, rfl, rfl, id⟩
  | kick =>
      rw [hpc] at hstep
      cases hstep
      exact ⟨rfl, rfl, rfl, rfl, rfl, rfl, rfl, by rw [h.control]; rfl, fun _ => rfl⟩
  | _ =>
      rw [hpc] at hstep
      dsimp only at hstep
      try split_ifs at hstep
      all_goals
        cases hstep
        exact ⟨rfl, rfl, rfl, rfl, rfl, rfl, rfl, rfl, id⟩

structure Sound (u : JtagUart) : Prop where
  orderly : u.Orderly
  justified : u.Justified

theorem justified_of_idle (hirq : u.irq = .idle) : u.Justified := by
  unfold Justified
  rw [hirq]
  trivial

theorem Sound.step {e : UartEvent} (h : u.Sound) (hs : core.Sensible)
    (hstep : u.step core e = some u') : u'.Sound := by
  refine ⟨h.orderly.step hstep, ?_⟩
  cases e with
  | call text nonblock =>
      simp only [JtagUart.step] at hstep
      split_ifs at hstep with hidle
      cases hstep
      exact justified_of_idle hidle.1
  | program =>
      simp only [JtagUart.step] at hstep
      split_ifs at hstep with hidle
      obtain ⟨w, -, hmoves⟩ := Option.bind_eq_some_iff.mp hstep
      exact justified_of_idle ((h.orderly.programFrame hmoves).irq.trans hidle)
  | irq => exact (h.orderly.routineStep h.justified hs hstep).justified
  | alarm =>
      simp only [JtagUart.step] at hstep
      split_ifs at hstep with hidle
      cases hstep
      refine justified_of_idle ?_
      unfold alarmStep
      split_ifs <;> exact hidle
  | hostReads =>
      simp only [JtagUart.step] at hstep
      cases hfifo : u.writeFifo with
      | nil => simp [hfifo] at hstep
      | cons byte rest =>
          rw [hfifo] at hstep
          cases hstep
          exact h.justified
  | hostTypes byte =>
      simp only [JtagUart.step] at hstep
      split_ifs at hstep
      cases hstep
      have hjustified := h.justified
      unfold Justified at hjustified ⊢
      cases hirq : u.irq with
      | receive wi wspace ravail =>
          simp only [hirq] at hjustified ⊢
          exact ⟨hjustified.1, hjustified.2.1, fun _ => by simp⟩
      | _ =>
          simp only [hirq] at hjustified ⊢
          try exact hjustified
  | hostPolls =>
      cases hstep
      exact h.justified

structure Outside (core : JtagUartCore) (u u' : JtagUart) : Prop where
  write : u'.write = u.write
  returned : u'.returned = u.returned
  tx : u'.tx = u.tx
  irq : u'.irq = u.irq
  we : u'.control.we = u.control.we
  bytes : u'.taken ++ u'.writeFifo = u.taken ++ u.writeFifo
  takes : u.taken.length ≤ u'.taken.length
  work : u'.work core ≤ u.work core
  routineWork : u'.writeFifo = u.writeFifo → u'.routineWork core ≤ u.routineWork core

theorem outside_of_same (hwrite : u'.write = u.write)
    (hreturned : u'.returned = u.returned) (htx : u'.tx = u.tx) (hrx : u'.rx = u.rx)
    (hirq : u'.irq = u.irq) (hcontrol : u'.control = u.control)
    (hread : u'.readFifo = u.readFifo) (hfifo : u'.writeFifo = u.writeFifo)
    (htaken : u'.taken = u.taken) : u.Outside core u' := by
  have hwork : u'.routineWork core = u.routineWork core := by
    simp only [routineWork, budget, asks, ri, wi, hirq, hrx, hcontrol, hread, hfifo]
  refine ⟨hwrite, hreturned, htx, hirq, by rw [hcontrol], by rw [htaken, hfifo],
    Nat.le_of_eq (by rw [htaken]), Nat.le_of_eq ?_, fun _ => Nat.le_of_eq hwork⟩
  rw [work, work, hwork, load, load, htx, hfifo]

theorem outside_alarm (h : u.Orderly) : u.Outside core u.alarmStep := by
  unfold JtagUart.alarmStep
  split_ifs
  · exact outside_of_same rfl rfl rfl rfl rfl h.control.symm rfl rfl rfl
  · exact outside_of_same rfl rfl rfl rfl rfl rfl rfl rfl rfl
  · exact outside_of_same rfl rfl rfl rfl rfl rfl rfl rfl rfl

theorem outside_hostReads {byte : UInt8} {rest : List UInt8}
    (hfifo : u.writeFifo = byte :: rest) :
    u.Outside core
      { u with writeFifo := rest, taken := u.taken ++ [byte], ac := true } := by
  refine ⟨rfl, rfl, rfl, rfl, rfl, ?_, ?_, ?_, fun hsame => ?_⟩
  · rw [hfifo, ← List.append_cons]
  · simp
  · have hposition (asks : Bool) := u.irq.position_le asks
    simp only [work, routineWork, load, budget, hfifo, List.length_cons]
    have hone := hposition
      (asks core { u with writeFifo := rest, taken := u.taken ++ [byte], ac := true })
    omega
  · rw [hfifo] at hsame
    exact absurd hsame (by simp)

theorem outside_hostTypes (byte : UInt8)
    (hroom : u.readFifo.length < jtagUartReadDepth) :
    u.Outside core
      { u with
        readFifo := u.readFifo ++ [byte]
        typed := u.typed ++ [byte]
        ac := true } := by
  have hlower : routineWork core
      { u with
        readFifo := u.readFifo ++ [byte]
        typed := u.typed ++ [byte]
        ac := true } ≤ u.routineWork core := by
    have hposition := u.irq.position_le (asks core
      { u with
        readFifo := u.readFifo ++ [byte]
        typed := u.typed ++ [byte]
        ac := true })
    simp only [routineWork, budget, List.length_append, List.length_singleton]
    omega
  exact ⟨rfl, rfl, rfl, rfl, rfl, rfl, Nat.le_refl _, Nat.add_le_add_right hlower _,
    fun _ => hlower⟩

theorem Sound.step_cases {e : UartEvent} (h : u.Sound) (hs : core.Sensible)
    (hstep : u.step core e = some u') :
    (u.irq = .idle ∧ u.write = none ∧
      ∃ text nonblock, u' = u.setWrite (.begin text nonblock)) ∨
    (e = .program ∧ u.irq = .idle ∧
      ∃ w, u.write = some w ∧ u.programStep w = some u') ∨
    (e = .irq ∧ u.RoutineStep core u') ∨
    u.Outside core u' := by
  cases e with
  | call text nonblock =>
      simp only [JtagUart.step] at hstep
      split_ifs at hstep with hidle
      cases hstep
      exact .inl ⟨hidle.1, Option.isNone_iff_eq_none.mp hidle.2.1, _, _, rfl⟩
  | program =>
      simp only [JtagUart.step] at hstep
      split_ifs at hstep with hidle
      obtain ⟨w, hw, hmoves⟩ := Option.bind_eq_some_iff.mp hstep
      exact .inr (.inl ⟨rfl, hidle, w, hw, hmoves⟩)
  | irq =>
      exact .inr (.inr (.inl ⟨rfl, h.orderly.routineStep h.justified hs hstep⟩))
  | alarm =>
      simp only [JtagUart.step] at hstep
      split_ifs at hstep
      cases hstep
      exact .inr (.inr (.inr (outside_alarm h.orderly)))
  | hostReads =>
      simp only [JtagUart.step] at hstep
      cases hfifo : u.writeFifo with
      | nil => simp [hfifo] at hstep
      | cons byte rest =>
          rw [hfifo] at hstep
          cases hstep
          exact .inr (.inr (.inr (outside_hostReads hfifo)))
  | hostTypes byte =>
      simp only [JtagUart.step] at hstep
      split_ifs at hstep with hroom
      cases hstep
      exact .inr (.inr (.inr (outside_hostTypes byte hroom)))
  | hostPolls =>
      cases hstep
      exact .inr (.inr (.inr
        (outside_of_same rfl rfl rfl rfl rfl rfl rfl rfl rfl)))

/-! ## The work that is left -/

theorem RoutineStep.work_lt (h : u.RoutineStep core u') :
    u'.work core < u.work core := by
  rcases h.progress with hsends | hadvances
  · have hone := RingBuffer.length_take hsends.first
    have hposition := u'.irq.position_le (u'.asks core)
    have hbudget := hsends.budget
    simp only [work, routineWork, load, hsends.tx, hsends.writeFifo,
      List.length_append, List.length_singleton]
    omega
  · have hlower := hadvances.lower
    simp only [work, load, hadvances.tx, hadvances.writeFifo]
    omega

theorem Orderly.work_lt (core : JtagUartCore) (h : u.Orderly) : u.work core < 100000 := by
  have hposition := u.irq.position_le (u.asks core)
  have hspace := h.space
  have hring := u.tx.length_lt
  have hre := Bool.toNat_le u.control.re
  have hwe := Bool.toNat_le u.control.we
  simp only [work, routineWork, budget, load, jtagUartBufLen, jtagUartReadDepth,
    jtagUartWriteDepth] at *
  omega

theorem irqStep_of_running (hirq : u.irq ≠ .idle ∨ u.asks core = true) :
    ∃ u', u.irqStep core = some u' := by
  unfold JtagUart.irqStep
  cases hpc : u.irq with
  | idle =>
      have hasks : u.ri core = true ∨ u.wi core = true := by
        rw [← Bool.or_eq_true]
        exact hirq.resolve_left (absurd hpc)
      exact ⟨_, if_pos hasks⟩
  | control =>
      dsimp only
      split_ifs <;> exact ⟨_, rfl⟩
  | receive wi wspace ravail =>
      dsimp only
      split_ifs
      · exact ⟨_, rfl⟩
      · cases u.readFifo <;> exact ⟨_, rfl⟩
  | received wi wspace ravail => exact ⟨_, rfl⟩
  | transmit space =>
      dsimp only
      split_ifs <;> exact ⟨_, rfl⟩

end JtagUart

end NiosHps.Board
