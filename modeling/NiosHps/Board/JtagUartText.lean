import NiosHps.Board.JtagUart

/-!
# What is printed arrives in order

A call of `write` may be broken off by the interrupt routine anywhere, also
between its two reads of the indices, with an `out` that is then out of date.
What the host has taken, what is in the FIFO and what is in the ring are always
the bytes that the calls have accepted, in this order.
-/

namespace NiosHps.Board

open NiosHps.Foundation

def Write.accepted (w : Write) : List UInt8 := w.text.take w.written

/-- The bytes that a call says it has accepted. -/
def reported : List UInt8 × Except Errno Nat → List UInt8
  | (text, .ok n) => text.take n
  | (_, .error _) => []

def WritePc.BeforeKick : WritePc → Prop
  | .copy | .txOut _ | .memcpy _ _ _ | .kick => True
  | _ => False

/-- What a call knows of the ring where it is. -/
def Write.At (tx : RingBuffer UInt8 jtagUartBufLen) (w : Write) : Prop :=
  match w.pc with
  | .txOut txIn => txIn = tx.next ∧ 0 < w.count
  | .memcpy txIn n done =>
      txIn = tx.next ∧ 0 < n ∧ n ≤ w.count ∧ done ≤ n ∧ tx.Free n ∧
        ∀ j, j < done → w.text[w.written + j]? = some (tx.cells (txIn + j))
  | .kick => 0 < w.count → (tx.next + 1) % jtagUartBufLen = w.out
  | .wait =>
      0 < w.count ∧ w.nonblock = false ∧ (tx.next + 1) % jtagUartBufLen = w.out
  | .hostCheck => 0 < w.count ∧ w.nonblock = false
  | _ => True

structure Write.Valid (tx : RingBuffer UInt8 jtagUartBufLen) (w : Write) :
    Prop where
  written : w.written ≤ w.text.length
  place : w.At tx

theorem Write.Valid.take {w : Write} {tx : RingBuffer UInt8 jtagUartBufLen}
    (h : w.Valid tx) (hne : tx.first ≠ tx.next) : w.Valid tx.take := by
  refine ⟨h.written, ?_⟩
  have hplace := h.place
  unfold Write.At at hplace ⊢
  cases hpc : w.pc with
  | memcpy txIn n done =>
      rw [hpc] at hplace
      obtain ⟨hin, hn, hcount, hdone, hfree, hcopied⟩ := hplace
      exact ⟨hin, hn, hcount, hdone, hfree.take hne, hcopied⟩
  | _ =>
      rw [hpc] at hplace
      exact hplace

def UartIrqPc.space : UartIrqPc → Nat
  | .receive _ wspace _ | .received _ wspace _ => wspace
  | .transmit space => space
  | _ => 0

namespace JtagUart

def accepted (u : JtagUart) : List UInt8 :=
  u.returned.flatMap reported ++
    match u.write with
    | none => []
    | some w => w.accepted

/-- The call that is under way will still set the enable bit. -/
def WillKick (u : JtagUart) : Prop := ∃ w, u.write = some w ∧ w.pc.BeforeKick

structure Orderly (u : JtagUart) : Prop where
  sent : u.taken ++ u.writeFifo ++ u.tx.contents = u.accepted
  typed : u.rx.contents ++ u.readFifo = u.typed
  control : u.control = u.irqEnable
  space : u.irq.space + u.writeFifo.length ≤ jtagUartWriteDepth
  write : ∀ w, u.write = some w → w.Valid u.tx
  wakes : u.tx.first ≠ u.tx.next → u.control.we = true ∨ u.WillKick
  returned : ∀ call ∈ u.returned, ∀ n, call.2 = .ok n →
    0 < n ∧ n ≤ call.1.length

variable {core : JtagUartCore} {u u' : JtagUart} {w : Write}

theorem orderly_init : Orderly init where
  sent := rfl
  typed := rfl
  control := rfl
  space := by decide
  write := nofun
  wakes hne := absurd rfl hne
  returned := nofun

@[simp] theorem accepted_setWrite (w' : Write) :
    (u.setWrite w').accepted = u.returned.flatMap reported ++ w'.accepted := rfl

theorem accepted_of_write (hw : u.write = some w) :
    u.accepted = u.returned.flatMap reported ++ w.accepted := by
  rw [accepted, hw]

/-! ## The program -/

theorem Orderly.moves {w' : Write} (h : u.Orderly) (hw : u.write = some w)
    (haccepted : w'.accepted = w.accepted) (hvalid : w'.Valid u.tx)
    (hkick : w.pc.BeforeKick → w'.pc.BeforeKick ∨ u.control.we = true) :
    (u.setWrite w').Orderly where
  sent := by
    rw [accepted_setWrite, haccepted, ← accepted_of_write hw]
    exact h.sent
  typed := h.typed
  control := h.control
  space := h.space
  write w₁ hw₁ := by
    obtain rfl := Option.some.inj hw₁
    exact hvalid
  wakes hne := by
    rcases h.wakes hne with hwe | ⟨w₁, hw₁, hbefore⟩
    · exact .inl hwe
    · obtain rfl := Option.some.inj (hw.symm.trans hw₁)
      rcases hkick hbefore with hstill | hwe
      · exact .inr ⟨w', rfl, hstill⟩
      · exact .inl hwe
  returned := h.returned

theorem Orderly.stored {txIn n done : Nat} {byte : UInt8} (h : u.Orderly)
    (hw : u.write = some w) (hpc : w.pc = .memcpy txIn n done) (hdone : done < n)
    (hbyte : w.text[w.written + done]? = some byte) :
    Orderly
      { u.setWrite { w with pc := .memcpy txIn n (done + 1) } with
        tx := u.tx.store (txIn + done) byte } := by
  have hvalid := h.write w hw
  have hplace := hvalid.place
  simp only [Write.At, hpc] at hplace
  obtain ⟨rfl, hn, hcount, -, hfree, hcopied⟩ := hplace
  refine
    { sent := ?_
      typed := h.typed
      control := h.control
      space := h.space
      write := fun w₁ hw₁ => ?_
      wakes := fun hne => .inr ⟨_, rfl, trivial⟩
      returned := h.returned }
  · change u.taken ++ u.writeFifo ++ (u.tx.store (u.tx.next + done) byte).contents = _
    rw [RingBuffer.contents_store hfree hdone, h.sent, accepted_of_write hw]
    rfl
  · obtain rfl := Option.some.inj hw₁
    refine ⟨hvalid.written, rfl, hn, hcount, hdone, hfree.store _ _, ?_⟩
    intro j hj
    change w.text[w.written + j]? =
      some ((u.tx.store (u.tx.next + done) byte).cells (u.tx.next + j))
    rcases Nat.lt_succ_iff_lt_or_eq.mp hj with hlt | rfl
    · rw [RingBuffer.store_of_ne (by omega), hcopied j hlt]
    · rw [RingBuffer.store_self, hbyte]

theorem Orderly.published {txIn n done : Nat} (h : u.Orderly)
    (hw : u.write = some w) (hpc : w.pc = .memcpy txIn n done) (hdone : ¬done < n) :
    Orderly
      { u.setWrite { w with pc := .copy, written := w.written + n } with
        tx := u.tx.publish txIn n } := by
  have hvalid := h.write w hw
  have hplace := hvalid.place
  simp only [Write.At, hpc] at hplace
  obtain ⟨rfl, hn, hcount, hle, hfree, hcopied⟩ := hplace
  have hwritten := hvalid.written
  rw [Write.count] at hcount
  let added := (w.text.drop w.written).take n
  have hlength : added.length = n := by
    simp only [added, List.length_take, List.length_drop]
    omega
  have hcells (j : Nat) (hj : j < added.length) :
      u.tx.cells (u.tx.next + j) = added[j] := by
    have hcopy := hcopied j (by omega)
    rw [List.getElem?_eq_getElem (by omega)] at hcopy
    rw [← Option.some.inj hcopy]
    simp [added]
  have hpublished : (u.tx.publish u.tx.next n).contents =
      u.tx.contents ++ added := by
    have hboth := RingBuffer.contents_publish (r := u.tx)
      (by rw [hlength]; exact hfree) hcells
    rwa [hlength] at hboth
  refine
    { sent := ?_
      typed := h.typed
      control := h.control
      space := h.space
      write := fun w₁ hw₁ => ?_
      wakes := fun hne => .inr ⟨_, rfl, trivial⟩
      returned := h.returned }
  · change u.taken ++ u.writeFifo ++ (u.tx.publish u.tx.next n).contents =
      u.returned.flatMap reported ++ w.text.take (w.written + n)
    rw [hpublished, ← List.append_assoc, h.sent, accepted_of_write hw,
      List.append_assoc, List.take_add]
    rfl
  · obtain rfl := Option.some.inj hw₁
    exact ⟨by change w.written + n ≤ w.text.length; omega, trivial⟩

theorem Orderly.kicked (h : u.Orderly) :
    (u.setIrqEnable { u.irqEnable with we := true }).Orderly where
  sent := h.sent
  typed := h.typed
  control := rfl
  space := h.space
  write := h.write
  wakes _ := .inl rfl
  returned := h.returned

theorem reported_result (w : Write) :
    reported (w.text, w.result) = w.accepted := by
  unfold Write.result Write.accepted
  split_ifs with hzero
  · rfl
  all_goals
    rw [not_not] at hzero
    rw [hzero]
    rfl

theorem Orderly.finished (h : u.Orderly) (hw : u.write = some w)
    (hpc : w.pc = .finish) :
    Orderly
      { u with write := none, returned := u.returned ++ [(w.text, w.result)] } := by
  have hvalid := h.write w hw
  refine
    { sent := ?_
      typed := h.typed
      control := h.control
      space := h.space
      write := nofun
      wakes := fun hne => .inl ?_
      returned := fun call hcall n hn => ?_ }
  · change u.taken ++ u.writeFifo ++ u.tx.contents = List.flatMap reported _ ++ []
    rw [List.append_nil, List.flatMap_append, List.flatMap_singleton,
      reported_result, h.sent, accepted_of_write hw]
  · refine (h.wakes hne).resolve_right ?_
    rintro ⟨w₁, hw₁, hbefore⟩
    obtain rfl := Option.some.inj (hw.symm.trans hw₁)
    rw [hpc] at hbefore
    exact hbefore
  · rcases List.mem_append.mp hcall with hold | hnew
    · exact h.returned call hold n hn
    · obtain rfl := List.mem_singleton.mp hnew
      unfold Write.result at hn
      split_ifs at hn with hzero
      obtain rfl := Except.ok.inj hn
      exact ⟨Nat.pos_of_ne_zero hzero, hvalid.written⟩

theorem Orderly.programStep (h : u.Orderly) (hw : u.write = some w) :
    ∃ u', u.programStep w = some u' ∧ u'.Orderly := by
  have hvalid := h.write w hw
  have hplace := hvalid.place
  unfold JtagUart.programStep
  unfold Write.At at hplace
  cases hpc : w.pc with
  | copy =>
      dsimp only
      split_ifs with hcount
      · exact ⟨_, rfl, h.moves hw rfl ⟨hvalid.written, rfl, hcount⟩
          fun _ => .inl trivial⟩
      · exact ⟨_, rfl, h.moves hw rfl ⟨hvalid.written, fun h => absurd h hcount⟩
          fun _ => .inl trivial⟩
  | txOut txIn =>
      rw [hpc] at hplace
      obtain ⟨rfl, hcount⟩ := hplace
      dsimp only
      split_ifs with hroom
      · have hfull := RingBuffer.next_of_full (RingBuffer.full_of_room hroom)
        exact ⟨_, rfl, h.moves hw rfl ⟨hvalid.written, fun _ => hfull⟩
          fun _ => .inl trivial⟩
      · refine ⟨_, rfl, h.moves hw rfl ⟨hvalid.written, rfl, ?_, ?_, ?_, ?_, nofun⟩
          fun _ => .inl trivial⟩
        · exact Nat.lt_min.mpr ⟨Nat.pos_of_ne_zero hroom, hcount⟩
        · exact Nat.min_le_right _ _
        · exact Nat.zero_le _
        · exact RingBuffer.free_room.mono (Nat.min_le_left _ _)
  | memcpy txIn n done =>
      rw [hpc] at hplace
      obtain ⟨rfl, -, hn, -, hfree, -⟩ := hplace
      rw [Write.count] at hn
      dsimp only
      split_ifs with hdone hinside
      · have hbyte : w.written + done < w.text.length := by omega
        rw [List.getElem?_eq_getElem hbyte]
        exact ⟨_, rfl, h.stored hw hpc hdone (List.getElem?_eq_getElem hbyte)⟩
      · have hbound := hfree.inside
        omega
      · exact ⟨_, rfl, h.published hw hpc hdone⟩
  | kick =>
      rw [hpc] at hplace
      refine ⟨_, rfl, h.kicked.moves hw rfl ⟨hvalid.written, ?_⟩ fun _ => .inr rfl⟩
      unfold Write.At
      dsimp only
      split_ifs with hcount hnonblock
      · trivial
      · trivial
      · have hpos := Nat.pos_of_ne_zero hcount
        exact ⟨hpos, Bool.not_eq_true _ ▸ hnonblock, hplace hpos⟩
  | wait =>
      dsimp only
      split_ifs
      · exact ⟨_, rfl, h⟩
      · rw [hpc] at hplace
        exact ⟨_, rfl, h.moves hw rfl ⟨hvalid.written, hplace.1, hplace.2.1⟩
          fun hbefore => (hpc ▸ hbefore).elim⟩
  | hostCheck =>
      dsimp only
      split_ifs
      · exact ⟨_, rfl, h.moves hw rfl ⟨hvalid.written, trivial⟩
          fun hbefore => (hpc ▸ hbefore).elim⟩
      · exact ⟨_, rfl, h.moves hw rfl ⟨hvalid.written, trivial⟩
          fun _ => .inl trivial⟩
  | finish => exact ⟨_, rfl, h.finished hw hpc⟩

theorem Orderly.call (h : u.Orderly) (text : List UInt8) (nonblock : Bool)
    (hnone : u.write = none) : (u.setWrite (.begin text nonblock)).Orderly where
  sent := by
    rw [accepted_setWrite]
    refine h.sent.trans ?_
    rw [accepted, hnone]
    rfl
  typed := h.typed
  control := h.control
  space := h.space
  write w hw := by
    obtain rfl := Option.some.inj hw
    exact ⟨Nat.zero_le _, trivial⟩
  wakes hne := .inr ⟨_, rfl, trivial⟩
  returned := h.returned

/-! ## The interrupt routine -/

theorem Orderly.at (h : u.Orderly) (irq : UartIrqPc)
    (hspace : irq.space + u.writeFifo.length ≤ jtagUartWriteDepth) :
    Orderly { u with irq := irq } :=
  { h with space := hspace }

theorem Orderly.stopsReceiving (h : u.Orderly) :
    (u.setIrqEnable { u.irqEnable with re := false }).Orderly :=
  { h with
    control := rfl
    wakes := fun hne => by
      have hwe := h.wakes hne
      rw [h.control] at hwe
      exact hwe }

theorem Orderly.stopsSending (h : u.Orderly) (hempty : u.tx.first = u.tx.next) :
    (u.setIrqEnable { u.irqEnable with we := false }).Orderly :=
  { h with
    control := rfl
    wakes := fun hne => absurd hempty hne }

theorem Orderly.receives (h : u.Orderly) {byte : UInt8} {rest : List UInt8}
    (hroom : (u.rx.next + 1) % jtagUartBufLen ≠ u.rx.first)
    (hfifo : u.readFifo = byte :: rest) :
    Orderly
      { u with
        rx := (u.rx.store u.rx.next byte).publish u.rx.next 1
        readFifo := rest } := by
  refine { h with typed := ?_ }
  change ((u.rx.store u.rx.next byte).publish u.rx.next 1).contents ++ rest = u.typed
  rw [RingBuffer.contents_put (RingBuffer.free_one hroom), ← h.typed, hfifo,
    List.append_assoc]
  rfl

theorem Orderly.sends (h : u.Orderly) {space : Nat} (hirq : u.irq = .transmit space)
    (hpos : 0 < space) (hne : u.tx.first ≠ u.tx.next) :
    Orderly
      { u.writeData (u.tx.cells u.tx.first) with
        tx := u.tx.take
        irq := .transmit (space - 1) } := by
  have hspace := h.space
  rw [hirq] at hspace
  simp only [UartIrqPc.space] at hspace
  have hfits : u.writeFifo.length < jtagUartWriteDepth := by omega
  rw [writeData, if_pos hfits]
  refine
    { h with
      sent := ?_
      space := ?_
      write := fun w hw => (h.write w hw).take hne
      wakes := fun _ => h.wakes hne }
  · change u.taken ++ (u.writeFifo ++ [u.tx.cells u.tx.first]) ++
      u.tx.take.contents = u.accepted
    rw [← h.sent, RingBuffer.contents_take hne]
    simp only [List.append_assoc, List.singleton_append]
  · simp only [UartIrqPc.space, List.length_append, List.length_singleton]
    omega

theorem Orderly.irqStep (h : u.Orderly) (hstep : u.irqStep core = some u') :
    u'.Orderly := by
  have hspace := h.space
  unfold JtagUart.irqStep at hstep
  cases hirq : u.irq with
  | idle =>
      rw [hirq] at hstep hspace
      simp only at hstep
      split_ifs at hstep
      cases hstep
      exact h.at .control hspace
  | control =>
      rw [hirq] at hstep hspace
      simp only at hstep
      simp only [UartIrqPc.space, Nat.zero_add] at hspace
      split_ifs at hstep
      all_goals
        cases hstep
        refine h.at _ ?_
        simp only [UartIrqPc.space]
        omega
  | receive wi wspace ravail =>
      rw [hirq] at hstep hspace
      simp only at hstep
      split_ifs at hstep with hfull
      · cases hstep
        exact h.at _ hspace
      · cases hfifo : u.readFifo with
        | nil =>
            rw [hfifo] at hstep
            cases hstep
            simpa only [hfifo] using h.at (.received wi wspace false) hspace
        | cons byte rest =>
            rw [hfifo] at hstep
            cases hstep
            exact (h.receives hfull hfifo).at (.receive wi wspace (!rest.isEmpty))
              hspace
  | received wi wspace ravail =>
      rw [hirq] at hstep hspace
      simp only at hstep
      have hfifo : UartIrqPc.control.space + u.writeFifo.length ≤
          jtagUartWriteDepth := by
        simp only [UartIrqPc.space] at hspace ⊢
        omega
      cases hstep
      split_ifs with hravail hwi hwi
      · exact h.stopsReceiving.at (.transmit wspace) hspace
      · exact h.stopsReceiving.at .control hfifo
      · exact h.at (.transmit wspace) hspace
      · exact h.at .control hfifo
  | transmit space =>
      rw [hirq] at hstep hspace
      simp only at hstep
      have hfifo : (UartIrqPc.control.space + u.writeFifo.length) ≤
          jtagUartWriteDepth := by
        simp only [UartIrqPc.space] at hspace ⊢
        omega
      split_ifs at hstep with hpos hne
      · cases hstep
        exact h.sends hirq hpos hne
      · cases hstep
        exact (h.stopsSending (not_not.mp hne)).at .control hfifo
      · cases hstep
        exact h.at .control hfifo

/-! ## Every step -/

theorem Orderly.alarmStep (h : u.Orderly) : u.alarmStep.Orderly := by
  unfold JtagUart.alarmStep
  split_ifs
  · have hwakes := h.wakes
    rw [h.control] at hwakes
    exact { h with control := rfl, wakes := hwakes }
  · exact { h with }
  · exact h

theorem Orderly.hostReads {byte : UInt8} {rest : List UInt8} (h : u.Orderly)
    (hfifo : u.writeFifo = byte :: rest) :
    Orderly { u with writeFifo := rest, taken := u.taken ++ [byte], ac := true } := by
  have hspace := h.space
  have hsent := h.sent
  rw [hfifo] at hspace hsent
  refine { h with sent := ?_, space := ?_ }
  · rw [← List.append_cons]
    exact hsent
  · rw [List.length_cons] at hspace
    change u.irq.space + rest.length ≤ jtagUartWriteDepth
    omega

theorem Orderly.hostTypes (h : u.Orderly) (byte : UInt8) :
    Orderly
      { u with
        readFifo := u.readFifo ++ [byte]
        typed := u.typed ++ [byte]
        ac := true } := by
  refine { h with typed := ?_ }
  change u.rx.contents ++ (u.readFifo ++ [byte]) = u.typed ++ [byte]
  rw [← List.append_assoc, h.typed]

theorem Orderly.step {e : UartEvent} (h : u.Orderly)
    (hstep : u.step core e = some u') : u'.Orderly := by
  cases e with
  | call text nonblock =>
      simp only [JtagUart.step] at hstep
      split_ifs at hstep with hidle
      cases hstep
      exact h.call text nonblock (Option.isNone_iff_eq_none.mp hidle.2.1)
  | program =>
      simp only [JtagUart.step] at hstep
      split_ifs at hstep
      obtain ⟨w, hw, hmoves⟩ := Option.bind_eq_some_iff.mp hstep
      obtain ⟨u₁, hu₁, horderly⟩ := h.programStep hw
      rw [hu₁] at hmoves
      cases hmoves
      exact horderly
  | irq => exact h.irqStep hstep
  | alarm =>
      simp only [JtagUart.step] at hstep
      split_ifs at hstep
      cases hstep
      exact h.alarmStep
  | hostReads =>
      simp only [JtagUart.step] at hstep
      cases hfifo : u.writeFifo with
      | nil => simp [hfifo] at hstep
      | cons byte rest =>
          rw [hfifo] at hstep
          cases hstep
          exact h.hostReads hfifo
  | hostTypes byte =>
      simp only [JtagUart.step] at hstep
      split_ifs at hstep
      cases hstep
      exact h.hostTypes byte
  | hostPolls =>
      cases hstep
      exact { h with }

theorem orderly_inductive (core : JtagUartCore) : (jtagUart core).Inductive Orderly where
  init _ hinit := hinit ▸ orderly_init
  step _ _ _ h hstep := h.step hstep

/--
However the program, the interrupt routine, the alarm and the host interleave:
what the host has taken, what is in the FIFO and what is in the ring are the
bytes that the calls have accepted, a call that returned a count accepted that
many from the start of its text, and one that failed none.  While the ring holds
something the device may interrupt, or a call that is under way will let it.
What the host types is kept in order.  No call writes outside the ring.
-/
theorem text_arrives_in_order (core : JtagUartCore) (u : JtagUart)
    (hu : (jtagUart core).Reachable u) :
    u.taken ++ u.writeFifo ++ u.tx.contents = u.accepted ∧
    (∀ call ∈ u.returned, ∀ n, call.2 = .ok n → 0 < n ∧ n ≤ call.1.length) ∧
    (u.tx.contents ≠ [] → u.control.we = true ∨ u.WillKick) ∧
    u.rx.contents ++ u.readFifo = u.typed ∧
    (u.irq = .idle → u.write ≠ none →
      (jtagUart core).step u .program ≠ none) := by
  have h := (orderly_inductive core).reachable hu
  refine ⟨h.sent, h.returned, fun hne => h.wakes ?_, h.typed, fun hidle hwrite => ?_⟩
  · exact fun heq => hne (RingBuffer.contents_eq_nil.mpr heq)
  · obtain ⟨w, hw⟩ := Option.ne_none_iff_exists'.mp hwrite
    obtain ⟨u', hu', -⟩ := h.programStep hw
    simp [jtagUart, JtagUart.step, hidle, hw, hu']

/-- The device as it is set up: it asks when eight bytes or fewer are left. -/
def thresholdCore : JtagUartCore where
  asksRead fifo := !fifo.isEmpty
  asksWrite fifo := fifo.length ≤ 8

def holaRun : List UartEvent :=
  [.call [72, 111] false] ++ List.replicate 7 .program ++ List.replicate 3 .irq ++
    [.hostReads] ++ List.replicate 3 .irq ++ [.program, .hostReads]

theorem text_arrives_in_order_hola :
    ∃ u, (jtagUart thresholdCore).run init holaRun = some u ∧
      u.taken = [72, 111] ∧
      u.taken ++ u.writeFifo ++ u.tx.contents = u.accepted := by
  have hinit : (jtagUart thresholdCore).Reachable init := .init rfl
  have hrun (u : JtagUart)
      (hu : (jtagUart thresholdCore).run init holaRun = some u) :
      (jtagUart thresholdCore).Reachable u := hinit.run hu
  exact ⟨_, rfl, rfl, (text_arrives_in_order thresholdCore _ (hrun _ rfl)).1⟩

end JtagUart

end NiosHps.Board
