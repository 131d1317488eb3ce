import NiosHps.Board.JtagUartDelivery

/-!
# Every call returns

A call that finds the ring full waits for the routine.  It has the whole ring in
front of it, so that the arrival of what it has accepted lets it go on, and then
there is room: the bytes left get fewer each time round.
-/

namespace NiosHps.Board

open NiosHps.Foundation

structure Write.Writes (text : List UInt8) (c : Nat) (w : Write) : Prop where
  text : w.text = text
  blocking : w.nonblock = false
  count : w.count ≤ c
  finish : w.pc = .finish → w.count = 0

theorem Write.Writes.follows {text : List UInt8} {c : Nat} {w w' : Write}
    {inactive : Prop} (h : w.Writes text c) (hfollows : w.Follows w' inactive) :
    inactive ∨ w'.Writes text c := by
  by_cases hinactive : inactive
  · exact .inl hinactive
  refine .inr ⟨hfollows.text.trans h.text, hfollows.nonblock.trans h.blocking,
    hfollows.count.trans h.count, fun hfinish => ?_⟩
  rcases hfollows.finish hfinish with hzero | hnonblock | hmissed
  · exact hzero
  · rw [h.blocking] at hnonblock
    contradiction
  · exact absurd hmissed hinactive

def Write.Copies (tx : RingBuffer UInt8 jtagUartBufLen) (w : Write) : Prop :=
  0 < w.count ∧
    match w.pc with
    | .hostCheck | .copy | .txOut _ => tx.Free 1
    | .memcpy _ _ _ => True
    | _ => False

theorem Write.Copies.take {tx : RingBuffer UInt8 jtagUartBufLen} {w : Write}
    (h : w.Copies tx) (hne : tx.first ≠ tx.next) : w.Copies tx.take := by
  obtain ⟨hcount, hplace⟩ := h
  refine ⟨hcount, ?_⟩
  cases hpc : w.pc with
  | hostCheck | copy | txOut txIn =>
      rw [hpc] at hplace
      exact RingBuffer.Free.take hplace hne
  | memcpy txIn n done => trivial
  | kick | wait | finish =>
      rw [hpc] at hplace
      exact hplace.elim

namespace JtagUart

section Returns

variable {core : JtagUartCore} {s u u' : JtagUart} {schedule : Nat → UartEvent}
  {text : List UInt8} {w : Write}

/-- The call has accepted all of its text, unless the alarm missed the host. -/
def Answered (text : List UInt8) (u : JtagUart) : Prop :=
  (text, .ok text.length) ∈ u.returned ∨ u.hostInactive ≠ 0

theorem Orderly.answered {c : Nat} (h : u.Orderly) (hw : u.write = some w)
    (hwrites : w.Writes text c) (hpc : w.pc = .finish) (htext : text ≠ [])
    (hstep : u.programStep w = some u') : u'.Answered text := by
  have hcount := hwrites.finish hpc
  have hwritten := (h.write w hw).written
  have hall : w.written = text.length := by
    rw [Write.count] at hcount
    rw [← hwrites.text]
    omega
  have hresult : w.result = .ok text.length := by
    rw [Write.result, if_pos, hall]
    rw [hall]
    exact fun hzero => htext (List.length_eq_zero_iff.mp hzero)
  unfold JtagUart.programStep at hstep
  rw [hpc] at hstep
  cases hstep
  refine .inl (List.mem_append_right _ ?_)
  rw [hresult, hwrites.text]
  exact List.mem_singleton_self _

theorem Orderly.waits (h : u.Orderly) (hw : u.write = some w) (hpc : w.pc = .wait)
    (hstep : u.programStep w = some u') :
    u' = u ∧ (u.tx.next + 1) % jtagUartBufLen = u.tx.first ∨
      u'.hostInactive ≠ 0 ∨
      ∃ w', u'.write = some w' ∧ w'.pc = .hostCheck ∧ w'.text = w.text ∧
        w'.nonblock = w.nonblock ∧ w'.count = w.count ∧ w'.Copies u'.tx := by
  have hplace := (h.write w hw).place
  unfold Write.At at hplace
  unfold JtagUart.programStep at hstep
  rw [hpc] at hstep hplace
  obtain ⟨hcount, -, hout⟩ := hplace
  dsimp only at hstep
  split_ifs at hstep with hstays
  · cases hstep
    exact .inl ⟨rfl, hout.trans hstays.1⟩
  · cases hstep
    by_cases hinactive : u.hostInactive = 0
    · refine .inr (.inr ⟨_, rfl, rfl, rfl, rfl, rfl, hcount, ?_⟩)
      refine RingBuffer.free_one fun hfull => hstays ⟨hout.symm.trans hfull, ?_⟩
      rw [hinactive]
      decide
    · exact .inr (.inl hinactive)

structure Attended (u : JtagUart) : Prop where
  hostInactive : u.hostInactive = 0
  finish : ∀ w, u.write = some w → w.nonblock = false → w.pc = .finish → w.count = 0

theorem hostInactive_step {e : UartEvent} (h : u.Sound) (hs : core.Sensible)
    (hactive : e = .alarm → u.ac = true) (hinactive : u.hostInactive = 0)
    (hstep : u.step core e = some u') : u'.hostInactive = 0 := by
  cases e with
  | alarm =>
      simp only [JtagUart.step] at hstep
      split_ifs at hstep
      cases hstep
      rw [alarmStep, if_pos (hactive rfl)]
  | program =>
      simp only [JtagUart.step] at hstep
      split_ifs at hstep
      obtain ⟨w, -, hmoves⟩ := Option.bind_eq_some_iff.mp hstep
      rw [(h.orderly.programFrame hmoves).hostInactive, hinactive]
  | irq =>
      have hroutine := h.orderly.routineStep h.justified hs hstep
      rw [hroutine.frame.hostInactive, hinactive]
  | call text nonblock =>
      simp only [JtagUart.step] at hstep
      split_ifs at hstep
      cases hstep
      exact hinactive
  | hostReads =>
      simp only [JtagUart.step] at hstep
      cases hfifo : u.writeFifo with
      | nil => simp [hfifo] at hstep
      | cons byte rest =>
          rw [hfifo] at hstep
          cases hstep
          exact hinactive
  | hostTypes byte =>
      simp only [JtagUart.step] at hstep
      split_ifs at hstep
      cases hstep
      exact hinactive
  | hostPolls =>
      cases hstep
      exact hinactive

theorem Attended.step {e : UartEvent} (hattended : u.Attended) (h : u.Sound)
    (hs : core.Sensible) (hactive : e = .alarm → u.ac = true)
    (hstep : u.step core e = some u') : u'.Attended := by
  have hinactive' := hostInactive_step h hs hactive hattended.hostInactive hstep
  refine ⟨hinactive', ?_⟩
  obtain ⟨-, -, text, nonblock, rfl⟩ | ⟨-, -, w, hw, hmoves⟩ | ⟨-, hroutine⟩ |
    houtside := h.step_cases hs hstep
  · rintro w hw - hfinish
    obtain rfl := Option.some.inj hw
    contradiction
  · intro w' hw' hblocking hfinish
    by_cases hpc : w.pc = .finish
    · unfold JtagUart.programStep at hmoves
      rw [hpc] at hmoves
      cases hmoves
      contradiction
    by_cases hwait : w.pc = .wait
    · rcases h.orderly.waits hw hwait hmoves with
        ⟨rfl, -⟩ | hmissed | ⟨w₁, hw₁, hcheck, -⟩
      · exact hattended.finish w' hw' hblocking hfinish
      · exact absurd hinactive' hmissed
      · obtain rfl := Option.some.inj (hw₁.symm.trans hw')
        rw [hcheck] at hfinish
        contradiction
    · obtain ⟨w₁, hw₁, hfollows⟩ := h.orderly.follows hw hmoves hwait hpc
      obtain rfl := Option.some.inj (hw₁.symm.trans hw')
      rcases hfollows.finish hfinish with hzero | hnonblock | hmissed
      · exact hzero
      · rw [← hfollows.nonblock, hblocking] at hnonblock
        contradiction
      · exact absurd hattended.hostInactive hmissed
  · rw [hroutine.frame.write]
    exact hattended.finish
  · rw [houtside.write]
    exact hattended.finish

end Returns

end JtagUart

end NiosHps.Board
