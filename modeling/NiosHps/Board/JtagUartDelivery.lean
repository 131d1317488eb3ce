import NiosHps.Board.JtagUartWork
import NiosHps.Foundation.Fairness

/-!
# What is printed arrives

A host that reads again and again gets every byte that a call has accepted.  A
byte may wait for the host, for the routine, or for the call that has put it into
the ring and has not set the enable bit yet; the routine comes in between, but
has only so much work before the program must go on.
-/

namespace NiosHps.Board

open NiosHps.Foundation

def Write.rank (w : Write) : Nat :=
  match w.pc with
  | .hostCheck => 3 + 4 * w.count
  | .copy => 2 + 4 * w.count
  | .txOut _ => 1 + 4 * w.count
  | .memcpy _ n done => n - done + 3 + 4 * (w.count - n)
  | .kick => 1
  | .wait | .finish => 0

/-- The same call, nearer to its end; `inactive` is whether it missed the host. -/
structure Write.Follows (w w' : Write) (inactive : Prop) : Prop where
  text : w'.text = w.text
  nonblock : w'.nonblock = w.nonblock
  rank : w'.rank < w.rank
  count : w'.count ≤ w.count
  beforeKick : w.pc.BeforeKick → w.pc ≠ .kick → w'.pc.BeforeKick
  finish : w'.pc = .finish → w'.count = 0 ∨ w.nonblock = true ∨ inactive

namespace JtagUart

section Delivery

variable {core : JtagUartCore} {s u u' : JtagUart} {schedule : Nat → UartEvent}

/-! ## The program gets its turn -/

def callRank (u : JtagUart) : Nat :=
  match u.write with
  | none => 0
  | some w => w.rank

def Other (core : JtagUartCore) (u u' : JtagUart) : Prop :=
  u.RoutineStep core u' ∨ u.Outside core u'

theorem Other.write (h : u.Other core u') : u'.write = u.write :=
  h.elim (fun h => h.frame.write) fun h => h.write

/-- The routine comes in between, but only until its work is done. -/
theorem leadsTo_of_program (hs : core.Sensible)
    (hprogram : System.FairTo schedule .program)
    (hirq : System.FairTo schedule .irq) {Q : JtagUart → Prop}
    (R : JtagUart → Write → Prop)
    (hothers : ∀ u u' w, u.Sound → u'.Sound → u.write = some w → R u w →
      u.Other core u' → Q u' ∨ R u' w)
    (hmoves : ∀ u u' w, u.Sound → u'.Sound → u.write = some w → R u w →
      u.programStep w = some u' →
      Q u' ∨ ∃ w', u'.write = some w' ∧ R u' w' ∧ w'.rank < w.rank) :
    System.LeadsTo ((jtagUart core).behaviour schedule s)
      (fun u => u.Sound ∧ ∃ w, u.write = some w ∧ R u w) Q := by
  have hturn (u u' : JtagUart) (h : u.Sound) (hw : ∃ w, u.write = some w ∧ R u w)
      (hidle : u.irq = .idle) (hstep : u.step core .program = some u') :
      Q u' ∨ (u'.Sound ∧ ∃ w, u'.write = some w ∧ R u' w) ∧
        u'.callRank * 100000 + u'.work core < u.callRank * 100000 + u.work core := by
    obtain ⟨w, hwrite, hR⟩ := hw
    have h' := h.step hs hstep
    simp only [JtagUart.step, if_pos hidle, hwrite, Option.bind_some] at hstep
    refine (hmoves u u' w h h' hwrite hR hstep).imp_right ?_
    rintro ⟨w', hwrite', hR', hlower⟩
    have hwork := h'.orderly.work_lt core
    refine ⟨⟨h', w', hwrite', hR'⟩, ?_⟩
    simp only [callRank, hwrite, hwrite']
    omega
  have hother (u u' : JtagUart) (h : u.Sound) (h' : u'.Sound)
      (hw : ∃ w, u.write = some w ∧ R u w) (hstep : u.Other core u') :
      Q u' ∨ (u'.Sound ∧ ∃ w, u'.write = some w ∧ R u' w) ∧
        u'.callRank = u.callRank := by
    obtain ⟨w, hwrite, hR⟩ := hw
    have hsame := hstep.write
    refine (hothers u u' w h h' hwrite hR hstep).imp_right fun hR' => ?_
    refine ⟨⟨h', w, hsame.trans hwrite, hR'⟩, ?_⟩
    simp only [callRank, hsame]
  refine System.leadsTo_of_helpful _
    (fun u => u.callRank * 100000 + u.work core)
    (fun u => if u.irq = .idle then .program else .irq) ?_ ?_ ?_
  · intro u _
    split_ifs
    · exact hprogram
    · exact hirq
  · rintro u e u' ⟨h, hw⟩ hstep
    have h' := h.step hs hstep
    obtain ⟨-, hnone, -⟩ | ⟨rfl, hidle, -⟩ | ⟨rfl, hroutine⟩ | houtside :=
      h.step_cases hs hstep
    · obtain ⟨w, hwrite, -⟩ := hw
      exact absurd (hnone.symm.trans hwrite) (by simp)
    · exact (hturn u u' h hw hidle hstep).imp_right fun hnext => ⟨hnext.1, .inl hnext.2⟩
    · refine (hother u u' h h' hw (.inl hroutine)).imp_right fun hnext =>
        ⟨hnext.1, .inl ?_⟩
      have hlower := hroutine.work_lt
      simp only [hnext.2]
      omega
    · refine (hother u u' h h' hw (.inr houtside)).imp_right fun hnext =>
        ⟨hnext.1, ?_⟩
      rcases Nat.lt_or_eq_of_le houtside.work with hlower | hsame
      · exact .inl (by simp only [hnext.2]; omega)
      · exact .inr ⟨by simp only [hnext.2, hsame], by simp only [houtside.irq]⟩
  · rintro u ⟨h, hw⟩
    by_cases hidle : u.irq = .idle
    · obtain ⟨w, hwrite, hR⟩ := hw
      obtain ⟨u', hu', -⟩ := h.orderly.programStep hwrite
      have hstep : u.step core .program = some u' := by
        simp only [JtagUart.step, if_pos hidle, hwrite, Option.bind_some, hu']
      refine ⟨u', by rw [if_pos hidle]; exact hstep, ?_⟩
      exact hturn u u' h ⟨w, hwrite, hR⟩ hidle hstep
    · obtain ⟨u', hstep⟩ : ∃ u', u.irqStep core = some u' :=
        irqStep_of_running (.inl hidle)
      have hroutine := h.orderly.routineStep h.justified hs hstep
      refine ⟨u', by rw [if_neg hidle]; exact hstep, ?_⟩
      refine (hother u u' h (h.step (e := .irq) hs hstep) hw (.inl hroutine)).imp_right
        fun hnext => ⟨hnext.1, ?_⟩
      have hlower := hroutine.work_lt
      simp only [hnext.2]
      omega

theorem Orderly.follows {w : Write} (h : u.Orderly) (hw : u.write = some w)
    (hstep : u.programStep w = some u') (hwait : w.pc ≠ .wait)
    (hfinish : w.pc ≠ .finish) :
    ∃ w', u'.write = some w' ∧ w.Follows w' (u.hostInactive ≠ 0) := by
  have hplace := (h.write w hw).place
  unfold Write.At at hplace
  unfold JtagUart.programStep at hstep
  cases hpc : w.pc with
  | wait => exact absurd hpc hwait
  | finish => exact absurd hpc hfinish
  | copy =>
      rw [hpc] at hstep
      dsimp only at hstep
      split_ifs at hstep with hcount
      · cases hstep
        refine ⟨_, rfl, rfl, rfl, ?_, le_rfl, fun _ _ => trivial, by simp⟩
        simp only [Write.rank, Write.count, hpc]
        omega
      · cases hstep
        refine ⟨_, rfl, rfl, rfl, ?_, le_rfl, fun _ _ => trivial, by simp⟩
        simp only [Write.rank, hpc]
        omega
  | txOut txIn =>
      rw [hpc] at hstep hplace
      obtain ⟨-, hcount⟩ := hplace
      dsimp only at hstep
      split_ifs at hstep with hroom
      · cases hstep
        refine ⟨_, rfl, rfl, rfl, ?_, le_rfl, fun _ _ => trivial, by simp⟩
        simp only [Write.rank, hpc]
        omega
      · cases hstep
        refine ⟨_, rfl, rfl, rfl, ?_, le_rfl, fun _ _ => trivial, by simp⟩
        simp only [Write.rank, Write.count, hpc] at hcount ⊢
        omega
  | memcpy txIn n done =>
      rw [hpc] at hstep hplace
      obtain ⟨-, -, hn, -⟩ := hplace
      dsimp only at hstep
      split_ifs at hstep with hdone
      · obtain ⟨byte, -, rfl⟩ := Option.map_eq_some_iff.mp hstep
        refine ⟨_, rfl, rfl, rfl, ?_, le_rfl, fun _ _ => trivial, by simp⟩
        simp only [Write.rank, Write.count, hpc]
        omega
      · cases hstep
        refine ⟨_, rfl, rfl, rfl, ?_, ?_, fun _ _ => trivial, by simp⟩
        · simp only [Write.rank, Write.count, hpc] at hn ⊢
          omega
        · simp only [Write.count]
          omega
  | kick =>
      rw [hpc] at hstep
      cases hstep
      refine ⟨_, rfl, rfl, rfl, ?_, le_rfl, fun _ hkick => absurd hpc hkick,
        fun hend => ?_⟩
      · simp only [Write.rank, hpc]
        split_ifs <;> simp
      · dsimp only at hend
        split_ifs at hend with hcount hnonblock
        · exact .inl hcount
        · exact .inr (.inl hnonblock)
  | hostCheck =>
      have hafter : ¬w.pc.BeforeKick := by
        rw [hpc]
        exact id
      rw [hpc] at hstep
      dsimp only at hstep
      split_ifs at hstep with hinactive
      · cases hstep
        refine ⟨_, rfl, rfl, rfl, ?_, le_rfl, fun hbefore => absurd hbefore hafter,
          fun _ => .inr (.inr hinactive)⟩
        simp only [Write.rank, hpc]
        omega
      · cases hstep
        refine ⟨_, rfl, rfl, rfl, ?_, le_rfl, fun hbefore => absurd hbefore hafter,
          by simp⟩
        simp only [Write.rank, Write.count, hpc]
        omega

/-! ## Bytes on their way -/

theorem accepted_congr (hwrite : u'.write = u.write)
    (hreturned : u'.returned = u.returned) : u'.accepted = u.accepted := by
  simp only [accepted, hwrite, hreturned]

theorem accepted_programStep {w : Write} (hw : u.write = some w)
    (hstep : u.programStep w = some u') : u.accepted <+: u'.accepted := by
  rw [accepted_of_write hw]
  unfold JtagUart.programStep at hstep
  cases hpc : w.pc with
  | memcpy txIn n done =>
      rw [hpc] at hstep
      dsimp only at hstep
      split_ifs at hstep
      · obtain ⟨byte, -, rfl⟩ := Option.map_eq_some_iff.mp hstep
        exact List.prefix_refl _
      · cases hstep
        refine (List.prefix_append_right_inj _).mpr ?_
        exact List.take_prefix_take_left (Nat.le_add_right w.written n)
  | wait =>
      rw [hpc] at hstep
      dsimp only at hstep
      split_ifs at hstep
      · cases hstep
        simp only [accepted_of_write hw, List.prefix_rfl]
      · cases hstep
        exact List.prefix_refl _
  | finish =>
      rw [hpc] at hstep
      cases hstep
      simp only [accepted, List.flatMap_append, List.flatMap_singleton,
        reported_result, List.append_nil]
      exact List.prefix_refl _
  | _ =>
      rw [hpc] at hstep
      dsimp only at hstep
      try split_ifs at hstep
      all_goals
        cases hstep
        exact List.prefix_refl _

theorem Sound.accepted_prefix {e : UartEvent} (h : u.Sound) (hs : core.Sensible)
    (hstep : u.step core e = some u') : u.accepted <+: u'.accepted := by
  obtain ⟨-, hnone, text, nonblock, rfl⟩ | ⟨-, -, w, hw, hmoves⟩ | ⟨-, hroutine⟩ |
    houtside := h.step_cases hs hstep
  · have hsame : (u.setWrite (.begin text nonblock)).accepted = u.accepted := by
      simp [accepted, setWrite, hnone, Write.begin, Write.accepted]
    simp only [hsame, List.prefix_rfl]
  · exact accepted_programStep hw hmoves
  · have hsame := accepted_congr hroutine.frame.write hroutine.frame.returned
    simp only [hsame, List.prefix_rfl]
  · have hsame := accepted_congr houtside.write houtside.returned
    simp only [hsame, List.prefix_rfl]

/-- `r` bytes have arrived, and the calls have accepted more. -/
structure Underway (r : Nat) (u : JtagUart) : Prop where
  sound : u.Sound
  taken : u.taken.length = r
  more : r < u.accepted.length

theorem Underway.next {r : Nat} {e : UartEvent} (h : u.Underway r)
    (hs : core.Sensible) (hstep : u.step core e = some u')
    (htaken : u'.taken = u.taken) : u'.Underway r where
  sound := h.sound.step hs hstep
  taken := by rw [htaken, h.taken]
  more := h.more.trans_le (h.sound.accepted_prefix hs hstep).length_le

theorem Underway.busy {r : Nat} (h : u.Underway r) (hfifo : u.writeFifo = []) :
    u.tx.first ≠ u.tx.next := by
  intro hempty
  have hsent := congrArg List.length h.sound.orderly.sent
  have htaken := h.taken
  have hmore := h.more
  rw [hfifo, RingBuffer.contents_eq_nil.mpr hempty] at hsent
  simp only [List.append_nil] at hsent
  omega

theorem Outside.taken_or_same (h : u.Outside core u') :
    u.taken.length < u'.taken.length ∨
      u'.taken = u.taken ∧ u'.writeFifo = u.writeFifo := by
  refine (Nat.lt_or_eq_of_le h.takes).imp_right fun hlength => ?_
  exact List.append_inj h.bytes hlength.symm

theorem hostReads_leadsTo (hs : core.Sensible)
    (hhost : System.FairTo schedule .hostReads) (r : Nat) :
    System.LeadsTo ((jtagUart core).behaviour schedule s)
      (fun u => u.Underway r ∧ u.writeFifo ≠ []) fun u => r < u.taken.length := by
  refine System.leadsTo_of_rank _ (fun _ => 0) hhost ?_ ?_
  · rintro u e u' - ⟨h, hfifo⟩ hstep
    obtain ⟨-, -, text, nonblock, rfl⟩ | ⟨-, -, w, hw, hmoves⟩ | ⟨-, hroutine⟩ |
      houtside := h.sound.step_cases hs hstep
    · exact .inr ⟨⟨h.next hs hstep rfl, hfifo⟩, le_rfl⟩
    · have hframe := h.sound.orderly.programFrame hmoves
      refine .inr ⟨⟨h.next hs hstep hframe.taken, ?_⟩, le_rfl⟩
      rw [hframe.writeFifo]
      exact hfifo
    · refine .inr ⟨⟨h.next hs hstep hroutine.frame.taken, ?_⟩, le_rfl⟩
      rcases hroutine.progress with hsends | hadvances
      · rw [hsends.writeFifo]
        simp
      · rw [hadvances.writeFifo]
        exact hfifo
    · refine houtside.taken_or_same.imp (fun htakes => ?_) fun ⟨htaken, hsame⟩ => ?_
      · rw [← h.taken]
        exact htakes
      · exact ⟨⟨h.next hs hstep htaken, by rw [hsame]; exact hfifo⟩, le_rfl⟩
  · rintro u ⟨h, hfifo⟩
    cases hbytes : u.writeFifo with
    | nil => exact absurd hbytes hfifo
    | cons byte rest =>
        have hstep : u.step core .hostReads = some
            { u with writeFifo := rest, taken := u.taken ++ [byte], ac := true } := by
          simp only [JtagUart.step, hbytes]
        refine ⟨_, hstep, .inl ?_⟩
        rw [← h.taken]
        simp

theorem Outside.same_of_empty (h : u.Outside core u') (hfifo : u.writeFifo = []) :
    u'.taken = u.taken ∧ u'.writeFifo = [] := by
  rcases h.taken_or_same with htakes | ⟨htaken, hsame⟩
  · have hbytes := congrArg List.length h.bytes
    rw [hfifo] at hbytes
    simp only [List.length_append, List.length_nil] at hbytes
    omega
  · exact ⟨htaken, hsame.trans hfifo⟩

theorem ProgramFrame.routineWork (h : u.ProgramFrame u')
    (hwe : u.control.we = true) : u'.routineWork core = u.routineWork core := by
  simp only [JtagUart.routineWork, budget, asks, ri, wi, h.irq, h.rx, h.readFifo,
    h.writeFifo, h.re, hwe, h.we hwe]

theorem irq_leadsTo (hs : core.Sensible) (hirq : System.FairTo schedule .irq)
    (r : Nat) :
    System.LeadsTo ((jtagUart core).behaviour schedule s)
      (fun u => u.Underway r ∧ u.writeFifo = [] ∧ u.control.we = true)
      fun u => u.Underway r ∧ u.writeFifo ≠ [] := by
  refine System.leadsTo_of_rank _ (routineWork core) hirq ?_ ?_
  · rintro u e u' he ⟨h, hfifo, hwe⟩ hstep
    obtain ⟨-, -, text, nonblock, rfl⟩ | ⟨-, -, w, hw, hmoves⟩ | ⟨rfl, -⟩ |
      houtside := h.sound.step_cases hs hstep
    · exact .inr ⟨⟨h.next hs hstep rfl, hfifo, hwe⟩, le_rfl⟩
    · have hframe := h.sound.orderly.programFrame hmoves
      exact .inr ⟨⟨h.next hs hstep hframe.taken, hframe.writeFifo.trans hfifo,
        hframe.we hwe⟩, (hframe.routineWork hwe).le⟩
    · exact absurd rfl he
    · obtain ⟨htaken, hempty⟩ := houtside.same_of_empty hfifo
      exact .inr ⟨⟨h.next hs hstep htaken, hempty, houtside.we.trans hwe⟩,
        houtside.routineWork (hempty.trans hfifo.symm)⟩
  · rintro u ⟨h, hfifo, hwe⟩
    have hasks : u.asks core = true := by
      rw [asks, wi, hwe, hfifo, hs.empty]
      simp
    obtain ⟨u', hstep⟩ := irqStep_of_running (.inr hasks)
    have hroutine := h.sound.orderly.routineStep h.sound.justified hs hstep
    have hnext := h.next (e := .irq) hs hstep hroutine.frame.taken
    refine ⟨u', hstep, hroutine.progress.imp (fun hsends => ?_) fun hadvances => ?_⟩
    · refine ⟨hnext, ?_⟩
      rw [hsends.writeFifo]
      simp
    · exact ⟨⟨hnext, hadvances.writeFifo.trans hfifo,
        (hadvances.we (h.busy hfifo)).trans hwe⟩, hadvances.lower⟩

theorem kick_leadsTo (hs : core.Sensible)
    (hprogram : System.FairTo schedule .program)
    (hirq : System.FairTo schedule .irq) (r : Nat) :
    System.LeadsTo ((jtagUart core).behaviour schedule s)
      (fun u => u.Underway r ∧ u.writeFifo = [] ∧ u.control.we ≠ true)
      fun u => u.Underway r ∧ (u.writeFifo ≠ [] ∨ u.control.we = true) := by
  have hturn := leadsTo_of_program (s := s) hs hprogram hirq
    (Q := fun u => u.Underway r ∧ (u.writeFifo ≠ [] ∨ u.control.we = true))
    (fun u w => u.Underway r ∧ u.writeFifo = [] ∧ w.pc.BeforeKick) ?_ ?_
  · refine hturn.mono (fun u ⟨h, hfifo, hwe⟩ => ?_) fun _ => id
    obtain ⟨w, hw, hbefore⟩ :=
      (h.sound.orderly.wakes (h.busy hfifo)).resolve_left hwe
    exact ⟨h.sound, w, hw, h, hfifo, hbefore⟩
  · rintro u u' w - h' hw ⟨h, hfifo, hbefore⟩ hother
    rcases hother with hroutine | houtside
    · have hnext : u'.Underway r := ⟨h', hroutine.frame.taken ▸ h.taken, by
        rw [accepted_congr hroutine.frame.write hroutine.frame.returned]
        exact h.more⟩
      rcases hroutine.progress with hsends | hadvances
      · refine .inl ⟨hnext, .inl ?_⟩
        rw [hsends.writeFifo]
        simp
      · exact .inr ⟨hnext, hadvances.writeFifo.trans hfifo, hbefore⟩
    · obtain ⟨htaken, hempty⟩ := houtside.same_of_empty hfifo
      refine .inr ⟨⟨h', htaken ▸ h.taken, ?_⟩, hempty, hbefore⟩
      rw [accepted_congr houtside.write houtside.returned]
      exact h.more
  · rintro u u' w hsound h' hw ⟨h, hfifo, hbefore⟩ hmoves
    have hframe := hsound.orderly.programFrame hmoves
    have hnext : u'.Underway r := ⟨h', hframe.taken ▸ h.taken,
      h.more.trans_le (accepted_programStep hw hmoves).length_le⟩
    by_cases hkick : w.pc = .kick
    · refine .inl ⟨hnext, .inr ?_⟩
      unfold JtagUart.programStep at hmoves
      rw [hkick] at hmoves
      cases hmoves
      rfl
    · obtain ⟨w', hw', hfollows⟩ := hsound.orderly.follows hw hmoves
        (fun hwait => by rw [hwait] at hbefore; exact hbefore)
        (fun hfinish => by rw [hfinish] at hbefore; exact hbefore)
      exact .inr ⟨w', hw', ⟨hnext, hframe.writeFifo.trans hfifo,
        hfollows.beforeKick hbefore hkick⟩, hfollows.rank⟩

theorem underway_leadsTo (hs : core.Sensible)
    (hprogram : System.FairTo schedule .program)
    (hirq : System.FairTo schedule .irq)
    (hhost : System.FairTo schedule .hostReads) (r : Nat) :
    System.LeadsTo ((jtagUart core).behaviour schedule s) (Underway r)
      fun u => r < u.taken.length := by
  have hreads := hostReads_leadsTo (s := s) hs hhost r
  have hsends := (irq_leadsTo (s := s) hs hirq r).trans hreads
  intro n h
  by_cases hfifo : (((jtagUart core).behaviour schedule s) n).writeFifo = []
  · by_cases hwe : (((jtagUart core).behaviour schedule s) n).control.we = true
    · exact hsends n ⟨h, hfifo, hwe⟩
    · obtain ⟨m, hnm, hm, hnext⟩ :=
        kick_leadsTo (s := s) hs hprogram hirq r n ⟨h, hfifo, hwe⟩
      by_cases hempty : (((jtagUart core).behaviour schedule s) m).writeFifo = []
      · have hset := hnext.resolve_left (not_not.mpr hempty)
        obtain ⟨k, hmk, hk⟩ := hsends m ⟨hm, hempty, hset⟩
        exact ⟨k, hnm.trans hmk, hk⟩
      · obtain ⟨k, hmk, hk⟩ := hreads m ⟨hm, hempty⟩
        exact ⟨k, hnm.trans hmk, hk⟩
  · exact hreads n ⟨h, hfifo⟩

theorem arrives (hs : core.Sensible) (hprogram : System.FairTo schedule .program)
    (hirq : System.FairTo schedule .irq)
    (hhost : System.FairTo schedule .hostReads) (h : s.Sound) (n k : Nat)
    (hk : k ≤ ((jtagUart core).behaviour schedule s n).accepted.length) :
    ∃ m, n ≤ m ∧ k ≤ ((jtagUart core).behaviour schedule s m).taken.length := by
  induction k with
  | zero => exact ⟨n, le_rfl, Nat.zero_le _⟩
  | succ k ih =>
      obtain ⟨m, hnm, hm⟩ := ih (by omega)
      by_cases hmore : k < ((jtagUart core).behaviour schedule s m).taken.length
      · exact ⟨m, hnm, hmore⟩
      have hstable : (jtagUart core).Stable fun u =>
          u.Sound ∧ k + 1 ≤ u.accepted.length :=
        System.stable_of_step fun u e u' ⟨h, hle⟩ hstep =>
          ⟨h.step hs hstep, hle.trans (h.accepted_prefix hs hstep).length_le⟩
      have hsound : (jtagUart core).Stable Sound :=
        System.stable_of_step fun _ _ _ h hstep => h.step hs hstep
      have hn : Sound ((jtagUart core).behaviour schedule s n) :=
        hsound.behaviour (n := 0) h (Nat.zero_le n)
      have hlater := hstable.behaviour ⟨hn, hk⟩ hnm
      obtain ⟨l, hml, hl⟩ := underway_leadsTo hs hprogram hirq hhost k m
        ⟨hlater.1, by omega, hlater.2⟩
      exact ⟨l, hnm.trans hml, hl⟩

end Delivery

end JtagUart

end NiosHps.Board
