import NiosHps.Board.Handshake
import NiosHps.Foundation.Fairness

/-!
# Whether the handshake ends

The HPS takes five steps at most and the Nios waits for one value, so under a
schedule that runs both again and again the handshake comes to rest.  The Nios
has left its wait exactly if the second read of the HPS found the offset.  An
earlier read makes the HPS acknowledge something else, once and for all, and the
Nios waits for good.
-/

namespace NiosHps.Board

open NiosHps.Foundation

def HpsPc.Ended : HpsPc → Prop
  | .acknowledged _ _ | .failed => True
  | _ => False

def HpsPc.stepsLeft : HpsPc → Nat
  | .start => 4
  | .read _ => 3
  | .mapped _ => 2
  | .reread _ _ => 1
  | .acknowledged _ _ | .failed => 0

def NiosPc.HasPublished (pc : NiosPc) : Prop := pc ≠ .marker ∧ pc ≠ .offset

def NiosPc.stepsLeft : NiosPc → Nat
  | .marker => 4
  | .offset => 3
  | .wait => 2
  | .left => 1
  | .done => 0

namespace Handshake

section Ends

variable {off : SharedDataOffset} {s s' : Handshake}

/-! ## What an HPS that read the offset has seen -/

/-- An HPS whose second read is the offset read it after it was published. -/
structure Heard (off : SharedDataOffset) (s : Handshake) : Prop where
  reread : ∀ first, s.hps = .reread first off.value → s.nios.HasPublished
  acknowledged : ∀ first, s.hps = .acknowledged first off.value →
    s.nios.HasPublished ∧
      (s.nios = .wait → s.pio7Seg = handshakeValCalc off.value)

theorem Quiet.hasPublished (h : Quiet off s) (hoff : off.value ≠ 0)
    (hread : s.pio7Seg = off.value) : s.nios.HasPublished := by
  have hvalue := h.pio7Seg.symm.trans hread
  constructor
  · intro hmarker
    rw [hmarker] at hvalue
    exact hoff hvalue.symm
  · intro hoffset
    rw [hoffset] at hvalue
    exact marker_ne hvalue

theorem niosStep_hasPublished (h : s.nios.HasPublished)
    (hstep : s.niosStep off = some s') : s'.nios.HasPublished := by
  rcases niosStep_eq_some hstep with
    ⟨hmarker, -⟩ | ⟨hoffset, -⟩ | ⟨-, -, rfl⟩ | ⟨-, rfl⟩ | ⟨-, rfl⟩
  · exact absurd hmarker h.1
  · exact absurd hoffset h.2
  · exact ⟨by simp, by simp⟩
  · exact h
  · exact ⟨by simp, by simp⟩

theorem Heard.niosStep (h : Heard off s) (hstep : s.niosStep off = some s') :
    Heard off s' := by
  have hhps := niosStep_hps hstep
  refine ⟨fun first hreread => ?_, fun first hack => ?_⟩
  · rw [hhps] at hreread
    exact niosStep_hasPublished (h.reread first hreread) hstep
  · rw [hhps] at hack
    obtain ⟨hpublished, hwait⟩ := h.acknowledged first hack
    refine ⟨niosStep_hasPublished hpublished hstep, ?_⟩
    rcases niosStep_eq_some hstep with
      ⟨hmarker, -⟩ | ⟨hoffset, -⟩ | ⟨-, -, rfl⟩ | ⟨-, rfl⟩ | ⟨-, rfl⟩
    · exact absurd hmarker hpublished.1
    · exact absurd hoffset hpublished.2
    · exact nofun
    · exact hwait
    · exact nofun

theorem Heard.hpsStep (h : Heard off s) (hvalid : Valid off s)
    (hoff : off.value ≠ 0) (hstep : s.hpsStep = some s') : Heard off s' := by
  rcases hpsStep_eq_some hstep with
    ⟨-, rfl⟩ | ⟨first, -, -, rfl⟩ | ⟨first, -, rfl⟩ |
    ⟨first, hhps, rfl⟩ | ⟨first, second, hhps, rfl⟩
  · exact ⟨nofun, nofun⟩
  · exact ⟨nofun, nofun⟩
  · exact ⟨nofun, nofun⟩
  · have hquiet : Quiet off s := hvalid.quiet (by simp [hhps])
    refine ⟨fun first' hreread => ?_, nofun⟩
    simp only [HpsPc.reread.injEq] at hreread
    exact hquiet.hasPublished hoff hreread.2
  · refine ⟨nofun, fun first' hack => ?_⟩
    simp only [HpsPc.acknowledged.injEq] at hack
    obtain ⟨-, rfl⟩ := hack
    exact ⟨h.reread first hhps, fun _ => rfl⟩

/-! ## What the register can show -/

def Shown (off : SharedDataOffset) (s : Handshake) : Prop :=
  Written off s.pio7Seg ∨
    ∃ first second, s.hps = .acknowledged first second ∧
      s.pio7Seg = handshakeValCalc second

theorem Shown.niosStep (h : Shown off s) (hstep : s.niosStep off = some s') :
    Shown off s' := by
  rcases niosStep_eq_some hstep with
    ⟨-, rfl⟩ | ⟨-, rfl⟩ | ⟨-, -, rfl⟩ | ⟨-, rfl⟩ | ⟨-, rfl⟩
  · exact .inl (.inr (.inl rfl))
  · exact .inl (.inr (.inr rfl))
  · exact h
  · exact h
  · exact .inl (.inl rfl)

theorem Valid.shown_hpsStep (h : Valid off s) (hstep : s.hpsStep = some s') :
    Shown off s' := by
  rcases hpsStep_eq_some hstep with
    ⟨hhps, rfl⟩ | ⟨first, hhps, -, rfl⟩ | ⟨first, hhps, rfl⟩ |
    ⟨first, hhps, rfl⟩ | ⟨first, second, hhps, rfl⟩ <;>
    have hquiet : Quiet off s := h.quiet (by simp [hhps])
  · exact .inl hquiet.written
  · exact .inl hquiet.written
  · exact .inl hquiet.written
  · exact .inl hquiet.written
  · exact .inr ⟨first, second, rfl, rfl⟩

theorem Written.ne_calc {value : BitVec 24} (h : Written off value) :
    value ≠ handshakeValCalc off.value := by
  intro hcalc
  have hnat := congrArg BitVec.toNat hcalc
  have haligned := off.aligned
  rw [handshakeValCalc_toNat haligned] at hnat
  rcases h with rfl | rfl | rfl
  · rw [show (0 : BitVec 24).toNat = 0 from rfl] at hnat
    omega
  · rw [show handshakeMarker.toNat = 0xFAFAFA from rfl] at hnat
    omega
  · omega

/-- Nobody but an HPS that acknowledges the offset writes what the Nios waits for. -/
theorem Shown.acknowledged (h : Shown off s) (hvalid : Valid off s)
    (hread : s.pio7Seg = handshakeValCalc off.value) :
    ∃ first, s.hps = .acknowledged first off.value := by
  rcases h with hwritten | ⟨first, second, hhps, hcalc⟩
  · exact absurd hread hwritten.ne_calc
  · have hreads := hvalid.reads
    rw [hhps] at hreads
    have hsecond := hreads.2.eq_of_calc (hcalc.symm.trans hread)
    exact ⟨first, by rw [hhps, hsecond]⟩

structure Steady (off : SharedDataOffset) (s : Handshake) : Prop where
  valid : Valid off s
  heard : Heard off s
  shown : Shown off s

theorem steady_reset : Steady off reset :=
  ⟨valid_reset, ⟨nofun, nofun⟩, .inl (.inl rfl)⟩

theorem Steady.step {party : Party} (h : Steady off s) (hoff : off.value ≠ 0)
    (hstep : (handshake off).step s party = some s') : Steady off s' := by
  have hvalid := h.valid.step hstep
  cases party with
  | nios => exact ⟨hvalid, h.heard.niosStep hstep, h.shown.niosStep hstep⟩
  | hps =>
      exact ⟨hvalid, h.heard.hpsStep h.valid hoff hstep, h.valid.shown_hpsStep hstep⟩

theorem steady_behaviour (hoff : off.value ≠ 0) (schedule : Nat → Party) (n : Nat) :
    Steady off ((handshake off).behaviour schedule reset n) :=
  (System.stable_of_step fun _ _ _ h hstep => h.step hoff hstep).behaviour
    (n := 0) steady_reset (Nat.zero_le n)

/-! ## The HPS ends -/

theorem hpsStep_of_ended (h : s.hps.Ended) : s.hpsStep = none := by
  obtain ⟨pio7Seg, nios, hps⟩ := s
  cases hps with
  | acknowledged first second => rfl
  | failed => rfl
  | start => exact h.elim
  | read first => exact h.elim
  | mapped first => exact h.elim
  | reread first second => exact h.elim

theorem stable_acknowledged (first second : BitVec 24) :
    (handshake off).Stable fun s => s.hps = .acknowledged first second := by
  refine System.stable_of_step fun s party s' hhps hstep => ?_
  cases party with
  | nios => exact (niosStep_hps hstep).trans hhps
  | hps =>
      have hended : s.hps.Ended := by
        rw [hhps]
        trivial
      exact absurd ((hpsStep_of_ended hended).symm.trans hstep) (by simp)

theorem hpsStep_stepsLeft (h : ¬s.hps.Ended) :
    ∃ s', s.hpsStep = some s' ∧ s'.hps.stepsLeft < s.hps.stepsLeft := by
  obtain ⟨pio7Seg, nios, hps⟩ := s
  cases hps with
  | start => exact ⟨_, rfl, Nat.lt_succ_self 3⟩
  | read first =>
      by_cases hmap : mappable first
      · exact ⟨_, if_pos hmap, Nat.lt_succ_self 2⟩
      · exact ⟨_, if_neg hmap, by simp [HpsPc.stepsLeft]⟩
  | mapped first => exact ⟨_, rfl, Nat.lt_succ_self 1⟩
  | reread first second => exact ⟨_, rfl, Nat.lt_succ_self 0⟩
  | acknowledged first second => exact absurd trivial h
  | failed => exact absurd trivial h

theorem hps_ends (hoff : off.value ≠ 0) {schedule : Nat → Party}
    (hfair : System.FairTo schedule .hps) :
    System.LeadsTo ((handshake off).behaviour schedule reset) (Steady off)
      fun s => Steady off s ∧ s.hps.Ended := by
  apply System.LeadsTo.of_unless
  refine (System.leadsTo_of_rank (fun s => Steady off s ∧ ¬s.hps.Ended)
    (fun s => s.hps.stepsLeft) hfair ?_ ?_).mono
    (fun s h => ⟨h.1, fun hended => h.2 ⟨h.1, hended⟩⟩) (fun _ => id)
  · rintro s party s' hparty ⟨h, hrunning⟩ hstep
    cases party with
    | nios =>
        have hhps := niosStep_hps hstep
        exact .inr ⟨⟨h.step hoff hstep, by rwa [hhps]⟩, by rw [hhps]⟩
    | hps => exact absurd rfl hparty
  · rintro s ⟨h, hrunning⟩
    obtain ⟨s', hstep, hlower⟩ := hpsStep_stepsLeft hrunning
    have hstep' : (handshake off).step s .hps = some s' := hstep
    have h' := h.step hoff hstep'
    refine ⟨s', hstep', ?_⟩
    by_cases hended : s'.hps.Ended
    · exact .inl ⟨h', hended⟩
    · exact .inr ⟨⟨h', hended⟩, hlower⟩

/-! ## The Nios publishes, and then leaves or waits -/

theorem nios_publishes (hoff : off.value ≠ 0) {schedule : Nat → Party}
    (hfair : System.FairTo schedule .nios) :
    System.LeadsTo ((handshake off).behaviour schedule reset)
      (fun s => Steady off s ∧ s.hps.Ended)
      fun s => (Steady off s ∧ s.hps.Ended) ∧ s.nios.HasPublished := by
  apply System.LeadsTo.of_unless
  refine (System.leadsTo_of_rank
    (fun s => (Steady off s ∧ s.hps.Ended) ∧ ¬s.nios.HasPublished)
    (fun s => s.nios.stepsLeft) hfair ?_ ?_).mono
    (fun s h => ⟨h.1, fun hpublished => h.2 ⟨h.1, hpublished⟩⟩) (fun _ => id)
  · rintro s party s' hparty ⟨⟨h, hended⟩, -⟩ hstep
    cases party with
    | nios => exact absurd rfl hparty
    | hps =>
        have hnone : (handshake off).step s .hps = none := hpsStep_of_ended hended
        exact absurd (hnone.symm.trans hstep) (by simp)
  · rintro s ⟨⟨h, hended⟩, hwaits⟩
    have hcases : s.nios = .marker ∨ s.nios = .offset := by
      by_contra hneither
      exact hwaits ⟨fun hm => hneither (.inl hm), fun ho => hneither (.inr ho)⟩
    rcases hcases with hmarker | hoffset
    · have hstep : (handshake off).step s .nios =
          some { s with pio7Seg := handshakeMarker, nios := .offset } := by
        simp only [handshake, Handshake.step, Handshake.niosStep, hmarker]
      refine ⟨_, hstep, .inr ⟨⟨⟨h.step hoff hstep, hended⟩, fun hp => hp.2 rfl⟩,
        ?_⟩⟩
      simp [hmarker, NiosPc.stepsLeft]
    · have hstep : (handshake off).step s .nios =
          some { s with pio7Seg := off.value, nios := .wait } := by
        simp only [handshake, Handshake.step, Handshake.niosStep, hoffset]
      exact ⟨_, hstep, .inl ⟨⟨h.step hoff hstep, hended⟩, by simp, by simp⟩⟩

/-- The Nios is through, or it waits for a value that nobody writes any more. -/
def Over (off : SharedDataOffset) (s : Handshake) : Prop :=
  s.nios = .done ∨
    s.nios = .wait ∧ s.pio7Seg ≠ handshakeValCalc off.value

theorem nios_is_over (hoff : off.value ≠ 0) {schedule : Nat → Party}
    (hfair : System.FairTo schedule .nios) :
    System.LeadsTo ((handshake off).behaviour schedule reset)
      (fun s => (Steady off s ∧ s.hps.Ended) ∧ s.nios.HasPublished)
      fun s => (Steady off s ∧ s.hps.Ended) ∧ Over off s := by
  apply System.LeadsTo.of_unless
  refine (System.leadsTo_of_rank
    (fun s => ((Steady off s ∧ s.hps.Ended) ∧ s.nios.HasPublished) ∧ ¬Over off s)
    (fun s => s.nios.stepsLeft) hfair ?_ ?_).mono
    (fun s h => ⟨h.1, fun hover => h.2 ⟨h.1.1, hover⟩⟩) (fun _ => id)
  · rintro s party s' hparty ⟨⟨⟨h, hended⟩, -⟩, -⟩ hstep
    cases party with
    | nios => exact absurd rfl hparty
    | hps =>
        have hnone : (handshake off).step s .hps = none := hpsStep_of_ended hended
        exact absurd (hnone.symm.trans hstep) (by simp)
  · rintro s ⟨⟨⟨h, hended⟩, hpublished⟩, hover⟩
    cases hnios : s.nios with
    | marker => exact absurd hnios hpublished.1
    | offset => exact absurd hnios hpublished.2
    | wait =>
        have hread : s.pio7Seg = handshakeValCalc off.value := by
          by_contra hread
          exact hover (.inr ⟨hnios, hread⟩)
        have hstep : (handshake off).step s .nios =
            some { s with nios := .left } := by
          simp only [handshake, Handshake.step, Handshake.niosStep, hnios, hread,
            if_true]
        refine ⟨_, hstep, .inr ⟨⟨⟨⟨h.step hoff hstep, hended⟩, by simp, by simp⟩,
          ?_⟩, by simp [NiosPc.stepsLeft]⟩⟩
        rintro (hdone | ⟨hwait, -⟩)
        · exact absurd hdone (by simp)
        · exact absurd hwait (by simp)
    | left =>
        have hstep : (handshake off).step s .nios =
            some { s with pio7Seg := 0, nios := .done } := by
          simp only [handshake, Handshake.step, Handshake.niosStep, hnios]
        exact ⟨_, hstep, .inl ⟨⟨h.step hoff hstep, hended⟩, .inl rfl⟩⟩
    | done => exact absurd (.inl hnios) hover

/-! ## The state it comes to -/

theorem attempt_of_over (hended : s.hps.Ended) (hover : Over off s)
    (party : Party) : (handshake off).attempt s party = s := by
  cases party with
  | hps => exact System.attempt_of_none (hpsStep_of_ended hended)
  | nios =>
      rcases hover with hdone | ⟨hwait, hread⟩
      · apply System.attempt_of_none
        simp only [handshake, Handshake.step, Handshake.niosStep, hdone]
      · apply System.attempt_of_step
        simp only [handshake, Handshake.step, Handshake.niosStep, hwait, if_neg hread]

theorem Steady.done_iff (h : Steady off s) (hover : Over off s) :
    s.nios = .done ↔ ∃ first, s.hps = .acknowledged first off.value := by
  constructor
  · intro hdone
    by_cases hnot : ∀ first second, s.hps ≠ .acknowledged first second
    · exact absurd (.inr hdone) (h.valid.quiet hnot).waiting
    · push Not at hnot
      obtain ⟨first, second, hhps⟩ := hnot
      have hreads := h.valid.reads
      rw [hhps] at hreads
      have hcalc := (h.valid.answered first second hhps).left (.inr hdone)
      exact ⟨first, by rw [hhps, hreads.2.eq_of_calc hcalc]⟩
  · rintro ⟨first, hhps⟩
    rcases hover with hdone | ⟨hwait, hread⟩
    · exact hdone
    · exact absurd ((h.heard.acknowledged first hhps).2 hwait) hread

end Ends

/--
Under every schedule that is fair to both parties the handshake comes to rest.
If the second read of the HPS was the offset the Nios is through, otherwise it
waits for good, and the register shows in no slot what it waits for.
-/
theorem handshake_comes_to_rest (off : SharedDataOffset) (hoff : off.value ≠ 0)
    (schedule : Nat → Party)
    (hfair : ∀ party, System.FairTo schedule party) :
    ∃ n s, (∀ m, n ≤ m → (handshake off).behaviour schedule reset m = s) ∧
      s.hps.Ended ∧
      ((∃ first, s.hps = .acknowledged first off.value) → s.nios = .done) ∧
      ((∀ first, s.hps ≠ .acknowledged first off.value) →
        s.nios = .wait ∧
        ∀ m, ((handshake off).behaviour schedule reset m).pio7Seg ≠
          handshakeValCalc off.value) := by
  have hrest : System.LeadsTo ((handshake off).behaviour schedule reset)
      (Steady off) fun s => (Steady off s ∧ s.hps.Ended) ∧ Over off s :=
    ((hps_ends hoff (hfair .hps)).trans (nios_publishes hoff (hfair .nios))).trans
      (nios_is_over hoff (hfair .nios))
  obtain ⟨n, -, ⟨h, hended⟩, hover⟩ := hrest 0 steady_reset
  have hstays : ∀ m, n ≤ m → (handshake off).behaviour schedule reset m =
      (handshake off).behaviour schedule reset n := fun m hle =>
    System.behaviour_of_fixed (attempt_of_over hended hover) hle
  refine ⟨n, _, hstays, hended, (h.done_iff hover).mpr, fun hnot => ⟨?_, ?_⟩⟩
  · have hwait := hover.resolve_left fun hdone => by
      obtain ⟨first, hhps⟩ := (h.done_iff hover).mp hdone
      exact hnot first hhps
    exact hwait.1
  · intro m hread
    have hsteady := steady_behaviour hoff schedule m
    obtain ⟨first, hhps⟩ := hsteady.shown.acknowledged hsteady.valid hread
    have hlater := (stable_acknowledged first off.value).behaviour hhps
      (le_max_left m n)
    rw [hstays _ (le_max_right m n)] at hlater
    exact hnot first hlater

theorem handshake_comes_to_rest_turns :
    ∃ n s, (handshake secondPage).behaviour
        (fun n => if n % 2 = 0 then .hps else .nios) reset n = s ∧
      s.hps.Ended := by
  obtain ⟨n, s, hstays, hended, -⟩ := handshake_comes_to_rest secondPage
    (by decide) (fun n => if n % 2 = 0 then .hps else .nios) (by
      intro party n
      cases party with
      | hps => exact ⟨2 * n, by omega, if_pos (by omega)⟩
      | nios => exact ⟨2 * n + 1, by omega, if_neg (by omega)⟩)
  exact ⟨n, s, hstays n le_rfl, hended⟩

end Handshake

end NiosHps.Board
