import NiosHps.Foundation.System
import Mathlib.Data.Nat.Bitwise

/-!
# The handshake over the display register

The Nios passes the offset of the shared data through the 24-bit register of
the seven-segment display and waits for it to come back acknowledged.  The HPS
reads the register twice: the first value is the offset that it maps, the second
the one that it acknowledges.

Both agree unless the offset is published between the two reads.  A first read
of the marker cannot be mapped, but one of the reset value can.
-/

namespace NiosHps.Board

open NiosHps.Foundation

def magicHandshakeMask : BitVec 24 := 0x420

def handshakeValCalc (offset : BitVec 24) : BitVec 24 :=
  offset ||| magicHandshakeMask

def hps2fpgaBridgeBase : Nat := 0xC0000000

def handshakeMarker : BitVec 24 := 0xFAFAFA

/-- `shared_data` is aligned to a page of 4 KiB. -/
structure SharedDataOffset where
  value : BitVec 24
  aligned : value.toNat % 0x1000 = 0

inductive NiosPc where
  | marker
  | offset
  | wait
  | left
  | done
  deriving DecidableEq, Repr

inductive HpsPc where
  | start
  | read (first : BitVec 24)
  | mapped (first : BitVec 24)
  | reread (first second : BitVec 24)
  | acknowledged (first second : BitVec 24)
  | failed
  deriving DecidableEq, Repr

structure Handshake where
  pio7Seg : BitVec 24
  nios : NiosPc
  hps : HpsPc
  deriving DecidableEq, Repr

inductive Party where
  | nios
  | hps
  deriving DecidableEq, Repr

namespace Handshake

def reset : Handshake where
  pio7Seg := 0
  nios := .marker
  hps := .start

def niosStep (off : SharedDataOffset) (s : Handshake) : Option Handshake :=
  match s.nios with
  | .marker => some { s with pio7Seg := handshakeMarker, nios := .offset }
  | .offset => some { s with pio7Seg := off.value, nios := .wait }
  | .wait =>
      if s.pio7Seg = handshakeValCalc off.value then some { s with nios := .left }
      else some s
  | .left => some { s with pio7Seg := 0, nios := .done }
  | .done => none

def sharedDataBase (value : BitVec 24) : Nat := hps2fpgaBridgeBase + value.toNat

/-- `mmap` refuses a base inside a page. -/
def mappable (value : BitVec 24) : Prop := sharedDataBase value % 0x1000 = 0

instance (value : BitVec 24) : Decidable (mappable value) :=
  inferInstanceAs (Decidable (_ = _))

def hpsStep (s : Handshake) : Option Handshake :=
  match s.hps with
  | .start => some { s with hps := .read s.pio7Seg }
  | .read first =>
      if mappable first then some { s with hps := .mapped first }
      else some { s with hps := .failed }
  | .mapped first => some { s with hps := .reread first s.pio7Seg }
  | .reread first second =>
      some
        { s with
          pio7Seg := handshakeValCalc second
          hps := .acknowledged first second }
  | .acknowledged _ _ => none
  | .failed => none

def step (off : SharedDataOffset) (s : Handshake) : Party → Option Handshake
  | .nios => s.niosStep off
  | .hps => s.hpsStep

end Handshake

def HpsPc.mappedBase : HpsPc → Option Nat
  | .mapped first => some (Handshake.sharedDataBase first)
  | .reread first _ => some (Handshake.sharedDataBase first)
  | .acknowledged first _ => some (Handshake.sharedDataBase first)
  | _ => none

def NiosPc.HasLeft (pc : NiosPc) : Prop := pc = .left ∨ pc = .done

instance (pc : NiosPc) : Decidable pc.HasLeft :=
  inferInstanceAs (Decidable (_ ∨ _))

def handshake (off : SharedDataOffset) : System Handshake Party where
  init s := s = .reset
  step s := s.step off

namespace Handshake

def Agrees (off : SharedDataOffset) (s : Handshake) : Prop :=
  s.nios.HasLeft → s.hps.mappedBase = some (hps2fpgaBridgeBase + off.value.toNat)

/-- The offset was published between the two reads of the HPS. -/
def ReadsAcross (off : SharedDataOffset) (s : Handshake) (party : Party) : Prop :=
  party = .hps ∧ s.hps = .mapped 0 ∧ s.pio7Seg = off.value ∧ off.value ≠ 0

instance (off : SharedDataOffset) (s : Handshake) (party : Party) :
    Decidable (ReadsAcross off s party) :=
  inferInstanceAs (Decidable (_ ∧ _ ∧ _ ∧ _))

/-! ## What a party can do -/

section Steps

variable {off : SharedDataOffset} {s s' : Handshake}

theorem niosStep_eq_some (hstep : s.niosStep off = some s') :
    (s.nios = .marker ∧
      s' = { s with pio7Seg := handshakeMarker, nios := .offset }) ∨
    (s.nios = .offset ∧ s' = { s with pio7Seg := off.value, nios := .wait }) ∨
    (s.nios = .wait ∧ s.pio7Seg = handshakeValCalc off.value ∧
      s' = { s with nios := .left }) ∨
    (s.nios = .wait ∧ s' = s) ∨
    (s.nios = .left ∧ s' = { s with pio7Seg := 0, nios := .done }) := by
  unfold niosStep at hstep
  cases hnios : s.nios with
  | wait =>
      simp only [hnios] at hstep
      split_ifs at hstep with hread
      · simp_all
      · simp_all
  | _ => simp_all

theorem hpsStep_eq_some (hstep : s.hpsStep = some s') :
    (s.hps = .start ∧ s' = { s with hps := .read s.pio7Seg }) ∨
    (∃ first, s.hps = .read first ∧ mappable first ∧
      s' = { s with hps := .mapped first }) ∨
    (∃ first, s.hps = .read first ∧ s' = { s with hps := .failed }) ∨
    (∃ first, s.hps = .mapped first ∧
      s' = { s with hps := .reread first s.pio7Seg }) ∨
    (∃ first second, s.hps = .reread first second ∧
      s' = { s with
        pio7Seg := handshakeValCalc second
        hps := .acknowledged first second }) := by
  unfold hpsStep at hstep
  cases hhps : s.hps with
  | read first =>
      simp only [hhps] at hstep
      split_ifs at hstep with hmap
      · simp_all
      · simp_all
  | _ => simp_all

end Steps

/-! ## The values of the register -/

section Values

variable (off : SharedDataOffset)

def Written (value : BitVec 24) : Prop :=
  value = 0 ∨ value = handshakeMarker ∨ value = off.value

variable {off}

theorem handshakeValCalc_toNat {value : BitVec 24}
    (h : value.toNat % 0x1000 = 0) :
    (handshakeValCalc value).toNat = value.toNat + 0x420 := by
  obtain ⟨page, hpage⟩ := Nat.dvd_of_mod_eq_zero h
  rw [handshakeValCalc, BitVec.toNat_or, hpage]
  exact (Nat.two_pow_add_eq_or_of_lt (by decide : 0x420 < 2 ^ 12) page).symm

theorem handshakeValCalc_ne : off.value ≠ handshakeValCalc off.value := by
  intro heq
  have hcalc := congrArg BitVec.toNat heq
  rw [handshakeValCalc_toNat off.aligned] at hcalc
  omega

theorem marker_ne : handshakeMarker ≠ off.value := by
  intro heq
  have haligned := off.aligned
  rw [← heq] at haligned
  exact absurd haligned (by decide)

theorem Written.eq_of_calc {value : BitVec 24} (h : Written off value)
    (hcalc : handshakeValCalc value = handshakeValCalc off.value) :
    value = off.value := by
  have hnat := congrArg BitVec.toNat hcalc
  rw [handshakeValCalc_toNat off.aligned] at hnat
  rcases h with rfl | rfl | rfl
  · apply BitVec.eq_of_toNat_eq
    rw [show (handshakeValCalc 0).toNat = 0x420 from rfl] at hnat
    rw [show (0 : BitVec 24).toNat = 0 from rfl]
    omega
  · rw [show (handshakeValCalc handshakeMarker).toNat = 0xFAFEFA from rfl] at hnat
    have haligned := off.aligned
    omega
  · rfl

theorem Written.mapped {value : BitVec 24} (h : Written off value)
    (hmap : mappable value) : value = 0 ∨ value = off.value := by
  rcases h with rfl | rfl | rfl
  · exact .inl rfl
  · exact absurd hmap (by decide)
  · exact .inr rfl

end Values

/-! ## The invariant -/

section Runs

variable {off : SharedDataOffset} {s s' : Handshake}

def niosValue (off : SharedDataOffset) : NiosPc → BitVec 24
  | .marker => 0
  | .offset => handshakeMarker
  | _ => off.value

/-- Before the acknowledgement the register holds what the Nios wrote last. -/
structure Quiet (off : SharedDataOffset) (s : Handshake) : Prop where
  pio7Seg : s.pio7Seg = niosValue off s.nios
  waiting : ¬s.nios.HasLeft

/-- After it, only an acknowledgement of the offset ends the wait. -/
structure Answered (off : SharedDataOffset) (second : BitVec 24) (s : Handshake) :
    Prop where
  wait : s.nios = .wait →
    s.pio7Seg = off.value ∨ s.pio7Seg = handshakeValCalc second
  left : s.nios.HasLeft → handshakeValCalc second = handshakeValCalc off.value

def HpsReads (off : SharedDataOffset) : HpsPc → Prop
  | .start => True
  | .read first => Written off first
  | .mapped first => first = 0 ∨ first = off.value
  | .reread first second => (first = 0 ∨ first = off.value) ∧ Written off second
  | .acknowledged first second =>
      (first = 0 ∨ first = off.value) ∧ Written off second
  | .failed => True

structure Valid (off : SharedDataOffset) (s : Handshake) : Prop where
  quiet : (∀ first second, s.hps ≠ .acknowledged first second) → Quiet off s
  answered : ∀ first second, s.hps = .acknowledged first second →
    Answered off second s
  reads : HpsReads off s.hps

theorem valid_reset : Valid off reset where
  quiet _ := ⟨rfl, by decide⟩
  answered := nofun
  reads := trivial

theorem Quiet.written (h : Quiet off s) : Written off s.pio7Seg := by
  rw [h.pio7Seg]
  cases s.nios <;> simp [Written, niosValue]

theorem niosStep_hps (hstep : s.niosStep off = some s') : s'.hps = s.hps := by
  rcases niosStep_eq_some hstep with
    ⟨-, rfl⟩ | ⟨-, rfl⟩ | ⟨-, -, rfl⟩ | ⟨-, rfl⟩ | ⟨-, rfl⟩ <;> rfl

theorem Quiet.niosStep (h : Quiet off s) (hstep : s.niosStep off = some s') :
    Quiet off s' := by
  rcases niosStep_eq_some hstep with
    ⟨-, rfl⟩ | ⟨-, rfl⟩ | ⟨hwait, hread, rfl⟩ | ⟨-, rfl⟩ | ⟨hleft, rfl⟩
  · exact ⟨rfl, show ¬NiosPc.offset.HasLeft by decide⟩
  · exact ⟨rfl, show ¬NiosPc.wait.HasLeft by decide⟩
  · -- it still reads its own offset
    have hvalue := h.pio7Seg
    rw [hwait, hread] at hvalue
    exact absurd hvalue.symm handshakeValCalc_ne
  · exact h
  · exact absurd (.inl hleft) h.waiting

theorem Answered.niosStep {second : BitVec 24} (h : Answered off second s)
    (hstep : s.niosStep off = some s') : Answered off second s' := by
  rcases niosStep_eq_some hstep with
    ⟨-, rfl⟩ | ⟨-, rfl⟩ | ⟨hwait, hread, rfl⟩ | ⟨-, rfl⟩ | ⟨hleft, rfl⟩
  · exact ⟨nofun,
      fun hleft => absurd hleft (show ¬NiosPc.offset.HasLeft by decide)⟩
  · exact ⟨fun _ => .inl rfl,
      fun hleft => absurd hleft (show ¬NiosPc.wait.HasLeft by decide)⟩
  · refine ⟨nofun, fun _ => ?_⟩
    rcases h.wait hwait with hoff | hcalc
    · exact absurd (hoff.symm.trans hread) handshakeValCalc_ne
    · exact hcalc.symm.trans hread
  · exact h
  · exact ⟨nofun, fun _ => h.left (.inl hleft)⟩

theorem Valid.niosStep (h : Valid off s) (hstep : s.niosStep off = some s') :
    Valid off s' := by
  have hhps := niosStep_hps hstep
  refine ⟨?_, ?_, ?_⟩
  · rw [hhps]
    exact fun hnot => (h.quiet hnot).niosStep hstep
  · rw [hhps]
    exact fun first second hack => (h.answered first second hack).niosStep hstep
  · rw [hhps]
    exact h.reads

theorem Quiet.hps (h : Quiet off s) (hps : HpsPc) :
    Quiet off { s with hps := hps } :=
  ⟨h.pio7Seg, h.waiting⟩

theorem Valid.hpsStep (h : Valid off s) (hstep : s.hpsStep = some s') :
    Valid off s' := by
  have hreads := h.reads
  rcases hpsStep_eq_some hstep with
    ⟨hhps, rfl⟩ | ⟨first, hhps, hmap, rfl⟩ | ⟨first, hhps, rfl⟩ |
    ⟨first, hhps, rfl⟩ | ⟨first, second, hhps, rfl⟩ <;>
    rw [hhps] at hreads <;>
    have hquiet : Quiet off s := h.quiet (by simp [hhps])
  · exact ⟨fun _ => hquiet.hps _, nofun, hquiet.written⟩
  · exact ⟨fun _ => hquiet.hps _, nofun, hreads.mapped hmap⟩
  · exact ⟨fun _ => hquiet.hps _, nofun, trivial⟩
  · exact ⟨fun _ => hquiet.hps _, nofun, hreads, hquiet.written⟩
  · refine ⟨fun hnot => absurd rfl (hnot first second), ?_, hreads⟩
    rintro _ _ ⟨⟩
    exact ⟨fun _ => .inr rfl, fun hleft => absurd hleft hquiet.waiting⟩

theorem Valid.step {party : Party} (h : Valid off s)
    (hstep : s.step off party = some s') : Valid off s' := by
  cases party with
  | nios => exact h.niosStep hstep
  | hps => exact h.hpsStep hstep

theorem valid_inductive (off : SharedDataOffset) :
    (handshake off).Inductive (Valid off) where
  init s hinit := by
    cases hinit
    exact valid_reset
  step _ _ _ h hstep := h.step hstep

/-! ## Agreement -/

/-- An HPS that acknowledges the offset has mapped it. -/
def Coherent (off : SharedDataOffset) : HpsPc → Prop
  | .reread first second => second = off.value → first = off.value
  | .acknowledged first second => second = off.value → first = off.value
  | _ => True

theorem Coherent.step {party : Party} (h : Coherent off s.hps)
    (hvalid : Valid off s) (hguard : ¬ReadsAcross off s party)
    (hstep : s.step off party = some s') : Coherent off s'.hps := by
  cases party with
  | nios =>
      rw [niosStep_hps hstep]
      exact h
  | hps =>
      have hreads := hvalid.reads
      rcases hpsStep_eq_some hstep with
        ⟨hhps, rfl⟩ | ⟨first, hhps, hmap, rfl⟩ | ⟨first, hhps, rfl⟩ |
        ⟨first, hhps, rfl⟩ | ⟨first, second, hhps, rfl⟩ <;>
        rw [hhps] at h hreads
      · trivial
      · trivial
      · trivial
      · intro hsecond
        rcases hreads with rfl | hfirst
        · -- a mapping of the reset value: the guard leaves offset zero only
          by_contra hne
          exact hguard ⟨rfl, hhps, hsecond, fun hzero => hne hzero.symm⟩
        · exact hfirst
      · exact h

theorem Valid.agrees (h : Valid off s) (hcoherent : Coherent off s.hps) :
    Agrees off s := by
  intro hleft
  by_cases hnot : ∀ first second, s.hps ≠ .acknowledged first second
  · exact absurd hleft (h.quiet hnot).waiting
  · push Not at hnot
    obtain ⟨first, second, hhps⟩ := hnot
    have hreads := h.reads
    rw [hhps] at hreads hcoherent
    have hcalc := (h.answered first second hhps).left hleft
    have hsecond := hreads.2.eq_of_calc hcalc
    rw [hhps, HpsPc.mappedBase, hcoherent hsecond]
    rfl

theorem Valid.disagrees (h : Valid off s) (hacross : ReadsAcross off s .hps) :
    ∃ t, (handshake off).run s [.hps, .hps, .nios] = some t ∧ ¬Agrees off t := by
  obtain ⟨-, hhps, hoff, hne⟩ := hacross
  have hquiet : Quiet off s := h.quiet (by simp [hhps])
  have hvalue := hquiet.pio7Seg.symm.trans hoff
  have hwait : s.nios = .wait := by
    cases hnios : s.nios with
    | marker =>
        rw [hnios] at hvalue
        exact absurd hvalue.symm hne
    | offset =>
        rw [hnios] at hvalue
        exact absurd hvalue marker_ne
    | wait => rfl
    | left => exact absurd (.inl hnios) hquiet.waiting
    | done => exact absurd (.inr hnios) hquiet.waiting
  obtain ⟨pio7Seg, nios, hps⟩ := s
  cases hhps
  cases hoff
  cases hwait
  refine ⟨⟨handshakeValCalc off.value, .left, .acknowledged 0 off.value⟩, ?_, ?_⟩
  · simp [System.run, handshake, Handshake.step, Handshake.hpsStep,
      Handshake.niosStep]
  · intro hagrees
    have hbase := Option.some.inj (hagrees (.inl rfl))
    apply hne
    apply BitVec.eq_of_toNat_eq
    exact (Nat.add_left_cancel hbase).symm

end Runs

theorem handshake_agrees (off : SharedDataOffset) :
    (∀ parties,
      (handshake off).AllSteps (fun s party => ¬ReadsAcross off s party) reset
          parties →
        (handshake off).AllStates (Agrees off) reset parties) ∧
      ∀ parties s, (handshake off).run reset parties = some s →
        ReadsAcross off s .hps →
        ∃ later t, (handshake off).run reset (parties ++ later) = some t ∧
          ¬Agrees off t := by
  constructor
  · intro parties hguard
    have hinvariant : (handshake off).AllStates
        (fun s => Valid off s ∧ Coherent off s.hps) reset parties :=
      System.AllSteps.allStates
        (fun s party s' h hguard hstep =>
          ⟨h.1.step hstep, h.2.step h.1 hguard hstep⟩)
        ⟨valid_reset, trivial⟩ hguard
    exact hinvariant.mono fun s h => h.1.agrees h.2
  · intro parties s hrun hacross
    have hreachable := (System.Reachable.init rfl).run hrun
    have hvalid := (valid_inductive off).reachable hreachable
    obtain ⟨t, hlater, hdisagrees⟩ := hvalid.disagrees hacross
    refine ⟨[.hps, .hps, .nios], t, ?_, hdisagrees⟩
    rw [System.run_append, hrun]
    exact hlater

def secondPage : SharedDataOffset := ⟨0x1000, by decide⟩

theorem handshake_agrees_second_page :
    (handshake secondPage).AllStates (Agrees secondPage) reset
        [.nios, .nios, .hps, .hps, .hps, .hps, .nios, .nios] ∧
      ∃ later t, (handshake secondPage).run reset
          ([.hps, .hps, .nios, .nios] ++ later) = some t ∧
        ¬Agrees secondPage t := by
  constructor
  · apply (handshake_agrees secondPage).1
    exact ⟨by decide, by decide, by decide, by decide, by decide, by decide,
      by decide, by decide, trivial⟩
  · exact (handshake_agrees secondPage).2 _ ⟨0x1000, .wait, .mapped 0⟩ (by decide)
      (by decide)

theorem handshake_disagrees :
    ¬∀ off parties, (handshake off).AllStates (Agrees off) reset parties := by
  intro hagrees
  have hrun : (handshake secondPage).run reset
      [.hps, .hps, .nios, .nios, .hps, .hps, .nios] =
        some ⟨0x1420, .left, .acknowledged 0 0x1000⟩ := by decide
  exact absurd ((hagrees secondPage _).last hrun (.inl rfl)) (by decide)

end Handshake

end NiosHps.Board
