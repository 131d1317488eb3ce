import NiosHps.Board.Handshake
import NiosHps.Board.Progress

/-!
# From the handshake to the first pixel

The whole `main` of the Nios beside the `main` of the HPS: after its handshake
the Nios decrypts the image size, registers its interrupts and idles; the HPS
acknowledges and then stores the image.  An interrupt arrives only once it is
registered, that of the timer only once the program has been started.  The
register of the handshake is not read after it, so the display is kept apart.

The image size is decrypted before a key can be entered, with `d = n = 0`.  So
the modulus is zero, and the size that comes out is one by one.
-/

namespace NiosHps.Board

open NiosHps.Foundation

/-- What `main` of the Nios does next, once it has left the handshake. -/
inductive MainStage where
  | decryptWh
  | registerBtn
  | registerSw
  | registerTimer1
  | idle
  deriving DecidableEq, Repr

def MainStage.registered : MainStage → Interrupt → Bool
  | .registerSw, .btn _ _ => true
  | .registerTimer1, .btn _ _ => true
  | .registerTimer1, .sw _ => true
  | .idle, _ => true
  | _, _ => false

def HpsPc.HasAcknowledged : HpsPc → Bool
  | .acknowledged _ _ => true
  | _ => false

/-- The Nios as it is loaded, with its static variables zero. -/
def loadedNios : Nios where
  shared := zeroedData
  d := 0
  n := 0
  width := 0
  height := 0
  current7Seg := 0
  decryptPxCount := 0
  filterPxCount := 0
  hasStarted := 0
  pio7Seg := 0
  timer1Started := false

/-- `encryptedW` and `encryptedH` are what the HPS has stored last. -/
structure StartUp where
  handshake : Handshake
  stage : MainStage
  nios : Nios
  encryptedW : UInt32
  encryptedH : UInt32

inductive StartUpEvent where
  | handshake (party : Party)
  | main
  | interrupt (e : Interrupt)
  | hpsStore (store : HpsStore)

namespace StartUp

def reset : StartUp where
  handshake := .reset
  stage := .decryptWh
  nios := loadedNios
  encryptedW := 0
  encryptedH := 0

def mainStep (s : StartUp) : Option StartUp :=
  match s.stage with
  | .decryptWh => some { s with nios := s.nios.decryptWh, stage := .registerBtn }
  | .registerBtn => some { s with stage := .registerSw }
  | .registerSw => some { s with stage := .registerTimer1 }
  | .registerTimer1 => some { s with stage := .idle }
  | .idle => none

def timerRuns (s : StartUp) : Interrupt → Bool
  | .timer1 _ => s.nios.timer1Started
  | _ => true

def Arrives (s : StartUp) (e : Interrupt) : Prop :=
  s.stage.registered e = true ∧ s.timerRuns e = true

instance (s : StartUp) (e : Interrupt) : Decidable (s.Arrives e) :=
  inferInstanceAs (Decidable (_ ∧ _))

/-- The HPS has acknowledged; only at the right base are its stores shared. -/
def HpsShares (off : SharedDataOffset) (s : StartUp) : Prop :=
  s.handshake.hps.HasAcknowledged = true ∧
    s.handshake.hps.mappedBase = some (hps2fpgaBridgeBase + off.value.toNat)

instance (off : SharedDataOffset) (s : StartUp) : Decidable (s.HpsShares off) :=
  inferInstanceAs (Decidable (_ ∧ _))

def store (s : StartUp) (store : HpsStore) : StartUp :=
  { s with
    nios := { s.nios with shared := s.nios.shared.store store }
    encryptedW :=
      match store with
      | .imageW value => value
      | _ => s.encryptedW
    encryptedH :=
      match store with
      | .imageH value => value
      | _ => s.encryptedH }

def step (off : SharedDataOffset) (s : StartUp) : StartUpEvent → Option StartUp
  | .handshake party =>
      (s.handshake.step off party).map fun handshake =>
        { s with handshake := handshake }
  | .main => if s.handshake.nios = .done then s.mainStep else none
  | .interrupt e =>
      if s.Arrives e then
        (s.nios.isr e).map fun nios => { s with nios := nios }
      else none
  | .hpsStore store => if s.HpsShares off then some (s.store store) else none

end StartUp

def startingUp (off : SharedDataOffset) : System StartUp StartUpEvent where
  init s := s = .reset
  step s := s.step off

theorem startUp_eq_decryptWh : startUp [] = loadedNios.decryptWh := rfl

namespace StartUp

/-! ## The calls of `mod_exp` -/

def CallsDecryptWh (s : StartUp) (e : StartUpEvent) : Prop :=
  e = .main ∧ s.handshake.nios = .done ∧ s.stage = .decryptWh

def modulus (s : StartUp) : StartUpEvent → Option UInt32
  | .main =>
      if s.handshake.nios = .done ∧ s.stage = .decryptWh then
        some s.nios.n.toUInt32
      else none
  | .interrupt e =>
      if s.Arrives e ∧ s.nios.Decrypts e then some s.nios.n.toUInt32 else none
  | _ => none

/--
Once a pixel has been decrypted, the stop bound comes from the stored size under
the key of the pixels, and the size in the shared structure is that one.
-/
structure DimensionsAgree (s : StartUp) : Prop where
  width : s.nios.width.toUInt32 =
    modExp s.encryptedW s.nios.d.toUInt32 s.nios.n.toUInt32
  height : s.nios.height.toUInt32 =
    modExp s.encryptedH s.nios.d.toUInt32 s.nios.n.toUInt32
  imageW : s.nios.shared.imageW = s.nios.width.toUInt32
  imageH : s.nios.shared.imageH = s.nios.height.toUInt32

def StagesAgree (s : StartUp) : Prop :=
  s.nios.decryptPxCount ≠ 0 → s.DimensionsAgree

/-! ## Before the size is decrypted -/

structure Blank (s : StartUp) : Prop where
  stage : s.stage = .decryptWh
  d : s.nios.d = 0
  n : s.nios.n = 0
  decryptPxCount : s.nios.decryptPxCount = 0

section Blank

variable {off : SharedDataOffset} {s s' : StartUp} {e : StartUpEvent}

theorem blank_reset : Blank reset := ⟨rfl, rfl, rfl, rfl⟩

theorem Blank.not_arrives (h : s.Blank) (e : Interrupt) : ¬s.Arrives e := by
  rintro ⟨hregistered, -⟩
  rw [h.stage] at hregistered
  cases e <;> contradiction

theorem Blank.step (h : s.Blank) (hcall : ¬s.CallsDecryptWh e)
    (hstep : s.step off e = some s') : s'.Blank := by
  cases e with
  | handshake party =>
      obtain ⟨handshake, -, rfl⟩ := Option.map_eq_some_iff.mp hstep
      exact ⟨h.stage, h.d, h.n, h.decryptPxCount⟩
  | main =>
      simp only [StartUp.step] at hstep
      split_ifs at hstep with hdone
      exact absurd ⟨rfl, hdone, h.stage⟩ hcall
  | interrupt e =>
      simp only [StartUp.step, if_neg (h.not_arrives e)] at hstep
      contradiction
  | hpsStore store =>
      simp only [StartUp.step] at hstep
      split_ifs at hstep
      cases hstep
      exact ⟨h.stage, h.d, h.n, h.decryptPxCount⟩

theorem Blank.modulus_iff (h : s.Blank) (e : StartUpEvent) :
    s.modulus e ≠ some 0 ↔ ¬s.CallsDecryptWh e := by
  cases e with
  | main =>
      have hzero : s.nios.n.toUInt32 = 0 := by
        rw [h.n]
        rfl
      simp [modulus, CallsDecryptWh, hzero]
  | interrupt e => simp [modulus, CallsDecryptWh, h.not_arrives e]
  | handshake party => simp [modulus, CallsDecryptWh]
  | hpsStore store => simp [modulus, CallsDecryptWh]

theorem Blank.stagesAgree (h : s.Blank) : s.StagesAgree :=
  fun hpixel => absurd h.decryptPxCount hpixel

end Blank

/-! ## After that, the image is one by one -/

structure OneByOne (s : StartUp) : Prop where
  size : s.Blank ∨
    s.stage ≠ .decryptWh ∧ s.nios.width = 1 ∧ s.nios.height = 1
  imageW : s.nios.shared.imageW = s.encryptedW
  imageH : s.nios.shared.imageH = s.encryptedH

section OneByOne

variable {off : SharedDataOffset} {s s' : StartUp} {e : StartUpEvent}

theorem oneByOne_reset : OneByOne reset := ⟨.inl blank_reset, rfl, rfl⟩

theorem Blank.decryptWh (h : s.Blank) :
    s.nios.decryptWh.width = 1 ∧ s.nios.decryptWh.height = 1 := by
  have hone : ∀ value,
      modExp value (0 : Int32).toUInt32 (0 : Int32).toUInt32 = 1 :=
    fun value => modExp_zero value _
  simp only [Nios.decryptWh, h.d, h.n, hone]
  decide

theorem OneByOne.mainStep (h : s.OneByOne) (hstep : s.mainStep = some s') :
    s'.OneByOne := by
  unfold StartUp.mainStep at hstep
  cases hstage : s.stage with
  | decryptWh =>
      rw [hstage] at hstep
      cases hstep
      have hblank := h.size.resolve_right fun hsize => hsize.1 hstage
      exact ⟨.inr ⟨by simp, hblank.decryptWh⟩, h.imageW, h.imageH⟩
  | idle =>
      rw [hstage] at hstep
      contradiction
  | _ =>
      rw [hstage] at hstep
      cases hstep
      have hsize := h.size.resolve_left fun hblank => by
        rw [hblank.stage] at hstage
        contradiction
      exact ⟨.inr ⟨by simp, hsize.2⟩, h.imageW, h.imageH⟩

theorem OneByOne.isr {e : Interrupt} {nios : Nios} (h : s.OneByOne)
    (harrives : s.Arrives e) (hisr : s.nios.isr e = some nios) :
    OneByOne { s with nios := nios } := by
  obtain ⟨hstage, hwidth, hheight⟩ :=
    h.size.resolve_left fun hblank => hblank.not_arrives e harrives
  rcases Nios.isr_cases hisr with ⟨-, hone⟩ | ⟨-, hsettles⟩
  · exact ⟨.inr ⟨hstage, hone.width.trans hwidth, hone.height.trans hheight⟩,
      (congrArg SharedData.imageW hone.sharedRest).trans h.imageW,
      (congrArg SharedData.imageH hone.sharedRest).trans h.imageH⟩
  · exact ⟨.inr ⟨hstage, hsettles.width.trans hwidth,
        hsettles.height.trans hheight⟩,
      (congrArg SharedData.imageW hsettles.shared).trans h.imageW,
      (congrArg SharedData.imageH hsettles.shared).trans h.imageH⟩

theorem OneByOne.store (h : s.OneByOne) (store : HpsStore) :
    (s.store store).OneByOne where
  size := by
    rcases h.size with hblank | hsize
    · exact .inl ⟨hblank.stage, hblank.d, hblank.n, hblank.decryptPxCount⟩
    · exact .inr hsize
  imageW := by
    cases store <;> first | rfl | exact h.imageW
  imageH := by
    cases store <;> first | rfl | exact h.imageH

theorem OneByOne.step (h : s.OneByOne) (hstep : s.step off e = some s') :
    s'.OneByOne := by
  cases e with
  | handshake party =>
      obtain ⟨handshake, -, rfl⟩ := Option.map_eq_some_iff.mp hstep
      refine ⟨?_, h.imageW, h.imageH⟩
      rcases h.size with hblank | hsize
      · exact .inl ⟨hblank.stage, hblank.d, hblank.n, hblank.decryptPxCount⟩
      · exact .inr hsize
  | main =>
      simp only [StartUp.step] at hstep
      split_ifs at hstep
      exact h.mainStep hstep
  | interrupt e =>
      simp only [StartUp.step] at hstep
      split_ifs at hstep with harrives
      obtain ⟨nios, hisr, rfl⟩ := Option.map_eq_some_iff.mp hstep
      exact h.isr harrives hisr
  | hpsStore store =>
      simp only [StartUp.step] at hstep
      split_ifs at hstep
      cases hstep
      exact h.store store

theorem oneByOne_inductive (off : SharedDataOffset) :
    (startingUp off).Inductive OneByOne where
  init s hs := by
    cases hs
    exact oneByOne_reset
  step _ _ _ h hstep := h.step hstep

theorem OneByOne.dimensionsAgree_iff (h : s.OneByOne)
    (hpixel : s.nios.decryptPxCount ≠ 0) :
    s.DimensionsAgree ↔ s.encryptedW = 1 ∧ s.encryptedH = 1 ∧
      modExp 1 s.nios.d.toUInt32 s.nios.n.toUInt32 = 1 := by
  obtain ⟨-, hwidth, hheight⟩ :=
    h.size.resolve_left fun hblank => hpixel hblank.decryptPxCount
  have hone : (1 : Int32).toUInt32 = 1 := rfl
  constructor
  · intro hagree
    have hw := h.imageW.symm.trans hagree.imageW
    have hh := h.imageH.symm.trans hagree.imageH
    have hkey := hagree.width
    rw [hwidth, hone] at hw hkey
    rw [hheight, hone] at hh
    rw [hw] at hkey
    exact ⟨hw, hh, hkey.symm⟩
  · rintro ⟨hw, hh, hkey⟩
    refine ⟨?_, ?_, ?_, ?_⟩
    · rw [hwidth, hone, hw, hkey]
    · rw [hheight, hone, hh, hkey]
    · rw [h.imageW, hw, hwidth, hone]
    · rw [h.imageH, hh, hheight, hone]

end OneByOne

/--
In every run the stages agree and no modulus is zero if and only if the run does
not get to `decrypt_wh`.  Wherever it has, and a pixel is decrypted, the sizes
agree for an image of one pixel only.
-/
theorem stages_agree_iff (off : SharedDataOffset) :
    (∀ events,
      ((startingUp off).AllSteps (fun s e => s.modulus e ≠ some 0)
          reset events ∧
        (startingUp off).AllStates StagesAgree reset events) ↔
        (startingUp off).AllSteps (fun s e => ¬s.CallsDecryptWh e)
          reset events) ∧
    ∀ s, (startingUp off).Reachable s → s.nios.decryptPxCount ≠ 0 →
      (s.DimensionsAgree ↔ s.encryptedW = 1 ∧ s.encryptedH = 1 ∧
        modExp 1 s.nios.d.toUInt32 s.nios.n.toUInt32 = 1) := by
  have hkeep : ∀ s e s', s.Blank → ¬s.CallsDecryptWh e →
      (startingUp off).step s e = some s' → s'.Blank :=
    fun s e s' h hcall hstep => h.step hcall hstep
  refine ⟨fun events => ?_, fun s hs => ?_⟩
  · have hmoduli : (startingUp off).AllSteps (fun s e => s.modulus e ≠ some 0)
          reset events ↔
        (startingUp off).AllSteps (fun s e => ¬s.CallsDecryptWh e)
          reset events :=
      System.allSteps_congr (fun s e h => h.modulus_iff e) hkeep blank_reset
    rw [hmoduli]
    refine and_iff_left_of_imp fun hcalls => ?_
    exact (System.AllSteps.allStates hkeep blank_reset hcalls).mono
      fun s h => h.stagesAgree
  · exact ((oneByOne_inductive off).reachable hs).dimensionsAgree_iff

theorem run_handshake {off : SharedDataOffset} {s : StartUp}
    {parties : List Party} {t : Handshake}
    (hrun : (Board.handshake off).run s.handshake parties = some t) :
    (startingUp off).run s (parties.map .handshake) =
      some { s with handshake := t } := by
  induction parties generalizing s with
  | nil =>
      cases hrun
      rfl
  | cons party parties ih =>
      obtain ⟨next, hstep, hrest⟩ := System.run_cons.mp hrun
      have hmoves : (startingUp off).step s (.handshake party) =
          some { s with handshake := next } := by
        simp only [startingUp, StartUp.step]
        exact congrArg _ hstep
      exact System.run_cons.mpr ⟨_, hmoves, ih hrest⟩

theorem stages_agree_iff_one_pixel :
    ∃ s, (startingUp Handshake.secondPage).Reachable s ∧
      s.nios.decryptPxCount ≠ 0 ∧ ¬s.DimensionsAgree := by
  have hhandshake : (Board.handshake Handshake.secondPage).run reset.handshake
      [.nios, .nios, .hps, .hps, .hps, .hps, .nios, .nios] =
        some ⟨0, .done, .acknowledged 0x1000 0x1000⟩ := by decide
  have hrun : (startingUp Handshake.secondPage).run
      { reset with handshake := ⟨0, .done, .acknowledged 0x1000 0x1000⟩ }
      [.main, .main, .main, .main, .hpsStore (.imageW 3), .hpsStore (.imageH 2),
        .hpsStore .imageCopyDone, .interrupt (.btn startMask 0),
        .interrupt (.btn stepMask 0)] = some _ := rfl
  have hreachable :=
    ((System.Reachable.init rfl).run (run_handshake hhandshake)).run hrun
  have hcount := show (0 : UInt32) + 1 ≠ 0 by decide
  refine ⟨_, hreachable, hcount, ?_⟩
  rw [(stages_agree_iff Handshake.secondPage).2 _ hreachable hcount]
  exact fun hone => absurd hone.1 (by decide)

theorem decryptWh_divides_by_zero :
    ¬∀ (off : SharedDataOffset) (events : List StartUpEvent),
      (startingUp off).AllSteps (fun s e => s.modulus e ≠ some 0)
          reset events ∧
        (startingUp off).AllStates StagesAgree reset events := by
  intro hagree
  have hrun : (Board.handshake Handshake.secondPage).run reset.handshake
      [.nios, .nios, .hps, .hps, .hps, .hps, .nios, .nios] =
        some ⟨0, .done, .acknowledged 0x1000 0x1000⟩ := by decide
  exact (hagree _ (_ ++ [.main])).1.last (run_handshake hrun) rfl

end StartUp

end NiosHps.Board
