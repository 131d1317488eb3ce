import NiosHps.Board.HandshakeEnds
import NiosHps.Board.HpsSetUp
import NiosHps.Board.SharedLayout
import NiosHps.Board.StartUp

/-!
# The whole board from reset

Both programs as they are: the Nios goes through its handshake and its `main`
and takes interrupts, the HPS goes through its handshake, its reading loop and
the store of the split, and returns.  Any step of one may fall between two steps
of the other.

The HPS maps the base of the bridge where it reads the register before the
offset is there.  Its stores are then too low by the offset, which is at least a
page and has 24 bits, and hit the two arrays instead of the fields that follow
them.  `elsewhere` is what the HPS reads back at the base that it has mapped.
-/

namespace NiosHps.Board

open NiosHps.Foundation

/-- Where `main` of the HPS is, once it has acknowledged. -/
inductive HpsStage where
  | opening
  | reading (rest : List UInt8) (count : Nat)
  | setting
  | returned (status : Int)

/-- What the HPS is given: its input file, if it opens, and its last argument. -/
structure HpsInput where
  conv : IntConversion
  inputFile : Option (List UInt8)
  niosProcessingPercentage : Int32

def HpsStage.HasReturned : HpsStage → Prop
  | .returned _ => True
  | _ => False

def HpsStage.Stores : HpsStage → Prop
  | .reading _ _ | .setting => True
  | _ => False

def HpsInput.fileLength (input : HpsInput) : Nat :=
  match input.inputFile with
  | none => 0
  | some file => file.length

structure WholeBoard where
  startUp : StartUp
  hps : HpsStage
  elsewhere : SharedData

inductive Actor where
  | nios
  | hps
  | interrupt (e : Interrupt)

/-- The store that a number leads to in the reading loop. -/
def storeOf (count : Nat) (num : Int32) : Option HpsStore :=
  if count = 0 then some (.imageW num.toUInt32)
  else if count = 1 then some (.imageH num.toUInt32)
  else if h : count - 2 < maxRes then
    some (.imageEncrypted ⟨count - 2, h⟩ num.toUInt32)
  else none

/-- A shared structure as it is loaded, but for its pixels and its width. -/
def SharedData.OnlyWidth (shared : SharedData) : Prop :=
  ∃ pixels width,
    shared = { zeroedData with imageEncrypted := pixels, imageW := width }

theorem SharedData.OnlyWidth.imageW {shared : SharedData} (h : shared.OnlyWidth)
    (width : UInt32) : (shared.store (.imageW width)).OnlyWidth := by
  obtain ⟨pixels, _, rfl⟩ := h
  exact ⟨pixels, width, rfl⟩

theorem SharedData.OnlyWidth.filterHpsStart {shared : SharedData}
    (h : shared.OnlyWidth) (percentage : UInt32) :
    (shared.store (.filterHpsStart
      (shared.imageH * shared.imageW * percentage).toInt32)).OnlyWidth := by
  obtain ⟨pixels, width, rfl⟩ := h
  have hzero : zeroedData.imageH * width * percentage = 0 := by
    rw [show zeroedData.imageH = 0 from rfl, UInt32.zero_mul, UInt32.zero_mul]
  refine ⟨pixels, width, ?_⟩
  simp only [SharedData.store, hzero]
  rfl

theorem SharedData.OnlyWidth.misplaced {shared : SharedData} (h : shared.OnlyWidth)
    {base mapped : Nat} (store : HpsStore) (hbelow : mapped + 0x1000 ≤ base) :
    (shared.misplaced base mapped store).OnlyWidth := by
  obtain ⟨pixels, hpixels⟩ := shared.misplaced_of_below store hbelow
  obtain ⟨_, width, rfl⟩ := h
  exact ⟨pixels, width, hpixels⟩

namespace WholeBoard

abbrev nios (b : WholeBoard) : Nios := b.startUp.nios

abbrev shared (b : WholeBoard) : SharedData := b.startUp.nios.shared

def reset (elsewhere : SharedData) : WholeBoard where
  startUp := .reset
  hps := .opening
  elsewhere := elsewhere

def Mismapped (off : SharedDataOffset) (b : WholeBoard) : Prop :=
  b.startUp.handshake.hps.HasAcknowledged = true ∧ ¬b.startUp.HpsShares off

/-- What the HPS sees at the base that it has mapped. -/
def mapped (off : SharedDataOffset) (b : WholeBoard) : SharedData :=
  if b.startUp.HpsShares off then b.shared else b.elsewhere

def withShared (b : WholeBoard) (shared : SharedData) : WholeBoard :=
  { b with
    startUp := { b.startUp with nios := { b.nios with shared := shared } } }

def misplace (off : SharedDataOffset) (b : WholeBoard) (store : HpsStore) :
    WholeBoard :=
  match b.startUp.handshake.hps.mappedBase with
  | some mapped =>
      b.withShared
        (b.shared.misplaced (hps2fpgaBridgeBase + off.value.toNat) mapped store)
  | none => b

def store (off : SharedDataOffset) (b : WholeBoard) (store : HpsStore) :
    WholeBoard :=
  if b.startUp.HpsShares off then { b with startUp := b.startUp.store store }
  else { b.misplace off store with elsewhere := b.elsewhere.store store }

def niosEvent (b : WholeBoard) : StartUpEvent :=
  if b.startUp.handshake.nios = .done then .main else .handshake .nios

def niosStep (off : SharedDataOffset) (b : WholeBoard) : Option WholeBoard :=
  (b.startUp.step off b.niosEvent).map fun startUp => { b with startUp := startUp }

def hpsStep (off : SharedDataOffset) (input : HpsInput) (b : WholeBoard) :
    Option WholeBoard :=
  match b.hps with
  | .opening =>
      match b.startUp.handshake.hps with
      | .acknowledged _ _ =>
          match input.inputFile with
          | none => some { b with hps := .returned 1 }
          | some file => some { b with hps := .reading file 0 }
      | .failed => some { b with hps := .returned 1 }
      | _ =>
          (b.startUp.step off (.handshake .hps)).map fun startUp =>
            { b with startUp := startUp }
  | .reading left count =>
      match scanIntThen comma left with
      | .eof => some { b with hps := .setting }
      | .converted value rest =>
          (storeOf count (input.conv.toFun value)).map fun store =>
            { b.store off store with hps := .reading rest count }
      | .mismatch rest =>
          some { b with hps := .reading (skipLine (bufferSize - 1) rest) count }
  | .setting =>
      let split := (b.mapped off).imageH * (b.mapped off).imageW *
        input.niosProcessingPercentage.toUInt32
      some
        { b.store off (.filterHpsStart split.toInt32) with
          hps := .returned 0 }
  | .returned _ => none

def step (off : SharedDataOffset) (input : HpsInput) (b : WholeBoard) :
    Actor → Option WholeBoard
  | .nios => b.niosStep off
  | .hps => b.hpsStep off input
  | .interrupt e =>
      (b.startUp.step off (.interrupt e)).map fun startUp =>
        { b with startUp := startUp }

end WholeBoard

def fromReset (off : SharedDataOffset) (input : HpsInput) :
    System WholeBoard Actor where
  init b := ∃ elsewhere, b = .reset elsewhere
  step b := b.step off input

namespace WholeBoard

section Runs

variable {off : SharedDataOffset} {input : HpsInput} {b b' : WholeBoard}

/-! ## The reading loop of `Board.HpsSetUp` -/

theorem copying_store_eq (c : Copying) (num : Int32) :
    c.store num = (storeOf c.count num).map fun store =>
      { c with shared := c.shared.store store } := by
  unfold Copying.store storeOf
  split_ifs <;> rfl

theorem misplace_handshake (store : HpsStore) :
    (b.misplace off store).startUp.handshake = b.startUp.handshake := by
  unfold misplace
  split <;> rfl

theorem mapped_store (store : HpsStore) :
    (b.store off store).mapped off = (b.mapped off).store store := by
  by_cases hshares : b.startUp.HpsShares off
  · have hshares' : (b.startUp.store store).HpsShares off := hshares
    simp only [WholeBoard.store, mapped, if_pos hshares, if_pos hshares']
    rfl
  · have hshares' : ¬(b.misplace off store).startUp.HpsShares off := by
      unfold StartUp.HpsShares
      rwa [misplace_handshake]
    simp only [WholeBoard.store, mapped, if_neg hshares, if_neg hshares']

structure FollowsTurn (off : SharedDataOffset) (b : WholeBoard)
    (rest : List UInt8) (c : Copying) : Prop where
  hps : b.hps = .reading rest c.count
  mapped : b.mapped off = c.shared

theorem hpsStep_reading {left : List UInt8} {count : Nat}
    (hhps : b.hps = .reading left count) :
    match turn input.conv left ⟨b.mapped off, count⟩ with
    | .broke c => b.hpsStep off input = some { b with hps := .setting } ∧
        c.shared = b.mapped off
    | .continued rest c => ∃ b', b.hpsStep off input = some b' ∧
        b'.FollowsTurn off rest c
    | .undefined => b.hpsStep off input = none := by
  unfold turn hpsStep
  rw [hhps]
  cases hscan : scanIntThen comma left with
  | eof => simp [hscan]
  | mismatch rest =>
      simp only [hscan]
      exact ⟨_, rfl, rfl, rfl⟩
  | converted value rest =>
      simp only [hscan, copying_store_eq]
      cases hstore : storeOf count (input.conv.toFun value) with
      | none => rfl
      | some store => exact ⟨_, rfl, rfl, mapped_store store⟩

/-! ## What a step can do -/

theorem store_handshake (store : HpsStore) :
    (b.store off store).startUp.handshake = b.startUp.handshake := by
  by_cases hshares : b.startUp.HpsShares off
  · simp only [WholeBoard.store, if_pos hshares]
    rfl
  · simp only [WholeBoard.store, if_neg hshares]
    exact misplace_handshake store

theorem hpsStep_cases (hstep : b.hpsStep off input = some b') :
    (b.hps = .opening ∧ ∃ startUp,
      b.startUp.step off (.handshake .hps) = some startUp ∧
      b' = { b with startUp := startUp }) ∨
    (∃ stage, b' = { b with hps := stage } ∧
      (stage.Stores → b.hps.Stores ∨
        b.startUp.handshake.hps.HasAcknowledged = true) ∧
      ∀ left count, stage = .reading left count → count = 0 ∨
        ∃ left', b.hps = .reading left' count) ∨
    (∃ left rest count num store, b.hps = .reading left count ∧
      storeOf count num = some store ∧
      b' = { b.store off store with hps := .reading rest count }) ∨
    (b.hps = .setting ∧
      b' =
        { b.store off
            (.filterHpsStart ((b.mapped off).imageH * (b.mapped off).imageW *
              input.niosProcessingPercentage.toUInt32).toInt32) with
          hps := .returned 0 }) := by
  unfold hpsStep at hstep
  cases hhps : b.hps with
  | opening =>
      rw [hhps] at hstep
      cases hack : b.startUp.handshake.hps with
      | acknowledged first second =>
          right; left
          cases hfile : input.inputFile with
          | none =>
              simp only [hack, hfile] at hstep
              cases hstep
              exact ⟨_, rfl, nofun, nofun⟩
          | some file =>
              simp only [hack, hfile] at hstep
              cases hstep
              refine ⟨_, rfl, fun _ => .inr rfl, fun left count hreading =>
                .inl ?_⟩
              simp only [HpsStage.reading.injEq] at hreading
              exact hreading.2.symm
      | failed =>
          right; left
          simp only [hack] at hstep
          cases hstep
          exact ⟨_, rfl, nofun, nofun⟩
      | _ =>
          left
          simp only [hack] at hstep
          obtain ⟨startUp, hmoves, rfl⟩ := Option.map_eq_some_iff.mp hstep
          exact ⟨rfl, startUp, hmoves, rfl⟩
  | reading left count =>
      rw [hhps] at hstep
      simp only at hstep
      cases hscan : scanIntThen comma left with
      | eof =>
          rw [hscan] at hstep
          cases hstep
          exact .inr (.inl ⟨_, rfl, fun _ => .inl trivial, nofun⟩)
      | mismatch rest =>
          rw [hscan] at hstep
          cases hstep
          refine .inr (.inl ⟨_, rfl, fun _ => .inl trivial,
            fun left' count' hreading => .inr ?_⟩)
          simp only [HpsStage.reading.injEq] at hreading
          exact ⟨left, by rw [hreading.2]⟩
      | converted value rest =>
          rw [hscan] at hstep
          obtain ⟨store, hstore, rfl⟩ := Option.map_eq_some_iff.mp hstep
          exact .inr (.inr (.inl ⟨left, rest, count, _, store, rfl, hstore, rfl⟩))
  | setting =>
      rw [hhps] at hstep
      cases hstep
      exact .inr (.inr (.inr ⟨rfl, rfl⟩))
  | returned status =>
      rw [hhps] at hstep
      contradiction

theorem startUp_step_hps {e : StartUpEvent} {s s' : StartUp}
    (hstep : s.step off e = some s') (he : e ≠ .handshake .hps) :
    s'.handshake.hps = s.handshake.hps := by
  cases e with
  | handshake party =>
      obtain ⟨handshake, hmoves, rfl⟩ := Option.map_eq_some_iff.mp hstep
      cases party with
      | nios => exact Handshake.niosStep_hps hmoves
      | hps => exact absurd rfl he
  | main =>
      simp only [StartUp.step] at hstep
      split_ifs at hstep
      unfold StartUp.mainStep at hstep
      cases hstage : s.stage <;> rw [hstage] at hstep <;> cases hstep <;> rfl
  | interrupt e =>
      simp only [StartUp.step] at hstep
      split_ifs at hstep
      obtain ⟨nios, -, rfl⟩ := Option.map_eq_some_iff.mp hstep
      rfl
  | hpsStore store =>
      simp only [StartUp.step] at hstep
      split_ifs at hstep
      cases hstep
      rfl

theorem startUp_step_valid {e : StartUpEvent} {s s' : StartUp}
    (hstep : s.step off e = some s') (h : Handshake.Valid off s.handshake) :
    Handshake.Valid off s'.handshake := by
  cases e with
  | handshake party =>
      obtain ⟨handshake, hmoves, rfl⟩ := Option.map_eq_some_iff.mp hstep
      exact h.step hmoves
  | main =>
      simp only [StartUp.step] at hstep
      split_ifs at hstep
      unfold StartUp.mainStep at hstep
      cases hstage : s.stage <;> rw [hstage] at hstep <;> cases hstep <;> exact h
  | interrupt e =>
      simp only [StartUp.step] at hstep
      split_ifs at hstep
      obtain ⟨nios, -, rfl⟩ := Option.map_eq_some_iff.mp hstep
      exact h
  | hpsStore store =>
      simp only [StartUp.step] at hstep
      split_ifs at hstep
      cases hstep
      exact h

theorem niosEvent_ne (b : WholeBoard) : b.niosEvent ≠ .handshake .hps := by
  unfold niosEvent
  split_ifs
  · exact nofun
  · exact nofun

theorem step_of_other {actor : Actor}
    (hstep : b.step off input actor = some b') (hactor : actor ≠ .hps) :
    b'.hps = b.hps ∧
      b'.startUp.handshake.hps = b.startUp.handshake.hps ∧
      ∃ e, b.startUp.step off e = some b'.startUp := by
  cases actor with
  | hps => exact absurd rfl hactor
  | nios =>
      obtain ⟨startUp, hmoves, rfl⟩ := Option.map_eq_some_iff.mp hstep
      exact ⟨rfl, startUp_step_hps hmoves b.niosEvent_ne, _, hmoves⟩
  | interrupt e =>
      obtain ⟨startUp, hmoves, rfl⟩ := Option.map_eq_some_iff.mp hstep
      exact ⟨rfl, startUp_step_hps hmoves nofun, _, hmoves⟩

theorem Ended.of_hasAcknowledged {pc : HpsPc} (h : pc.HasAcknowledged = true) :
    pc.Ended := by
  cases pc with
  | acknowledged first second => trivial
  | _ => contradiction

theorem Mismapped.step {actor : Actor} (h : b.Mismapped off)
    (hstep : b.step off input actor = some b') : b'.Mismapped off := by
  have hhps : b'.startUp.handshake.hps = b.startUp.handshake.hps := by
    by_cases hactor : actor = .hps
    · subst hactor
      obtain ⟨-, startUp, hmoves, rfl⟩ | ⟨stage, rfl, -⟩ |
        ⟨left, rest, count, num, store, -, -, rfl⟩ | ⟨-, rfl⟩ :=
        hpsStep_cases hstep
      · obtain ⟨handshake, hhandshake, -⟩ := Option.map_eq_some_iff.mp hmoves
        have hnone := Handshake.hpsStep_of_ended
          (Ended.of_hasAcknowledged h.1)
        exact absurd (hnone.symm.trans hhandshake) (by simp)
      · rfl
      · exact congrArg Handshake.hps (store_handshake store)
      · exact congrArg Handshake.hps (store_handshake _)
    · exact (step_of_other hstep hactor).2.1
  unfold Mismapped StartUp.HpsShares
  rw [hhps]
  exact h

theorem store_startUp {store : HpsStore}
    (hright : ¬(b.store off store).Mismapped off)
    (hacknowledged : b.startUp.handshake.hps.HasAcknowledged = true) :
    b.startUp.step off (.hpsStore store) =
      some (b.store off store).startUp := by
  by_cases hshares : b.startUp.HpsShares off
  · simp only [StartUp.step, WholeBoard.store, if_pos hshares]
  · refine absurd ?_ hright
    unfold Mismapped StartUp.HpsShares
    rw [store_handshake]
    exact ⟨hacknowledged, hshares⟩

/-- A base that is not the right one is that of the bridge, a page or more below. -/
theorem mapped_below (hvalid : Handshake.Valid off b.startUp.handshake)
    (hwrong : b.Mismapped off) :
    ∃ mapped, b.startUp.handshake.hps.mappedBase = some mapped ∧
      mapped + 0x1000 ≤ hps2fpgaBridgeBase + off.value.toNat := by
  obtain ⟨hacknowledged, hshares⟩ := hwrong
  have hreads := hvalid.reads
  cases hhps : b.startUp.handshake.hps with
  | acknowledged first second =>
      have hright : first ≠ off.value := by
        rintro rfl
        apply hshares
        unfold StartUp.HpsShares
        rw [hhps]
        exact ⟨rfl, rfl⟩
      rw [hhps] at hreads
      obtain rfl := hreads.1.resolve_right hright
      have hpositive : off.value.toNat ≠ 0 := fun hzero =>
        hright (BitVec.eq_of_toNat_eq hzero.symm)
      have haligned := off.aligned
      refine ⟨hps2fpgaBridgeBase, rfl, ?_⟩
      omega
  | _ =>
      rw [hhps] at hacknowledged
      contradiction

/-! ## Nothing is processed -/

structure Unprocessed (off : SharedDataOffset) (b : WholeBoard) : Prop where
  shared : b.shared.OnlyWidth
  pixels : ¬b.Mismapped off →
    b.shared.imageEncrypted = zeroedData.imageEncrypted
  decryptPxCount : b.nios.decryptPxCount = 0
  count : ∀ left count, b.hps = .reading left count → count = 0
  acknowledged : b.hps.Stores →
    b.startUp.handshake.hps.HasAcknowledged = true
  handshake : Handshake.Valid off b.startUp.handshake

theorem unprocessed_reset (off : SharedDataOffset) (elsewhere : SharedData) :
    Unprocessed off (reset elsewhere) :=
  ⟨⟨_, 0, rfl⟩, fun _ => rfl, rfl, nofun, nofun, Handshake.valid_reset⟩

theorem Unprocessed.imageCopyDone (h : Unprocessed off b) :
    b.nios.isImageCopyDone = false := by
  obtain ⟨pixels, width, hshared⟩ := h.shared
  exact congrArg SharedData.imageCopyDone hshared

/-- Both ways to decrypt a pixel wait for the copy of the image. -/
theorem Unprocessed.not_decrypts (h : Unprocessed off b) (e : Interrupt) :
    ¬b.nios.Decrypts e := by
  have hcopied := h.imageCopyDone
  cases e with
  | btn edgeCapture pioSw =>
      simp [Nios.Decrypts, Nios.ManualStep, Nios.AutomaticTick, hcopied]
  | sw pioSw => simp [Nios.Decrypts, Nios.ManualStep, Nios.AutomaticTick]
  | timer1 pioSw =>
      simp [Nios.Decrypts, Nios.ManualStep, Nios.AutomaticTick, hcopied]

theorem Unprocessed.startUp {startUp : StartUp} (h : Unprocessed off b)
    (hshared : startUp.nios.shared = b.shared)
    (hcount : startUp.nios.decryptPxCount = b.nios.decryptPxCount)
    (hmismapped : b.Mismapped off → Mismapped off { b with startUp := startUp })
    (hacknowledged : b.startUp.handshake.hps.HasAcknowledged = true →
      startUp.handshake.hps.HasAcknowledged = true)
    (hvalid : Handshake.Valid off startUp.handshake) :
    Unprocessed off { b with startUp := startUp } where
  shared := by
    change startUp.nios.shared.OnlyWidth
    rw [hshared]
    exact h.shared
  pixels hright := by
    change startUp.nios.shared.imageEncrypted = _
    rw [hshared]
    exact h.pixels (mt hmismapped hright)
  decryptPxCount := hcount.trans h.decryptPxCount
  count := h.count
  acknowledged hstores := hacknowledged (h.acknowledged hstores)
  handshake := hvalid

theorem Unprocessed.frame {e : StartUpEvent} {startUp : StartUp}
    (h : Unprocessed off b) (hstep : b.startUp.step off e = some startUp)
    (he : ∀ store, e ≠ .hpsStore store) :
    startUp.nios.shared = b.shared ∧
      startUp.nios.decryptPxCount = b.nios.decryptPxCount := by
  cases e with
  | handshake party =>
      obtain ⟨handshake, -, rfl⟩ := Option.map_eq_some_iff.mp hstep
      exact ⟨rfl, rfl⟩
  | main =>
      simp only [StartUp.step] at hstep
      split_ifs at hstep
      unfold StartUp.mainStep at hstep
      cases hstage : b.startUp.stage <;> rw [hstage] at hstep <;>
        cases hstep <;> exact ⟨rfl, rfl⟩
  | interrupt e =>
      simp only [StartUp.step] at hstep
      split_ifs at hstep
      obtain ⟨nios, hisr, rfl⟩ := Option.map_eq_some_iff.mp hstep
      rcases Nios.isr_cases hisr with ⟨hdecrypts, -⟩ | ⟨-, hsettles⟩
      · exact absurd hdecrypts (h.not_decrypts e)
      · exact ⟨hsettles.shared, hsettles.decryptPxCount⟩
  | hpsStore store => exact absurd rfl (he store)

theorem Unprocessed.stage (h : Unprocessed off b) {stage : HpsStage}
    (hstores : stage.Stores →
      b.startUp.handshake.hps.HasAcknowledged = true)
    (hcount : ∀ left count, stage = .reading left count → count = 0) :
    Unprocessed off { b with hps := stage } :=
  ⟨h.shared, h.pixels, h.decryptPxCount, hcount, hstores, h.handshake⟩

theorem Unprocessed.store (h : Unprocessed off b) {store : HpsStore}
    (hacknowledged : b.startUp.handshake.hps.HasAcknowledged = true)
    (hpixels : (b.shared.store store).imageEncrypted = b.shared.imageEncrypted)
    (hstore : b.startUp.HpsShares off → (b.shared.store store).OnlyWidth) :
    Unprocessed off (b.store off store) := by
  by_cases hshares : b.startUp.HpsShares off
  · simp only [WholeBoard.store, if_pos hshares]
    exact ⟨hstore hshares, fun hright => hpixels.trans (h.pixels hright),
      h.decryptPxCount, h.count, h.acknowledged, h.handshake⟩
  · have hwrong : b.Mismapped off := ⟨hacknowledged, hshares⟩
    obtain ⟨mapped, hmapped, hbelow⟩ := mapped_below h.handshake hwrong
    simp only [WholeBoard.store, misplace, if_neg hshares, hmapped]
    exact ⟨h.shared.misplaced store hbelow, fun hright => absurd hwrong hright,
      h.decryptPxCount, h.count, h.acknowledged, h.handshake⟩

theorem Unprocessed.hpsStep (h : Unprocessed off b)
    (hstep : b.hpsStep off input = some b') : Unprocessed off b' := by
  have hstep' : b.step off input .hps = some b' := hstep
  obtain ⟨-, startUp, hmoves, rfl⟩ | ⟨stage, rfl, hstores, hcount⟩ |
    ⟨left, rest, count, num, store, hhps, hstore, rfl⟩ | ⟨hhps, rfl⟩ :=
    hpsStep_cases hstep
  · obtain ⟨hshared, hpx⟩ := h.frame hmoves nofun
    refine h.startUp hshared hpx (fun hwrong => hwrong.step hstep') (fun hack => ?_)
      (startUp_step_valid hmoves h.handshake)
    obtain ⟨handshake, hhandshake, -⟩ := Option.map_eq_some_iff.mp hmoves
    have hnone := Handshake.hpsStep_of_ended (Ended.of_hasAcknowledged hack)
    exact absurd (hnone.symm.trans hhandshake) (by simp)
  · refine h.stage (fun hnew => ?_) fun left count hreading => ?_
    · exact (hstores hnew).elim h.acknowledged id
    · rcases hcount left count hreading with hzero | ⟨left', hbefore⟩
      · exact hzero
      · exact h.count left' count hbefore
  · -- the counter of the loop is still zero, so the number is a width
    have hacknowledged := h.acknowledged (by rw [hhps]; trivial)
    obtain rfl := h.count left count hhps
    obtain rfl : HpsStore.imageW num.toUInt32 = store :=
      Option.some.inj hstore
    refine (h.store hacknowledged rfl fun _ => h.shared.imageW _).stage
      (fun _ => ?_) fun _ _ hreading => ?_
    · rw [store_handshake]
      exact hacknowledged
    · simp only [HpsStage.reading.injEq] at hreading
      exact hreading.2.symm
  · have hacknowledged := h.acknowledged (by rw [hhps]; trivial)
    have hstored : Unprocessed off (b.store off
        (.filterHpsStart ((b.mapped off).imageH * (b.mapped off).imageW *
          input.niosProcessingPercentage.toUInt32).toInt32)) := by
      refine h.store hacknowledged rfl fun hshares => ?_
      simp only [mapped, if_pos hshares]
      exact h.shared.filterHpsStart _
    exact hstored.stage nofun nofun

theorem Unprocessed.step {actor : Actor} (h : Unprocessed off b)
    (hstep : b.step off input actor = some b') : Unprocessed off b' := by
  cases actor with
  | hps => exact h.hpsStep hstep
  | nios =>
      have hhps := (step_of_other hstep nofun).2.1
      have hwrong (h : b.Mismapped off) := h.step hstep
      obtain ⟨startUp, hmoves, rfl⟩ := Option.map_eq_some_iff.mp hstep
      have hnot (store : HpsStore) : b.niosEvent ≠ .hpsStore store := by
        unfold niosEvent
        split_ifs <;> exact nofun
      obtain ⟨hshared, hpx⟩ := h.frame hmoves hnot
      exact h.startUp hshared hpx hwrong (fun hack => by rwa [hhps])
        (startUp_step_valid hmoves h.handshake)
  | interrupt e =>
      have hhps := (step_of_other hstep nofun).2.1
      have hwrong (h : b.Mismapped off) := h.step hstep
      obtain ⟨startUp, hmoves, rfl⟩ := Option.map_eq_some_iff.mp hstep
      obtain ⟨hshared, hpx⟩ := h.frame hmoves nofun
      exact h.startUp hshared hpx hwrong (fun hack => by rwa [hhps])
        (startUp_step_valid hmoves h.handshake)

theorem unprocessed_inductive (off : SharedDataOffset) (input : HpsInput) :
    (fromReset off input).Inductive (Unprocessed off) where
  init b hinit := by
    obtain ⟨elsewhere, rfl⟩ := hinit
    exact unprocessed_reset off elsewhere
  step _ _ _ h hstep := h.step hstep

theorem Unprocessed.step_startUp {actor : Actor} (h : Unprocessed off b)
    (hstep : b.step off input actor = some b') (hright : ¬b'.Mismapped off) :
    b'.startUp = b.startUp ∨
      ∃ e, b.startUp.step off e = some b'.startUp := by
  by_cases hactor : actor = .hps
  · subst hactor
    obtain ⟨-, startUp, hmoves, rfl⟩ | ⟨stage, rfl, -⟩ |
      ⟨left, rest, count, num, store, hhps, -, rfl⟩ | ⟨hhps, rfl⟩ :=
      hpsStep_cases hstep
    · exact .inr ⟨_, hmoves⟩
    · exact .inl rfl
    · have hacknowledged := h.acknowledged (by rw [hhps]; trivial)
      exact .inr ⟨_, store_startUp hright hacknowledged⟩
    · have hacknowledged := h.acknowledged (by rw [hhps]; trivial)
      exact .inr ⟨_, store_startUp hright hacknowledged⟩
  · exact .inr (step_of_other hstep hactor).2.2

theorem reachable_startUp (hb : (fromReset off input).Reachable b)
    (hright : ¬b.Mismapped off) : (startingUp off).Reachable b.startUp := by
  induction hb with
  | init hinit =>
      obtain ⟨elsewhere, rfl⟩ := hinit
      exact .init rfl
  | step hb hstep ih =>
      have h := (unprocessed_inductive off input).reachable hb
      have hbefore := ih fun hwrong => hright (hwrong.step hstep)
      rcases h.step_startUp hstep hright with hsame | ⟨e, hmoves⟩
      · rwa [hsame]
      · exact hbefore.step hmoves

/-! ## The HPS returns -/

def hpsRank (input : HpsInput) (b : WholeBoard) : Nat :=
  match b.hps with
  | .opening => b.startUp.handshake.hps.stepsLeft + input.fileLength + 3
  | .reading left _ => left.length + 2
  | .setting => 1
  | .returned _ => 0

theorem hpsRank_of_other {actor : Actor} (hactor : actor ≠ .hps)
    (hstep : b.step off input actor = some b') :
    b'.hps = b.hps ∧ b'.hpsRank input = b.hpsRank input := by
  obtain ⟨hhps, hpc, -⟩ := step_of_other hstep hactor
  refine ⟨hhps, ?_⟩
  simp only [hpsRank, hhps, hpc]

theorem hpsStep_opening (hhps : b.hps = .opening)
    (hrunning : ¬b.startUp.handshake.hps.Ended) :
    b.hpsStep off input =
      (b.startUp.step off (.handshake .hps)).map fun startUp =>
        { b with startUp := startUp } := by
  unfold WholeBoard.hpsStep
  cases hpc : b.startUp.handshake.hps with
  | acknowledged first second => exact absurd (hpc ▸ trivial) hrunning
  | failed => exact absurd (hpc ▸ trivial) hrunning
  | _ => simp only [hhps]

theorem opening_progress (hhps : b.hps = .opening) :
    ∃ b', b.hpsStep off input = some b' ∧
      b'.hpsRank input < b.hpsRank input := by
  by_cases hended : b.startUp.handshake.hps.Ended
  · unfold WholeBoard.hpsStep
    cases hpc : b.startUp.handshake.hps with
    | acknowledged first second =>
        cases hfile : input.inputFile with
        | none =>
            simp only [hhps]
            exact ⟨_, rfl, by simp [hpsRank, hhps]⟩
        | some file =>
            simp only [hhps]
            refine ⟨_, rfl, ?_⟩
            simp only [hpsRank, hhps, HpsInput.fileLength, hfile]
            omega
    | failed =>
        simp only [hhps]
        exact ⟨_, rfl, by simp [hpsRank, hhps]⟩
    | _ =>
        rw [hpc] at hended
        exact hended.elim
  · rw [hpsStep_opening hhps hended]
    obtain ⟨handshake, hstep, hlower⟩ := Handshake.hpsStep_stepsLeft hended
    have hmoves : b.startUp.step off (.handshake .hps) =
        some { b.startUp with handshake := handshake } := by
      simp only [StartUp.step, Handshake.step, hstep, Option.map_some]
    rw [hmoves]
    refine ⟨_, rfl, ?_⟩
    simp only [hpsRank, hhps]
    omega

theorem reading_progress {left : List UInt8} (hhps : b.hps = .reading left 0) :
    ∃ b', b.hpsStep off input = some b' ∧
      b'.hpsRank input < b.hpsRank input := by
  unfold WholeBoard.hpsStep
  cases hscan : scanIntThen comma left with
  | eof =>
      simp only [hhps, hscan]
      exact ⟨_, rfl, by simp [hpsRank, hhps]⟩
  | converted value rest =>
      have hlt := scanIntThen_converted hscan
      simp only [hhps, hscan, storeOf, if_true, Option.map_some]
      refine ⟨_, rfl, ?_⟩
      simp only [hpsRank, hhps]
      omega
  | mismatch rest =>
      have hlt := skipLine_mismatch_length_lt (bufferSize - 2) hscan
      have hbuffer : bufferSize - 2 + 1 = bufferSize - 1 := rfl
      rw [hbuffer] at hlt
      simp only [hhps, hscan]
      refine ⟨_, rfl, ?_⟩
      simp only [hpsRank, hhps]
      omega

theorem Unprocessed.hps_progress (h : Unprocessed off b)
    (hrunning : ¬b.hps.HasReturned) :
    ∃ b', b.hpsStep off input = some b' ∧
      b'.hpsRank input < b.hpsRank input := by
  cases hhps : b.hps with
  | opening => exact opening_progress hhps
  | reading left count =>
      obtain rfl := h.count left count hhps
      exact reading_progress hhps
  | setting =>
      simp only [WholeBoard.hpsStep, hhps]
      exact ⟨_, rfl, by simp [hpsRank, hhps]⟩
  | returned status => exact absurd (hhps ▸ trivial) hrunning

theorem stable_returned :
    (fromReset off input).Stable fun b => b.hps.HasReturned := by
  refine System.stable_of_step fun b actor b' hreturned hstep => ?_
  by_cases hactor : actor = .hps
  · subst hactor
    cases hhps : b.hps with
    | returned status =>
        have hnone : b.hpsStep off input = none := by
          simp only [WholeBoard.hpsStep, hhps]
        exact absurd (hnone.symm.trans hstep) (by simp)
    | _ =>
        rw [hhps] at hreturned
        exact hreturned.elim
  · rwa [(hpsRank_of_other hactor hstep).1]

theorem hps_returns {schedule : Nat → Actor} {elsewhere : SharedData}
    (hfair : System.FairTo schedule .hps) :
    System.LeadsTo ((fromReset off input).behaviour schedule (reset elsewhere))
      (Unprocessed off) fun b => b.hps.HasReturned := by
  apply System.LeadsTo.of_unless
  refine System.leadsTo_of_rank
    (fun b => Unprocessed off b ∧ ¬b.hps.HasReturned)
    (hpsRank input) hfair ?_ ?_
  · rintro b actor b' hactor ⟨h, hrunning⟩ hstep
    obtain ⟨hhps, hrank⟩ := hpsRank_of_other hactor hstep
    exact .inr ⟨⟨h.step hstep, by rwa [hhps]⟩, hrank.le⟩
  · rintro b ⟨h, hrunning⟩
    obtain ⟨b', hstep, hlower⟩ := h.hps_progress hrunning
    refine ⟨b', hstep, ?_⟩
    by_cases hreturned : b'.hps.HasReturned
    · exact .inl hreturned
    · exact .inr ⟨⟨h.hpsStep hstep, hreturned⟩, hlower⟩

end Runs

/--
From reset, whatever the input file, the percentage, the interrupts and the
order of the steps: the image is never announced, no interrupt can decrypt a
pixel, and both progress counts, the flags, the height and the split stay as
they were loaded.  The HPS only ever changes the width, and pixels if it has
mapped another base than that of the structure.  And whenever the HPS runs again
and again, its `main` returns.
-/
theorem board_processes_nothing (off : SharedDataOffset) (input : HpsInput) :
    (∀ b, (fromReset off input).Reachable b →
      b.shared.OnlyWidth ∧ b.nios.decryptPxCount = 0 ∧
      (∀ e, ¬b.nios.Decrypts e) ∧
      (¬b.Mismapped off → (startingUp off).Reachable b.startUp ∧
        b.shared.imageEncrypted = zeroedData.imageEncrypted)) ∧
    ∀ elsewhere schedule, System.FairTo schedule Actor.hps →
      ∃ n, ∀ m, n ≤ m → HpsStage.HasReturned
        ((fromReset off input).behaviour schedule (reset elsewhere) m).hps := by
  constructor
  · intro b hb
    have h := (unprocessed_inductive off input).reachable hb
    exact ⟨h.shared, h.decryptPxCount, h.not_decrypts, fun hright =>
      ⟨reachable_startUp hb hright, h.pixels hright⟩⟩
  · intro elsewhere schedule hfair
    obtain ⟨n, -, hreturned⟩ :=
      hps_returns hfair 0 (unprocessed_reset off elsewhere)
    exact ⟨n, fun m hle => stable_returned.behaviour hreturned hle⟩

end WholeBoard

end NiosHps.Board
