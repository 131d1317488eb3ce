import NiosHps.Board.Progress
import NiosHps.Foundation.HexDigits

/-!
# Entering the key

Before the start, UP adds two to the selected hexadecimal digit of `d` or `n`,
as the switch says, and SHIFT selects the next of the six digits.  A digit goes
round without a carry, so each one counts its own presses; as the step is two,
it stays even.
-/

namespace NiosHps.Board

open NiosHps.Foundation

inductive Press where
  | up (pioSw : UInt32)
  | shift (pioSw : UInt32)
  deriving DecidableEq, Repr

def Press.interrupt : Press → Interrupt
  | .up pioSw => .btn upMask pioSw
  | .shift pioSw => .btn shiftMask pioSw

inductive Key where
  | d
  | n
  deriving DecidableEq, Repr

def Key.selected (pioSw : UInt32) : Key :=
  if Nios.keySelected pioSw then .d else .n

def Nios.key (s : Nios) : Key → Int32
  | .d => s.d
  | .n => s.n

def keyEntry : System Nios Press where
  init s := s.d = 0 ∧ s.n = 0 ∧ s.current7Seg = 0 ∧ s.hasStarted = 0
  step s press := s.isr press.interrupt

/-! ## What a sequence of presses counts -/

def shifts : List Press → Nat
  | [] => 0
  | .up _ :: presses => shifts presses
  | .shift _ :: presses => shifts presses + 1

/-- The UP presses that reach digit `k` of a key, from a selected digit on. -/
def upsAt (key : Key) (k : Nat) : Nat → List Press → Nat
  | _, [] => 0
  | selected, .up pioSw :: presses =>
      upsAt key k selected presses +
        if selected = k ∧ Key.selected pioSw = key then 1 else 0
  | selected, .shift _ :: presses => upsAt key k ((selected + 1) % 6) presses

theorem shifts_append (first second : List Press) :
    shifts (first ++ second) = shifts first + shifts second := by
  induction first with
  | nil => simp [shifts]
  | cons press first ih =>
      cases press with
      | up pioSw => exact ih
      | shift pioSw =>
          simp only [List.cons_append, shifts, ih]
          omega

theorem upsAt_append {key : Key} {k selected : Nat} (hselected : selected < 6)
    (first second : List Press) :
    upsAt key k selected (first ++ second) =
      upsAt key k selected first +
        upsAt key k ((selected + shifts first) % 6) second := by
  induction first generalizing selected with
  | nil => simp [upsAt, shifts, Nat.mod_eq_of_lt hselected]
  | cons press first ih =>
      cases press with
      | up pioSw =>
          simp only [List.cons_append, upsAt, shifts, ih hselected]
          omega
      | shift pioSw =>
          simp only [List.cons_append, upsAt, shifts,
            ih (Nat.mod_lt _ (by decide)), Nat.mod_add_mod]
          rw [Nat.add_assoc, Nat.add_comm 1]

/-! ## The digits along a run -/

theorem increaseDigit_toBitVec (number : Int32) {k : Nat} (hk : k < 6) :
    (increaseDigit number (UInt32.ofNat k).toInt32).toBitVec =
      withHexDigit number.toBitVec k
        ((number.toBitVec.sshiftRight (4 * k) &&& 15#32) + 2#32) := by
  interval_cases k <;> rfl

theorem hexDigit_increaseDigit (number : Int32) {k : Nat} (hk : k < 6)
    (j : Nat) :
    hexDigit (increaseDigit number (UInt32.ofNat k).toInt32).toBitVec j =
      hexDigit number.toBitVec j + if k = j then 2#4 else 0#4 := by
  rw [increaseDigit_toBitVec number hk]
  by_cases hj : k = j
  · subst hj
    rw [if_pos rfl, hexDigit_withHexDigit_self (by omega),
      BitVec.setWidth_add _ _ (by decide), setWidth_sshiftRight (by omega)]
    rfl
  · rw [if_neg hj, hexDigit_withHexDigit_of_ne (Ne.symm hj), BitVec.add_zero]

structure Entering (s : Nios) (selected : Nat) : Prop where
  hasStarted : s.hasStarted = 0
  selected_lt : selected < 6
  current7Seg : s.current7Seg = .ofNat selected

section Entering

variable {s : Nios} {selected : Nat}

theorem Entering.step_up (h : Entering s selected) (pioSw : UInt32) :
    keyEntry.step s (.up pioSw) = some (s.increase pioSw) := by
  have hmask : upMask &&& actionBtnMask = upMask := by decide
  exact (s.isr_up pioSw hmask).trans (if_pos h.hasStarted)

theorem Entering.step_shift (h : Entering s selected) (pioSw : UInt32) :
    keyEntry.step s (.shift pioSw) = some s.shift := by
  have hmask : shiftMask &&& actionBtnMask = shiftMask := by decide
  exact (s.isr_shift pioSw hmask).trans (if_pos h.hasStarted)

theorem Entering.increase (h : Entering s selected) (pioSw : UInt32) :
    Entering (s.increase pioSw) selected := by
  unfold Nios.increase
  split_ifs <;> exact ⟨h.hasStarted, h.selected_lt, h.current7Seg⟩

theorem Entering.hexDigit_increase (h : Entering s selected) (pioSw : UInt32)
    (key : Key) (k : Nat) :
    hexDigit ((s.increase pioSw).key key).toBitVec k =
      hexDigit (s.key key).toBitVec k +
        if selected = k ∧ Key.selected pioSw = key then 2#4 else 0#4 := by
  have hdigit := fun number => hexDigit_increaseDigit number h.selected_lt k
  unfold Nios.increase Key.selected
  rw [h.current7Seg]
  by_cases hkey : Nios.keySelected pioSw
  · cases key with
    | d =>
        simp only [if_pos hkey, and_true]
        exact hdigit s.d
    | n => simp [hkey, Nios.key, Nios.show7Seg]
  · cases key with
    | d => simp [hkey, Nios.key, Nios.show7Seg]
    | n =>
        simp only [if_neg hkey, and_true]
        exact hdigit s.n

theorem Entering.shift (h : Entering s selected) :
    Entering s.shift ((selected + 1) % 6) where
  hasStarted := h.hasStarted
  selected_lt := Nat.mod_lt _ (by decide)
  current7Seg := by
    have hlt := h.selected_lt
    simp only [Nios.shift, h.current7Seg, last7Seg]
    interval_cases selected <;> rfl

theorem Entering.run (h : Entering s selected) (presses : List Press) :
    ∃ t, keyEntry.run s presses = some t ∧
      Entering t ((selected + shifts presses) % 6) ∧
      ∀ key k, hexDigit (t.key key).toBitVec k =
        hexDigit (s.key key).toBitVec k +
          BitVec.ofNat 4 (2 * upsAt key k selected presses) := by
  induction presses generalizing s selected with
  | nil =>
      refine ⟨s, rfl, ?_, fun key k => ?_⟩
      · rw [shifts, Nat.add_zero, Nat.mod_eq_of_lt h.selected_lt]
        exact h
      · simp [upsAt]
  | cons press presses ih =>
      cases press with
      | up pioSw =>
          obtain ⟨t, hrun, ht, hdigits⟩ := ih (h.increase pioSw)
          refine ⟨t, System.run_cons.mpr ⟨_, h.step_up pioSw, hrun⟩, ht, ?_⟩
          intro key k
          rw [hdigits, h.hexDigit_increase, upsAt, BitVec.add_assoc]
          split_ifs
          · rw [Nat.mul_add, BitVec.ofNat_add, BitVec.add_comm 2#4]
          · rw [BitVec.zero_add, Nat.add_zero]
      | shift pioSw =>
          obtain ⟨t, hrun, ht, hdigits⟩ := ih h.shift
          refine ⟨t, System.run_cons.mpr ⟨_, h.step_shift pioSw, hrun⟩, ?_, ?_⟩
          · rw [Nat.mod_add_mod] at ht
            rw [shifts, Nat.add_comm (shifts presses), ← Nat.add_assoc]
            exact ht
          · exact hdigits

theorem entering_of_init (hs : keyEntry.init s) : Entering s 0 where
  hasStarted := hs.2.2.2
  selected_lt := by decide
  current7Seg := hs.2.2.1

theorem hexDigit_of_init (hs : keyEntry.init s) (key : Key) (k : Nat) :
    hexDigit (s.key key).toBitVec k = 0#4 := by
  have hzero : s.key key = 0 := by
    cases key with
    | d => exact hs.1
    | n => exact hs.2.1
  rw [hzero]
  apply BitVec.eq_of_getLsbD_eq
  intro i hi
  rw [getLsbD_hexDigit _ _ hi]
  simp

end Entering

/-! ## Which keys can be entered -/

def EvenDigits (key : BitVec 24) : Prop :=
  ∀ k < 6, (hexDigit key k).toNat % 2 = 0

instance (key : BitVec 24) : Decidable (EvenDigits key) :=
  inferInstanceAs (Decidable (∀ k < 6, _))

theorem ofNat_two_mul_even (ups : Nat) :
    (BitVec.ofNat 4 (2 * ups)).toNat % 2 = 0 := by
  rw [BitVec.toNat_ofNat]
  omega

theorem evenDigits_of_run {s t : Nios} {presses : List Press}
    (hs : keyEntry.init s) (hrun : keyEntry.run s presses = some t)
    (key : Key) {value : BitVec 24}
    (hvalue : (t.key key).toBitVec = value.setWidth 32) :
    EvenDigits value := by
  intro k _
  obtain ⟨t', hrun', -, hdigits⟩ := (entering_of_init hs).run presses
  rw [hrun] at hrun'
  cases hrun'
  have hdigit := hdigits key k
  rw [hvalue, hexDigit_setWidth (by decide), hexDigit_of_init hs,
    BitVec.zero_add] at hdigit
  rw [hdigit]
  exact ofNat_two_mul_even _

/-! ## Entering a key digit by digit -/

section Target

variable (target : Key → BitVec 24)

def halfDigit (key : Key) (k : Nat) : Nat := (hexDigit (target key) k).toNat / 2

def enterDigit (k : Nat) : List Press :=
  List.replicate (halfDigit target .d k) (.up 1) ++
    (List.replicate (halfDigit target .n k) (.up 0) ++ [.shift 0])

def enterDigits (count : Nat) : List Press :=
  (List.range count).flatMap (enterDigit target)

theorem shifts_replicate_up (pioSw : UInt32) (count : Nat) :
    shifts (List.replicate count (.up pioSw)) = 0 := by
  induction count with
  | zero => rfl
  | succ count ih => exact ih

theorem upsAt_replicate_up (key : Key) (k selected : Nat) (pioSw : UInt32)
    (count : Nat) :
    upsAt key k selected (List.replicate count (.up pioSw)) =
      if selected = k ∧ Key.selected pioSw = key then count else 0 := by
  induction count with
  | zero => simp [upsAt]
  | succ count ih =>
      rw [List.replicate_succ, upsAt, ih]
      split_ifs <;> rfl

theorem shifts_enterDigit (k : Nat) : shifts (enterDigit target k) = 1 := by
  simp [enterDigit, shifts_append, shifts_replicate_up, shifts]

theorem upsAt_enterDigit (key : Key) (k : Nat) {selected : Nat}
    (hselected : selected < 6) :
    upsAt key k selected (enterDigit target selected) =
      if selected = k then halfDigit target key k else 0 := by
  have hd : Key.selected 1 = .d := by decide
  have hn : Key.selected 0 = .n := by decide
  rw [enterDigit, upsAt_append hselected, shifts_replicate_up, Nat.add_zero,
    Nat.mod_eq_of_lt hselected, upsAt_append hselected, upsAt_replicate_up,
    upsAt_replicate_up, hd, hn]
  by_cases hk : selected = k
  · subst hk
    cases key <;> simp [upsAt]
  · simp [hk, upsAt]

theorem shifts_enterDigits (count : Nat) :
    shifts (enterDigits target count) = count := by
  induction count with
  | zero => rfl
  | succ count ih =>
      rw [enterDigits, List.range_succ, List.flatMap_append, shifts_append,
        ← enterDigits, ih]
      simp [shifts_enterDigit]

theorem upsAt_enterDigits (key : Key) (k : Nat) {count : Nat}
    (hcount : count ≤ 6) :
    upsAt key k 0 (enterDigits target count) =
      if k < count then halfDigit target key k else 0 := by
  induction count with
  | zero => rfl
  | succ count ih =>
      rw [enterDigits, List.range_succ, List.flatMap_append,
        upsAt_append (by decide), ← enterDigits, ih (by omega),
        shifts_enterDigits, Nat.zero_add, Nat.mod_eq_of_lt (by omega)]
      simp only [List.flatMap_cons, List.flatMap_nil, List.append_nil]
      rw [upsAt_enterDigit target key k (by omega)]
      split_ifs <;> omega

variable {target}

theorem ofNat_halfDigit {key : Key} (heven : EvenDigits (target key)) {k : Nat}
    (hk : k < 6) :
    BitVec.ofNat 4 (2 * halfDigit target key k) = hexDigit (target key) k := by
  have hdigit := heven k hk
  rw [halfDigit, show 2 * ((hexDigit (target key) k).toNat / 2) =
    (hexDigit (target key) k).toNat by omega]
  exact BitVec.ofNat_toNat _ _

theorem exists_run_of_evenDigits {s : Nios} (hs : keyEntry.init s)
    (heven : ∀ key, EvenDigits (target key)) :
    ∃ t, keyEntry.run s (enterDigits target 6) = some t ∧ t.hasStarted = 0 ∧
      ∀ key, (t.key key).toBitVec = (target key).setWidth 32 := by
  obtain ⟨t, hrun, ht, hdigits⟩ :=
    (entering_of_init hs).run (enterDigits target 6)
  refine ⟨t, hrun, ht.hasStarted, fun key => hexDigit_ext fun k _ => ?_⟩
  rw [hdigits, hexDigit_of_init hs, BitVec.zero_add,
    hexDigit_setWidth (by decide), upsAt_enterDigits target key k le_rfl]
  by_cases hk : k < 6
  · rw [if_pos hk, ofNat_halfDigit (heven key) hk]
  · rw [if_neg hk, hexDigit_of_ge (by omega)]
    rfl

end Target

/--
The key pairs that some sequence of presses enters are those of which every
hexadecimal digit is even.
-/
theorem key_enterable_iff {s₀ : Nios} (hinit : keyEntry.init s₀)
    (dStar nStar : BitVec 24) :
    (∃ presses s, keyEntry.run s₀ presses = some s ∧
      s.d.toBitVec = dStar.setWidth 32 ∧ s.n.toBitVec = nStar.setWidth 32 ∧
      s.hasStarted = 0) ↔
      EvenDigits dStar ∧ EvenDigits nStar := by
  constructor
  · rintro ⟨presses, s, hrun, hd, hn, -⟩
    exact ⟨evenDigits_of_run hinit hrun .d hd,
      evenDigits_of_run hinit hrun .n hn⟩
  · rintro ⟨hd, hn⟩
    let target : Key → BitVec 24
      | .d => dStar
      | .n => nStar
    have heven : ∀ key, EvenDigits (target key) := by
      intro key
      cases key with
      | d => exact hd
      | n => exact hn
    obtain ⟨s, hrun, hstopped, hvalue⟩ := exists_run_of_evenDigits hinit heven
    exact ⟨_, s, hrun, hvalue .d, hvalue .n, hstopped⟩

theorem keyEntry_startUp (stores : List HpsStore) :
    keyEntry.init (startUp stores) :=
  ⟨rfl, rfl, rfl, rfl⟩

theorem key_enterable_even :
    ∃ presses s, keyEntry.run (startUp []) presses = some s ∧
      s.d.toBitVec = (0x2468ac : BitVec 24).setWidth 32 ∧
      s.n.toBitVec = (0xe : BitVec 24).setWidth 32 ∧ s.hasStarted = 0 :=
  (key_enterable_iff (keyEntry_startUp []) 0x2468ac 0xe).mpr
    ⟨by decide, by decide⟩

theorem odd_key_not_enterable :
    ¬∀ (s₀ : Nios) (dStar nStar : BitVec 24), keyEntry.init s₀ →
      ∃ presses s, keyEntry.run s₀ presses = some s ∧
        s.d.toBitVec = dStar.setWidth 32 ∧ s.n.toBitVec = nStar.setWidth 32 ∧
        s.hasStarted = 0 := by
  intro henter
  have hinit := keyEntry_startUp []
  obtain ⟨presses, s, hrun, hd, -, -⟩ := henter (startUp []) 3 15 hinit
  have heven : EvenDigits 3 := evenDigits_of_run hinit hrun .d hd
  exact absurd heven (by decide)

end NiosHps.Board
