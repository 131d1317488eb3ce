import NiosHps.Board.KeyEntry
import NiosHps.Board.Ticks

/-!
# The key that the presses leave

Until the start, every digit of the two keys is twice the number of presses that
were its own, modulo sixteen, and no digit beyond the sixth is touched.  From the
start on, no interrupt routine writes the keys or the selected digit, whatever
the HPS stores in between.
-/

namespace NiosHps.Board

open NiosHps.Foundation

/-! ## Before the start -/

theorem upsAt_of_ge (key : Key) {k selected : Nat} (hk : 6 ≤ k)
    (hselected : selected < 6) (presses : List Press) :
    upsAt key k selected presses = 0 := by
  induction presses generalizing selected with
  | nil => rfl
  | cons press presses ih =>
      cases press with
      | up pioSw =>
          have hne : selected ≠ k := by omega
          simp [upsAt, ih hselected, hne]
      | shift pioSw => exact ih (Nat.mod_lt _ (by decide))

theorem toInt_mem_of_hexDigit {x : Int32}
    (hzero : ∀ k, 6 ≤ k → hexDigit x.toBitVec k = 0#4) :
    0 ≤ x.toInt ∧ x.toInt < 2 ^ 24 := by
  have hlt := toNat_lt_of_hexDigit hzero
  have hint : x.toInt = x.toBitVec.toNat :=
    BitVec.toInt_eq_toNat_of_lt (by omega)
  omega

/-! ## After the start -/

inductive RunningEvent where
  | interrupt (e : Interrupt)
  | timer0
  | hpsStore (store : HpsStore)

namespace Nios

def runningStep (s : Nios) : RunningEvent → Option Nios
  | .interrupt e => s.isr e
  | .timer0 => some (Cores.timer0_1msIsr ⟨s, 0⟩).after.nios
  | .hpsStore store => some { s with shared := s.shared.store store }

structure SameKey (s t : Nios) : Prop where
  d : t.d = s.d
  n : t.n = s.n
  current7Seg : t.current7Seg = s.current7Seg

structure Locked (s t : Nios) : Prop where
  hasStarted : t.hasStarted = 1
  sameKey : SameKey s t

theorem swIsr_current7Seg (s : Nios) (pioSw : UInt32) :
    (s.swIsr pioSw).current7Seg = s.current7Seg := by
  unfold swIsr
  split_ifs <;> rfl

theorem isr_current7Seg {s s' : Nios} {e : Interrupt}
    (hstarted : s.hasStarted = 1) (h : s.isr e = some s') :
    s'.current7Seg = s.current7Seg := by
  have hrunning := hasStarted_ne_zero hstarted
  cases e with
  | btn edgeCapture pioSw =>
      simp only [isr, btnIsr, if_neg hrunning] at h
      split_ifs at h with hup hshift hstep hready hmode hstart
      · cases h
        rfl
      · cases h
        rfl
      · exact decryptPx_current7Seg h
      · cases h
        rfl
      · cases h
        rfl
      · cases h
        rfl
      · cases h
        rfl
  | sw pioSw =>
      cases h
      exact swIsr_current7Seg s pioSw
  | timer1 pioSw =>
      simp only [isr, timer1_100usIsr] at h
      split_ifs at h
      · exact decryptPx_current7Seg h
      · cases h
        rfl
      · cases h
        rfl

theorem Locked.isr {s t t' : Nios} {e : Interrupt} (h : Locked s t)
    (hisr : t.isr e = some t') : Locked s t' := by
  have hcursor := (isr_current7Seg h.hasStarted hisr).trans h.sameKey.current7Seg
  rcases isr_cases hisr with ⟨-, hone⟩ | ⟨-, hsettles⟩
  · exact ⟨hone.hasStarted.trans h.hasStarted,
      hone.d.trans h.sameKey.d, hone.n.trans h.sameKey.n, hcursor⟩
  · obtain ⟨hstarted, hd, hn⟩ := hsettles.key h.hasStarted
    exact ⟨hstarted, hd.trans h.sameKey.d, hn.trans h.sameKey.n, hcursor⟩

theorem timer0_nios (s : Nios) :
    ∃ shared filterPxCount, (Cores.timer0_1msIsr ⟨s, 0⟩).after.nios =
      { s with shared := shared, filterPxCount := filterPxCount } :=
  ⟨_, _, rfl⟩

theorem Locked.step {s t t' : Nios} {e : RunningEvent} (h : Locked s t)
    (hstep : t.runningStep e = some t') : Locked s t' := by
  cases e with
  | interrupt e => exact h.isr hstep
  | timer0 =>
      obtain ⟨shared, filterPxCount, hnios⟩ := timer0_nios t
      rw [runningStep, hnios] at hstep
      cases hstep
      exact ⟨h.hasStarted, h.sameKey.d, h.sameKey.n, h.sameKey.current7Seg⟩
  | hpsStore store =>
      cases hstep
      exact ⟨h.hasStarted, h.sameKey.d, h.sameKey.n, h.sameKey.current7Seg⟩

end Nios

def running : System Nios RunningEvent where
  init s := s.hasStarted = 1
  step := Nios.runningStep

theorem Nios.Locked.allStates {s t : Nios} (h : Locked s t)
    (events : List RunningEvent) :
    running.AllStates (Nios.SameKey s) t events := by
  apply System.AllStates.mono (fun u (hu : Locked s u) => hu.sameKey)
  induction events generalizing t with
  | nil => exact h
  | cons e events ih =>
      exact System.allStates_cons.mpr ⟨h, fun t' hstep => ih (h.step hstep)⟩

/--
After any presses the cursor counts the SHIFTs modulo six, the keys have 24 bits
and each digit is twice the number of its own UPs modulo sixteen.  After a START
in any state the keys and the cursor stay as they are in every state of every
run.
-/
theorem key_entry_edits_selected_digit :
    (∀ {s₀ : Nios}, keyEntry.init s₀ → ∀ presses : List Press,
      ∃ s, keyEntry.run s₀ presses = some s ∧
        s.current7Seg.toNat = shifts presses % 6 ∧
        (∀ key, 0 ≤ (s.key key).toInt ∧ (s.key key).toInt < 2 ^ 24) ∧
        ∀ key k, k < 6 → (hexDigit (s.key key).toBitVec k).toNat =
          2 * upsAt key k 0 presses % 16) ∧
    ∀ (s : Nios) (edgeCapture pioSw : UInt32),
      edgeCapture &&& actionBtnMask = startMask →
      ∃ t, s.isr (.btn edgeCapture pioSw) = some t ∧ s.SameKey t ∧
        ∀ events, running.AllStates s.SameKey t events := by
  constructor
  · intro s₀ hinit presses
    obtain ⟨s, hrun, hentering, hdigits⟩ :=
      (entering_of_init hinit).run presses
    have hdigit : ∀ key k, hexDigit (s.key key).toBitVec k =
        BitVec.ofNat 4 (2 * upsAt key k 0 presses) := by
      intro key k
      rw [hdigits, hexDigit_of_init hinit, BitVec.zero_add]
    refine ⟨s, hrun, ?_, fun key => ?_, fun key k _ => ?_⟩
    · have hlt := hentering.selected_lt
      rw [Nat.zero_add] at hentering hlt
      have hword : shifts presses % 6 < 2 ^ 32 := hlt.trans (by decide)
      rw [hentering.current7Seg]
      exact UInt32.toNat_ofNat_of_lt' hword
    · apply toInt_mem_of_hexDigit
      intro k hk
      rw [hdigit, upsAt_of_ge key hk (by decide)]
    · rw [hdigit, BitVec.toNat_ofNat]
  · intro s edgeCapture pioSw hstart
    have hlocked : s.Locked s.start := ⟨rfl, rfl, rfl, rfl⟩
    exact ⟨s.start, s.isr_start pioSw hstart, hlocked.sameKey,
      hlocked.allStates⟩

theorem key_entry_edits_selected_digit_two :
    (∃ s, keyEntry.run (startUp []) [.up 1, .shift 1, .up 0, .up 0] = some s ∧
      s.current7Seg.toNat = 1 ∧
      (hexDigit (s.key .d).toBitVec 0).toNat = 2 ∧
      (hexDigit (s.key .n).toBitVec 1).toNat = 4) ∧
    ∃ t, (startUp []).isr (.btn startMask 0) = some t ∧
      running.AllStates (startUp []).SameKey t
        [.interrupt (.btn upMask 1), .timer0] := by
  obtain ⟨hentered, hlocked⟩ := key_entry_edits_selected_digit
  have hinit : keyEntry.init (startUp []) := ⟨rfl, rfl, rfl, rfl⟩
  constructor
  · obtain ⟨s, hrun, hcursor, -, hdigits⟩ :=
      hentered hinit [.up 1, .shift 1, .up 0, .up 0]
    refine ⟨s, hrun, hcursor, ?_, ?_⟩
    · exact (hdigits .d 0 (by decide)).trans (by decide)
    · exact (hdigits .n 1 (by decide)).trans (by decide)
  · obtain ⟨t, hstart, -, hkept⟩ :=
      hlocked (startUp []) startMask 0 (by decide)
    exact ⟨t, hstart, hkept _⟩

end NiosHps.Board
