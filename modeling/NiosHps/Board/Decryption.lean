import NiosHps.Board.Nios
import NiosHps.Foundation.Words
import Mathlib.Tactic.NormNum.Prime

/-!
# Decryption in place

Runs are finite sequences of interrupts, in any order and with any readings,
from a started program whose image has been copied.  Buttons and timer advance
one counter; below it the image is decrypted under the key held at the start,
from it on the image is untouched.

The timer stops at the last pixel, a manual step does not: it is the only way
past the image.
-/

namespace NiosHps.Board

open NiosHps.Foundation

/-- Started, with the image copied and nothing decrypted. -/
structure Nios.Ready (s : Nios) : Prop where
  hasStarted : s.hasStarted = 1
  imageCopyDone : s.isImageCopyDone = true
  decryptPxCount : s.decryptPxCount = 0
  n_ne_zero : s.n ≠ 0

def interrupts : System Nios Interrupt where
  init := Nios.Ready
  step := Nios.isr

theorem interrupts_run_decrypts {s : Nios} {e : Interrupt}
    (hdecrypts : s.Decrypts e) (hbound : s.decryptPxCount.toNat < maxRes) :
    ∃ s', interrupts.run s [e] = some s' ∧ s.DecryptsOne s' := by
  obtain ⟨s', hstep, hone⟩ := Nios.decryptPx_of_lt hbound
  have hisr : interrupts.step s e = some s' :=
    (Nios.isr_of_decrypts hdecrypts).trans hstep
  exact ⟨s', System.run_cons.mpr ⟨s', hisr, rfl⟩, hone⟩

/-- The indices decrypted along a run, in order. -/
def decryptedIndices : Nios → List Interrupt → List Nat
  | _, [] => []
  | s, e :: events =>
      (if s.Decrypts e then [s.decryptPxCount.toNat] else []) ++
        match s.isr e with
        | none => []
        | some s' => decryptedIndices s' events

def startedWith (imageEncrypted : Fin maxRes → UInt32)
    (d n width height : Int32) : Nios where
  shared :=
    { imageEncrypted := imageEncrypted
      imageW := 0
      imageH := 0
      imageCopyDone := true
      decryptPxCount := 0
      decryptDone := false
      filterHpsStart := 0
      niosFilterDone := false
      hpsFilterDone := false }
  d := d
  n := n
  width := width
  height := height
  current7Seg := 0
  decryptPxCount := 0
  filterPxCount := 0
  hasStarted := 1
  pio7Seg := 0
  timer1Started := true

theorem ready_startedWith (imageEncrypted : Fin maxRes → UInt32)
    {d n width height : Int32} (hn : n ≠ 0) :
    (startedWith imageEncrypted d n width height).Ready :=
  ⟨rfl, rfl, rfl, hn⟩

theorem startedWith_bound (imageEncrypted : Fin maxRes → UInt32)
    (d n width height : Int32) :
    (startedWith imageEncrypted d n width height).decryptPxCount.toNat <
      maxRes :=
  show 0 < maxRes by decide

/-! ## One key, every pixel once -/

theorem decryptedIndices_eq {s s' : Nios} {events : List Interrupt}
    (hrun : interrupts.run s events = some s') :
    s.decryptPxCount.toNat ≤ s'.decryptPxCount.toNat ∧
      decryptedIndices s events =
        List.range' s.decryptPxCount.toNat
          (s'.decryptPxCount.toNat - s.decryptPxCount.toNat) := by
  induction events generalizing s with
  | nil =>
      cases hrun
      simp [decryptedIndices]
  | cons e events ih =>
      obtain ⟨t, hstep, hrest⟩ := System.run_cons.mp hrun
      obtain ⟨hle, hindices⟩ := ih hrest
      simp only [decryptedIndices, show s.isr e = some t from hstep, hindices]
      rcases Nios.isr_cases hstep with ⟨hdecrypts, hone⟩ | ⟨hnot, hsettles⟩
      · have hcount := hone.decryptPxCount
        have hlength : s'.decryptPxCount.toNat - s.decryptPxCount.toNat =
            s'.decryptPxCount.toNat - t.decryptPxCount.toNat + 1 := by omega
        rw [if_pos hdecrypts, hlength, List.range'_succ, hcount]
        exact ⟨by omega, rfl⟩
      · rw [if_neg hnot, ← hsettles.decryptPxCount]
        exact ⟨hle, rfl⟩

structure DecryptedUpTo (s₀ s : Nios) : Prop where
  hasStarted : s.hasStarted = 1
  d : s.d = s₀.d
  n : s.n = s₀.n
  imageEncrypted : ∀ i : Fin maxRes,
    s.shared.imageEncrypted i =
      if i.val < s.decryptPxCount.toNat then
        modExp (s₀.shared.imageEncrypted i) s₀.d.toUInt32 s₀.n.toUInt32
      else s₀.shared.imageEncrypted i

theorem decryptedUpTo_ready {s₀ : Nios} (h : s₀.Ready) : DecryptedUpTo s₀ s₀ where
  hasStarted := h.hasStarted
  d := rfl
  n := rfl
  imageEncrypted i := by simp [h.decryptPxCount]

theorem DecryptedUpTo.decryptsOne {s₀ s s' : Nios} (h : DecryptedUpTo s₀ s)
    (hone : s.DecryptsOne s') : DecryptedUpTo s₀ s' where
  hasStarted := hone.hasStarted.trans h.hasStarted
  d := hone.d.trans h.d
  n := hone.n.trans h.n
  imageEncrypted i := by
    have hold := h.imageEncrypted i
    rw [hone.imageEncrypted, hone.decryptPxCount, h.d, h.n]
    by_cases hi : i = ⟨s.decryptPxCount.toNat, hone.bound⟩
    · -- the pixel at the counter still holds its initial value
      subst hi
      rw [if_neg (lt_irrefl _)] at hold
      rw [Function.update_self, if_pos (Nat.lt_succ_self _), hold]
    · have hval : i.val ≠ s.decryptPxCount.toNat := fun hval => hi (Fin.ext hval)
      have hlt : i.val < s.decryptPxCount.toNat + 1 ↔
          i.val < s.decryptPxCount.toNat := by omega
      rw [Function.update_of_ne hi, hold]
      simp only [hlt]

theorem DecryptedUpTo.settles {s₀ s s' : Nios} (h : DecryptedUpTo s₀ s)
    (hsettles : s.Settles s') : DecryptedUpTo s₀ s' := by
  obtain ⟨hstarted, hd, hn⟩ := hsettles.key h.hasStarted
  refine ⟨hstarted, hd.trans h.d, hn.trans h.n, ?_⟩
  rw [hsettles.shared, hsettles.decryptPxCount]
  exact h.imageEncrypted

theorem DecryptedUpTo.step {s₀ s s' : Nios} {e : Interrupt}
    (h : DecryptedUpTo s₀ s) (hstep : s.isr e = some s') :
    DecryptedUpTo s₀ s' := by
  rcases Nios.isr_cases hstep with ⟨_, hone⟩ | ⟨_, hsettles⟩
  · exact h.decryptsOne hone
  · exact h.settles hsettles

theorem DecryptedUpTo.run {s₀ s s' : Nios} {events : List Interrupt}
    (h : DecryptedUpTo s₀ s) (hrun : interrupts.run s events = some s') :
    DecryptedUpTo s₀ s' := by
  induction events generalizing s with
  | nil =>
      cases hrun
      exact h
  | cons e events ih =>
      obtain ⟨t, hstep, hrest⟩ := System.run_cons.mp hrun
      exact ih (h.step hstep) hrest

theorem DecryptedUpTo.plain {s₀ s : Nios} (h : DecryptedUpTo s₀ s) {p q : Nat}
    (hp : p.Prime) (hq : q.Prime) (hne : p ≠ q)
    (hn : s₀.n.toUInt32.toNat = p * q) (hfits : p * q ≤ 65536) {e : Nat}
    (hed : e * s₀.d.toUInt32.toNat ≡ 1 [MOD (p - 1) * (q - 1)]) {i : Fin maxRes}
    (hi : i.val < s.decryptPxCount.toNat) {plain : Nat} (hplain : plain < p * q)
    (hcipher : (s₀.shared.imageEncrypted i).toNat = plain ^ e % (p * q)) :
    (s.shared.imageEncrypted i).toNat = plain := by
  rw [h.imageEncrypted i, if_pos hi]
  exact modExp_undoes_rsa hp hq hne hn hfits hed hplain hcipher

theorem decrypted_once_in_order {s₀ s : Nios} (hready : s₀.Ready)
    {events : List Interrupt} (hrun : interrupts.run s₀ events = some s) :
    s.d = s₀.d ∧ s.n = s₀.n ∧
      (∀ i : Fin maxRes,
        s.shared.imageEncrypted i =
          if i.val < s.decryptPxCount.toNat then
            modExp (s₀.shared.imageEncrypted i) s₀.d.toUInt32 s₀.n.toUInt32
          else s₀.shared.imageEncrypted i) ∧
      decryptedIndices s₀ events = List.range s.decryptPxCount.toNat ∧
      ∀ p q e : Nat, p.Prime → q.Prime → p ≠ q → s₀.n.toUInt32.toNat = p * q →
        p * q ≤ 65536 → e * s₀.d.toUInt32.toNat ≡ 1 [MOD (p - 1) * (q - 1)] →
        ∀ i : Fin maxRes, i.val < s.decryptPxCount.toNat →
          ∀ plain < p * q,
            (s₀.shared.imageEncrypted i).toNat = plain ^ e % (p * q) →
            (s.shared.imageEncrypted i).toNat = plain := by
  have h := (decryptedUpTo_ready hready).run hrun
  have hindices := (decryptedIndices_eq hrun).2
  rw [hready.decryptPxCount, UInt32.toNat_zero, Nat.sub_zero,
    ← List.range_eq_range'] at hindices
  refine ⟨h.d, h.n, h.imageEncrypted, hindices, ?_⟩
  intro p q e hp hq hne hn hfits hed i hi plain hplain hcipher
  exact h.plain hp hq hne hn hfits hed hi hplain hcipher

def fourCubes : Nios :=
  startedWith (fun i => [8, 12, 4, 13].getD i 0) 3 15 2 2

def mixedRun : List Interrupt :=
  [.btn stepMask 0, .timer1 2, .sw 1, .timer1 2, .timer1 0, .btn stepMask 0]

theorem decrypted_once_in_order_mixed :
    ∃ s, interrupts.run fourCubes mixedRun = some s ∧
      decryptedIndices fourCubes mixedRun = [0, 1, 2, 3] ∧
      ∀ k : Fin 4, (s.shared.imageEncrypted (k.castLE (by decide))).toNat =
        [2, 3, 4, 7].getD k 0 := by
  have hrun : ∃ s, interrupts.run fourCubes mixedRun = some s ∧
      s.decryptPxCount = 4 := ⟨_, rfl, rfl⟩
  obtain ⟨s, hrun, hcount⟩ := hrun
  obtain ⟨-, -, -, hindices, hplain⟩ :=
    decrypted_once_in_order (ready_startedWith _ (by decide)) hrun
  rw [hcount] at hindices
  refine ⟨s, hrun, hindices, fun k => ?_⟩
  refine hplain 3 5 3 Nat.prime_three Nat.prime_five (by decide) rfl (by decide)
    (by decide) _ ?_ _ ?_ ?_
  · rw [hcount]
    exact k.isLt
  · fin_cases k <;> decide
  · fin_cases k <;> rfl

/-! ## Inside the image -/

/-- The interrupt decrypts inside the image, and nothing of a complete one. -/
structure StaysInside (area : Nat) (s : Nios) (e : Interrupt) : Prop where
  index_lt : s.Decrypts e →
    s.decryptPxCount.toNat < area ∧ s.decryptPxCount.toNat < maxRes
  complete : s.decryptPxCount.toNat = area →
    ∀ s', s.isr e = some s' → s'.shared.imageEncrypted = s.shared.imageEncrypted

def StepsPastEnd (area : Nat) (s : Nios) (e : Interrupt) : Prop :=
  s.ManualStep e ∧ s.decryptPxCount.toNat = area

structure WithinArea (area : Nat) (s : Nios) : Prop where
  area_eq : s.area.toNat = area
  count_le : s.decryptPxCount.toNat ≤ area

variable {area : Nat}

/-- The timer's inequality test is enough while nothing has overshot. -/
theorem WithinArea.count_lt {s : Nios} {e : Interrupt} (h : WithinArea area s)
    (hdecrypts : s.Decrypts e) (hguard : ¬StepsPastEnd area s e) :
    s.decryptPxCount.toNat < area := by
  apply lt_of_le_of_ne h.count_le
  rcases hdecrypts with hmanual | hauto
  · exact fun hend => hguard ⟨hmanual, hend⟩
  · cases e with
    | btn _ _ => exact hauto.elim
    | sw _ => exact hauto.elim
    | timer1 pioSw =>
        obtain ⟨hrest, -, -⟩ := hauto
        rwa [← h.area_eq, Ne, UInt32.toNat_inj]

theorem WithinArea.step {s s' : Nios} {e : Interrupt} (h : WithinArea area s)
    (hguard : ¬StepsPastEnd area s e) (hstep : s.isr e = some s') :
    WithinArea area s' := by
  rcases Nios.isr_cases hstep with ⟨hdecrypts, hone⟩ | ⟨-, hsettles⟩
  · have hlt := h.count_lt hdecrypts hguard
    refine ⟨?_, by rw [hone.decryptPxCount]; omega⟩
    rw [Nios.area, hone.width, hone.height]
    exact h.area_eq
  · refine ⟨?_, by rw [hsettles.decryptPxCount]; exact h.count_le⟩
    rw [Nios.area, hsettles.width, hsettles.height]
    exact h.area_eq

theorem WithinArea.staysInside_iff {s : Nios} {e : Interrupt}
    (h : WithinArea area s) (hres : area ≤ maxRes) :
    StaysInside area s e ↔ ¬StepsPastEnd area s e := by
  constructor
  · rintro hinside ⟨hmanual, hend⟩
    exact absurd hend (hinside.index_lt (.inl hmanual)).1.ne
  · intro hguard
    refine ⟨fun hdecrypts => ?_, fun hend s' hstep => ?_⟩
    · have hlt := h.count_lt hdecrypts hguard
      exact ⟨hlt, lt_of_lt_of_le hlt hres⟩
    · rcases Nios.isr_cases hstep with ⟨hdecrypts, -⟩ | ⟨-, hsettles⟩
      · exact absurd hend (h.count_lt hdecrypts hguard).ne
      · rw [hsettles.shared]

theorem withinArea_ready {s₀ : Nios} (hready : s₀.Ready)
    (harea : s₀.width.toInt * s₀.height.toInt = area) (hres : area ≤ maxRes) :
    WithinArea area s₀ where
  area_eq := mul_toUInt32_toNat harea (lt_of_le_of_lt hres (by decide))
  count_le := by
    rw [hready.decryptPxCount]
    exact Nat.zero_le area

theorem decryption_stays_inside_iff {s₀ : Nios} (hready : s₀.Ready)
    (harea : s₀.width.toInt * s₀.height.toInt = area) (hres : area ≤ maxRes)
    (events : List Interrupt) :
    (interrupts.AllStates (fun s => s.decryptPxCount.toNat ≤ area) s₀ events ∧
      interrupts.AllSteps (StaysInside area) s₀ events) ↔
      interrupts.AllSteps (fun s e => ¬StepsPastEnd area s e) s₀ events := by
  have hwithin := withinArea_ready hready harea hres
  have hkeep : ∀ s e s', WithinArea area s → ¬StepsPastEnd area s e →
      interrupts.step s e = some s' → WithinArea area s' :=
    fun s e s' h hguard hstep => h.step hguard hstep
  have hiff : interrupts.AllSteps (StaysInside area) s₀ events ↔
      interrupts.AllSteps (fun s e => ¬StepsPastEnd area s e) s₀ events :=
    System.allSteps_congr (fun s e h => h.staysInside_iff hres) hkeep hwithin
  rw [hiff, and_iff_right_iff_imp]
  intro hguard
  have hstates := System.AllSteps.allStates hkeep hwithin hguard
  exact hstates.mono fun s h => h.count_le

theorem decryption_stays_inside_mixed :
    interrupts.AllStates (fun s => s.decryptPxCount.toNat ≤ 4) fourCubes
      (mixedRun ++ [.timer1 2]) := by
  refine ((decryption_stays_inside_iff (ready_startedWith _ (by decide))
    (by decide) (by decide) _).mpr ?_).1
  exact ⟨fun hend => absurd hend.2 (by decide), fun hend => hend.1,
    fun hend => hend.1, fun hend => hend.1, fun hend => hend.1,
    fun hend => absurd hend.2 (by decide), fun hend => hend.1, trivial⟩

theorem step_passes_last_pixel :
    ¬∀ (s₀ : Nios) (area : Nat) (events : List Interrupt), s₀.Ready →
      s₀.width.toInt * s₀.height.toInt = area → 1 ≤ area → area ≤ maxRes →
      interrupts.AllStates (fun s => s.decryptPxCount.toNat ≤ area) s₀
        events := by
  intro hinside
  let s₀ := startedWith (fun _ => 8) 3 15 1 1
  have hfirst : s₀.Decrypts (.btn stepMask 0) :=
    .inl ⟨by decide, rfl, rfl, by decide⟩
  obtain ⟨s₁, hrun₁, hone₁⟩ :=
    interrupts_run_decrypts hfirst (startedWith_bound _ _ _ _ _)
  have hcount₁ : s₁.decryptPxCount.toNat = 1 := hone₁.decryptPxCount
  have hsecond : s₁.Decrypts (.btn stepMask 0) := by
    refine .inl ⟨by decide, hone₁.hasStarted, ?_, by decide⟩
    rw [Nios.isImageCopyDone, hone₁.sharedRest]
    rfl
  obtain ⟨s₂, hrun₂, hone₂⟩ :=
    interrupts_run_decrypts hsecond (by rw [hcount₁]; decide)
  have hcount₂ : s₂.decryptPxCount.toNat = 2 := by
    rw [hone₂.decryptPxCount, hcount₁]
  have hrun : interrupts.run s₀ ([.btn stepMask 0] ++ [.btn stepMask 0]) =
      some s₂ := by
    rw [System.run_append, hrun₁]
    exact hrun₂
  have hlast := (hinside s₀ 1 _ (ready_startedWith _ (by decide)) (by decide)
    (by decide) (by decide)).last hrun
  rw [hcount₂] at hlast
  exact absurd hlast (by decide)

/-! ## RSA keys of six digits -/

def Recovers (p q e d m : Nat) : Prop :=
  ∀ (s : Nios) (hbound : s.decryptPxCount.toNat < maxRes),
    s.d.toUInt32.toNat = d → s.n.toUInt32.toNat = p * q →
    (s.shared.imageEncrypted ⟨_, hbound⟩).toNat = m ^ e % (p * q) →
    ∃ s', s.decryptPx = some s' ∧
      (s'.shared.imageEncrypted ⟨_, hbound⟩).toNat = m

/-- Decryption recovers every grey value under every key with these primes. -/
def UndoesRsa (p q : Nat) : Prop :=
  ∀ e d m : Nat, e < 2 ^ 24 → d < 2 ^ 24 → e * d ≡ 1 [MOD (p - 1) * (q - 1)] →
    m < 256 → m < p * q → Recovers p q e d m

theorem decryptPx_stores {s : Nios} (hbound : s.decryptPxCount.toNat < maxRes) :
    ∃ s', s.decryptPx = some s' ∧
      s'.shared.imageEncrypted ⟨_, hbound⟩ =
        modExp (s.shared.imageEncrypted ⟨_, hbound⟩) s.d.toUInt32
          s.n.toUInt32 := by
  obtain ⟨s', hstep, hone⟩ := Nios.decryptPx_of_lt hbound
  refine ⟨s', hstep, ?_⟩
  rw [hone.imageEncrypted, Function.update_self]

theorem undoesRsa_of_fits {p q : Nat} (hp : p.Prime) (hq : q.Prime) (hne : p ≠ q)
    (hfits : p * q ≤ 65536) : UndoesRsa p q := by
  rintro e d m - - hed - hm s hbound rfl hn hcipher
  obtain ⟨s', hstep, hstored⟩ := decryptPx_stores hbound
  refine ⟨s', hstep, ?_⟩
  rw [hstored]
  exact modExp_undoes_rsa hp hq hne hn hfits hed hm hcipher

theorem decryptPx_two_of_wide {d n : Nat} (hd : 32 ≤ d) (hd' : d < 2 ^ 24)
    (hn : 65536 < n) (hn' : n < 2 ^ 24) :
    ∃ (s s' : Nios) (hbound : s.decryptPxCount.toNat < maxRes),
      s.d.toUInt32.toNat = d ∧ s.n.toUInt32.toNat = n ∧
        s.shared.imageEncrypted ⟨_, hbound⟩ = 2 ∧ s.decryptPx = some s' ∧
        s'.shared.imageEncrypted ⟨_, hbound⟩ = 0 := by
  have hwords : (2 : Nat) ^ 24 ≤ UInt32.size := by decide
  have hd₀ : (UInt32.ofNat d).toNat = d :=
    UInt32.toNat_ofNat_of_lt' (lt_of_lt_of_le hd' hwords)
  have hn₀ : (UInt32.ofNat n).toNat = n :=
    UInt32.toNat_ofNat_of_lt' (lt_of_lt_of_le hn' hwords)
  let s := startedWith (fun _ => 2) (UInt32.ofNat d).toInt32
    (UInt32.ofNat n).toInt32 1 1
  have hbound : s.decryptPxCount.toNat < maxRes := startedWith_bound _ _ _ _ _
  obtain ⟨s', hstep, hstored⟩ := decryptPx_stores hbound
  refine ⟨s, s', hbound, hd₀, hn₀, rfl, hstep, ?_⟩
  rw [hstored]
  exact modExp_two_of_wide (lt_of_lt_of_eq hn hn₀.symm)
    (le_of_le_of_eq hd hd₀.symm)

theorem not_undoesRsa_of_wide {p q : Nat} (hp : 2 ≤ p) (hq : 2 ≤ q)
    (hkey : p * q < 2 ^ 24) (hwide : 65536 < p * q) : ¬UndoesRsa p q := by
  intro hundoes
  have hhalves : p * q ≤ 2 * (p - 1) * (2 * (q - 1)) :=
    Nat.mul_le_mul (by omega) (by omega)
  have htotient : 2 * (p - 1) * (2 * (q - 1)) = 4 * ((p - 1) * (q - 1)) := by ring
  have hbelow : (p - 1) * (q - 1) < p * q :=
    Nat.mul_lt_mul'' (by omega) (by omega)
  obtain ⟨s, s', hbound, hd, hn, hcipher, hstep, hstored⟩ :=
    decryptPx_two_of_wide (d := (p - 1) * (q - 1) + 1) (by omega) (by omega)
      hwide hkey
  have hed : 1 * ((p - 1) * (q - 1) + 1) ≡ 1 [MOD (p - 1) * (q - 1)] := by
    rw [one_mul]
    exact Nat.add_modEq_right_iff.mpr (dvd_refl _)
  have hmod : (2 : Nat) ^ 1 % (p * q) = 2 := Nat.mod_eq_of_lt (by omega)
  obtain ⟨t, hstep', hplain⟩ := hundoes 1 _ 2 (by decide) (by omega) hed
    (by decide) (by omega) s hbound hd hn (by rw [hcipher, hmod]; rfl)
  rw [hstep] at hstep'
  cases hstep'
  rw [hstored] at hplain
  exact absurd hplain (by decide)

theorem recovers_of_chainFits {p q : Nat} (hp : p.Prime) (hq : q.Prime)
    (hne : p ≠ q) (hkey : p * q < 2 ^ 24) {e d m : Nat}
    (hed : e * d ≡ 1 [MOD (p - 1) * (q - 1)]) (hm : m < p * q)
    (hfits : ChainFits (p * q) (m ^ e % (p * q)) d) : Recovers p q e d m := by
  rintro s hbound rfl hn hcipher
  obtain ⟨s', hstep, hstored⟩ := decryptPx_stores hbound
  have hone : 1 < p * q :=
    lt_of_lt_of_le hp.one_lt (Nat.le_mul_of_pos_right p hq.pos)
  rw [← hcipher] at hfits
  have hexact := (chainExact_iff hp hq hne hkey hn).mpr hfits
  refine ⟨s', hstep, ?_⟩
  rw [hstored, hexact.modExp_toNat (by omega), hn, hcipher, ← Nat.pow_mod, ← pow_mul]
  calc
    m ^ (e * s.d.toUInt32.toNat) % (p * q) = m % (p * q) :=
      rsa_pow_modEq hp hq hne hed m
    _ = m := Nat.mod_eq_of_lt hm

/--
A pixel is recovered as long as no product of its exponentiation wraps; every
product that wraps leaves a wrong residue.  No product wraps, whatever the key
and the pixel, exactly for the moduli whose squares are words.
-/
theorem decryption_undoes_rsa_iff {p q : Nat} (hp : p.Prime) (hq : q.Prime)
    (hne : p ≠ q) (hkey : p * q < 2 ^ 24) :
    (∀ e d m : Nat, e * d ≡ 1 [MOD (p - 1) * (q - 1)] → m < p * q →
      ChainFits (p * q) (m ^ e % (p * q)) d → Recovers p q e d m) ∧
    (∀ n cipher d : UInt32, n.toNat = p * q →
      (ChainExact n cipher d ↔ ChainFits (p * q) cipher.toNat d.toNat)) ∧
    (UndoesRsa p q ↔ p * q ≤ 65536) := by
  refine ⟨fun e d m hed hm hfits => recovers_of_chainFits hp hq hne hkey hed hm hfits,
    fun n cipher d hn => chainExact_iff hp hq hne hkey hn, fun hundoes => ?_,
    undoesRsa_of_fits hp hq hne⟩
  by_contra hwide
  exact not_undoesRsa_of_wide hp.two_le hq.two_le hkey (Nat.not_le.mp hwide) hundoes

theorem decryption_undoes_rsa_wide :
    ∃ s, (startedWith (fun _ => 53842) 17 66013 1 1).decryptPx = some s ∧
      (s.shared.imageEncrypted ⟨0, by decide⟩).toNat = 200 := by
  have hcipher : 200 ^ 3853 % (251 * 263) = 53842 := by decide +kernel
  have hfits : ChainFits (251 * 263) (200 ^ 3853 % (251 * 263)) 17 := by
    rw [hcipher]
    norm_num [ChainFits, chainAll_pos, chainAll_zero, FitsWord, mulModNat]
  exact (decryption_undoes_rsa_iff (by norm_num) (by norm_num) (by decide)
    (by decide)).1 3853 17 200 (by decide) (by decide) hfits
    (startedWith (fun _ => 53842) 17 66013 1 1) (startedWith_bound _ _ _ _ _) rfl rfl
    hcipher.symm

/-- For a single pixel there is no converse: these residues wrap, and meet again. -/
theorem recovered_by_accident :
    ¬ChainFits (211 * 431) (27 ^ 82091 % (211 * 431)) 11 ∧
      82091 * 11 ≡ 1 [MOD (211 - 1) * (431 - 1)] ∧
      ∃ s, (startedWith (fun _ => 74581) 11 90941 1 1).decryptPx = some s ∧
        (s.shared.imageEncrypted ⟨0, by decide⟩).toNat = 27 := by
  have hcipher : 27 ^ 82091 % (211 * 431) = 74581 := by decide +kernel
  refine ⟨?_, by decide, ?_⟩
  · rw [hcipher]
    norm_num [ChainFits, chainAll_pos, chainAll_zero, FitsWord, mulModNat]
  · obtain ⟨s, hstep, hstored⟩ := decryptPx_stores
      (startedWith_bound (fun _ => 74581) 11 90941 1 1)
    have hpow : modExp 74581 11 90941 = 27 := by
      rw [modExp, modExpLoop_eq_binaryPow, show (11 : UInt32).toNat = 11 from rfl]
      norm_num only [binaryPow_pos, binaryPow_zero, reduceIte]
      rfl
    exact ⟨s, hstep, congrArg UInt32.toNat (hstored.trans hpow)⟩

theorem decryption_loses_two :
    ¬∀ p q : Nat, p.Prime → q.Prime → p ≠ q → p * q < 2 ^ 24 → UndoesRsa p q := by
  intro hundoes
  let s := startedWith (fun _ => 2) 67073 67591 1 1
  have hbound : s.decryptPxCount.toNat < maxRes := startedWith_bound _ _ _ _ _
  have hzero : modExp 2 67073 67591 = 0 :=
    modExp_two_of_wide (by decide) (by decide)
  obtain ⟨s', hstep, hstored⟩ := decryptPx_stores hbound
  obtain ⟨t, hstep', hplain⟩ := hundoes 257 263 (by norm_num) (by norm_num)
    (by decide) (by decide) 1 67073 2 (by decide) (by decide) (by decide)
    (by decide) (by decide) s hbound rfl rfl rfl
  rw [hstep] at hstep'
  cases hstep'
  rw [hstored.trans hzero] at hplain
  exact absurd hplain (by decide)

end NiosHps.Board
