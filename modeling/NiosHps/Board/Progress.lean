import NiosHps.Board.Decryption

/-!
# Publishing the progress

The counter that the Nios advances is a static variable of its own; the field of
the same name in the shared structure is the one that the HPS and the filter
read.  No routine copies the former to the latter, so the two agree exactly as
long as nothing is decrypted.

Runs begin when `main` has registered its interrupts.  The stores of the HPS to
the shared structure are events like the interrupts, and may also come before.
-/

namespace NiosHps.Board

open NiosHps.Foundation

inductive HpsStore where
  | imageEncrypted (idx : Fin maxRes) (value : UInt32)
  | imageW (value : UInt32)
  | imageH (value : UInt32)
  | filterHpsStart (value : Int32)
  | imageCopyDone
  | hpsFilterDone

def SharedData.store (shared : SharedData) : HpsStore → SharedData
  | .imageEncrypted idx value =>
      { shared with
        imageEncrypted := Function.update shared.imageEncrypted idx value }
  | .imageW value => { shared with imageW := value }
  | .imageH value => { shared with imageH := value }
  | .filterHpsStart value => { shared with filterHpsStart := value }
  | .imageCopyDone => { shared with imageCopyDone := true }
  | .hpsFilterDone => { shared with hpsFilterDone := true }

def zeroedData : SharedData where
  imageEncrypted := fun _ => 0
  imageW := 0
  imageH := 0
  imageCopyDone := false
  decryptPxCount := 0
  decryptDone := false
  filterHpsStart := 0
  niosFilterDone := false
  hpsFilterDone := false

/-- The state in which `main` registers its interrupts, after `decrypt_wh`. -/
def startUp (stores : List HpsStore) : Nios :=
  Nios.decryptWh
    { shared := stores.foldl SharedData.store zeroedData
      d := 0
      n := 0
      width := 0
      height := 0
      current7Seg := 0
      decryptPxCount := 0
      filterPxCount := 0
      hasStarted := 0
      pio7Seg := 0
      timer1Started := false }

inductive BoardEvent where
  | interrupt (e : Interrupt)
  | hpsStore (store : HpsStore)

namespace Nios

def boardStep (s : Nios) : BoardEvent → Option Nios
  | .interrupt e => s.isr e
  | .hpsStore store => some { s with shared := s.shared.store store }

def CallsDecryptPx (s : Nios) : BoardEvent → Prop
  | .interrupt e => s.Decrypts e
  | .hpsStore _ => False

instance (s : Nios) (e : BoardEvent) : Decidable (s.CallsDecryptPx e) :=
  match e with
  | .interrupt e => inferInstanceAs (Decidable (s.Decrypts e))
  | .hpsStore _ => inferInstanceAs (Decidable False)

structure Published (s : Nios) : Prop where
  decryptPxCount : s.shared.decryptPxCount.toInt = s.decryptPxCount.toNat
  decryptDone : s.shared.imageCopyDone = true → s.area ≠ 0 →
    s.decryptPxCount = s.area → s.shared.decryptDone = true

structure Untouched (s : Nios) : Prop where
  shared : s.shared.decryptPxCount = 0
  decryptPxCount : s.decryptPxCount = 0
  area : s.area = 1

theorem Untouched.published {s : Nios} (h : s.Untouched) : s.Published where
  decryptPxCount := by
    rw [h.shared, h.decryptPxCount]
    rfl
  decryptDone _ _ hend := by
    rw [h.decryptPxCount, h.area] at hend
    exact absurd hend (by decide)

theorem store_decryptPxCount (shared : SharedData) (store : HpsStore) :
    (shared.store store).decryptPxCount = shared.decryptPxCount := by
  cases store <;> rfl

theorem Untouched.step {s s' : Nios} {e : BoardEvent} (h : s.Untouched)
    (hguard : ¬s.CallsDecryptPx e) (hstep : s.boardStep e = some s') :
    s'.Untouched := by
  cases e with
  | interrupt e =>
      rcases isr_cases hstep with ⟨hdecrypts, -⟩ | ⟨-, hsettles⟩
      · exact absurd hdecrypts hguard
      · refine ⟨?_, hsettles.decryptPxCount.trans h.decryptPxCount, ?_⟩
        · rw [hsettles.shared, h.shared]
        · rw [Nios.area, hsettles.width, hsettles.height]
          exact h.area
  | hpsStore store =>
      cases hstep
      exact ⟨(store_decryptPxCount _ _).trans h.shared, h.decryptPxCount, h.area⟩

theorem Untouched.unpublished {s : Nios} {e : BoardEvent} (h : s.Untouched)
    (hcall : s.CallsDecryptPx e) :
    ∃ s', s.boardStep e = some s' ∧ ¬s'.Published := by
  cases e with
  | interrupt e =>
      have hbound : s.decryptPxCount.toNat < maxRes := by
        rw [h.decryptPxCount]
        decide
      obtain ⟨s', hstep, hone⟩ := decryptPx_of_lt hbound
      refine ⟨s', (isr_of_decrypts hcall).trans hstep, fun hpublished => ?_⟩
      have hcount := hpublished.decryptPxCount
      rw [hone.sharedRest, hone.decryptPxCount, h.shared,
        h.decryptPxCount] at hcount
      exact absurd hcount (by decide)
  | hpsStore store => exact hcall.elim

end Nios

theorem untouched_startUp (stores : List HpsStore) :
    (startUp stores).Untouched where
  shared := by
    have hkeep : ∀ shared : SharedData, shared.decryptPxCount = 0 →
        (stores.foldl SharedData.store shared).decryptPxCount = 0 := by
      induction stores with
      | nil => exact fun _ h => h
      | cons store stores ih =>
          exact fun shared h => ih _ ((Nios.store_decryptPxCount _ _).trans h)
    exact hkeep zeroedData rfl
  decryptPxCount := rfl
  area := by
    -- with no key entered, `decrypt_wh` stores one for both dimensions
    have hone : ∀ value,
        modExp value (0 : Int32).toUInt32 (0 : Int32).toUInt32 = 1 :=
      fun value => modExp_zero value _
    simp only [startUp, Nios.decryptWh, Nios.area, hone]
    decide

def publishing : System Nios BoardEvent where
  init s := ∃ stores, s = startUp stores
  step := Nios.boardStep

theorem published_iff_nothing_decrypted {s₀ : Nios} (hinit : publishing.init s₀)
    (events : List BoardEvent) :
    publishing.AllStates Nios.Published s₀ events ↔
      publishing.AllSteps (fun s e => ¬s.CallsDecryptPx e) s₀ events := by
  obtain ⟨stores, rfl⟩ := hinit
  apply System.allStates_iff_allSteps (I := Nios.Untouched)
  · exact fun s h => h.published
  · exact fun s e s' h hguard hstep => h.step hguard hstep
  · exact fun s e h hcall => h.unpublished (not_not.mp hcall)
  · exact untouched_startUp stores

theorem published_before_step :
    publishing.AllStates Nios.Published (startUp [])
      [.hpsStore .imageCopyDone, .interrupt (.btn upMask 1),
        .interrupt (.btn shiftMask 1), .interrupt (.btn upMask 0),
        .interrupt (.btn startMask 0), .interrupt (.btn stepMask 2)] := by
  refine (published_iff_nothing_decrypted ⟨[], rfl⟩ _).mpr ?_
  exact ⟨by decide, by decide, by decide, by decide, by decide, by decide, trivial⟩

theorem step_goes_unpublished :
    ¬∀ (s₀ : Nios) (events : List BoardEvent), publishing.init s₀ →
      publishing.AllStates Nios.Published s₀ events := by
  intro hpublished
  let s₀ := startUp [.imageCopyDone]
  have hstart :
      s₀.boardStep (.interrupt (.btn startMask 0)) = some s₀.start := rfl
  have huntouched : s₀.start.Untouched :=
    (untouched_startUp [.imageCopyDone]).step (by decide) hstart
  obtain ⟨s, hstep, hunpublished⟩ := huntouched.unpublished
    (e := .interrupt (.btn stepMask 0)) (.inl ⟨by decide, rfl, rfl, by decide⟩)
  have hrun : publishing.run s₀
      [.interrupt (.btn startMask 0), .interrupt (.btn stepMask 0)] = some s :=
    System.run_cons.mpr ⟨_, hstart, System.run_cons.mpr ⟨s, hstep, rfl⟩⟩
  exact hunpublished ((hpublished s₀ _ ⟨_, rfl⟩).last hrun)

end NiosHps.Board
