import NiosHps.Board.KeyEntry

/-!
# Presses that share an interrupt

Edges that come before `btn_isr` reads the edge-capture register are reported in
one reading, the OR of their masks, and the write that follows clears them all.
The `switch` compares that reading with the mask of a single button, so presses
of different buttons that share a reading reach no `case`.
-/

namespace NiosHps.Board

open NiosHps.Foundation

inductive Button where
  | start
  | step
  | shift
  | up
  deriving DecidableEq, Repr

def Button.mask : Button → UInt32
  | .start => startMask
  | .step => stepMask
  | .shift => shiftMask
  | .up => upMask

structure Edge where
  button : Button
  pioSw : UInt32
  deriving DecidableEq, Repr

def Edge.interrupt (e : Edge) : Interrupt := .btn e.button.mask e.pioSw

/-- The edges that one reading reports, and the switches at that time. -/
structure Capture where
  edges : List Button
  pioSw : UInt32
  deriving DecidableEq, Repr

def edgeBits : List Button → UInt32
  | [] => 0
  | button :: edges => button.mask ||| edgeBits edges

namespace Capture

def register (c : Capture) : UInt32 := edgeBits c.edges

def interrupt (c : Capture) : Interrupt := .btn c.register c.pioSw

def presses (c : Capture) : List Edge := c.edges.map (⟨·, c.pioSw⟩)

end Capture

def captured : System Nios Capture where
  init _ := True
  step s c := s.isr c.interrupt

/-- An interrupt for every edge. -/
def pressed : System Nios Edge where
  init _ := True
  step s e := s.isr e.interrupt

/-- Some order of the presses, one at a time, leaves what the captures leave. -/
def LosesNothing (s : Nios) (captures : List Capture) : Prop :=
  ∃ order, order.Perm (captures.flatMap Capture.presses) ∧
    pressed.run s order = captured.run s captures

def Nios.Idle (s : Nios) (pioSw : UInt32) : Button → Prop
  | .start => s.hasStarted = 1 ∧ s.timer1Started = true ∧ s.pio7Seg = 0
  | .step =>
      ¬(s.hasStarted = 1 ∧ s.isImageCopyDone = true ∧
        getMode pioSw = manualMode)
  | .shift => s.hasStarted ≠ 0
  | .up => s.hasStarted ≠ 0

def Nios.Lossless (s : Nios) (c : Capture) : Prop :=
  c.edges.length ≤ 1 ∨ (∀ button ∈ c.edges, s.Idle c.pioSw button) ∨
    ∀ button ∈ c.edges, button = .start

/-! ## What the register shows -/

theorem Button.mask_and_action (button : Button) :
    button.mask &&& actionBtnMask = button.mask := by
  cases button <;> rfl

theorem Button.mask_and_mask (first second : Button) :
    first.mask &&& second.mask = if first = second then first.mask else 0 := by
  cases first <;> cases second <;> rfl

theorem register_and_mask (edges : List Button) (button : Button) :
    edgeBits edges &&& button.mask =
      if button ∈ edges then button.mask else 0 := by
  induction edges with
  | nil => simp [edgeBits]
  | cons first edges ih =>
      have hdistrib : (first.mask ||| edgeBits edges) &&& button.mask =
          (first.mask &&& button.mask) ||| (edgeBits edges &&& button.mask) :=
        UInt32.toBitVec_inj.mp BitVec.and_or_distrib_right
      rw [edgeBits, hdistrib, ih, Button.mask_and_mask]
      by_cases hfirst : first = button
      · subst hfirst
        rw [if_pos rfl, if_pos List.mem_cons_self]
        split_ifs
        · exact UInt32.or_self
        · exact UInt32.or_zero
      · simp [hfirst, Ne.symm hfirst]

theorem eq_of_register {edges : List Button} {button first : Button}
    (hregister : edgeBits edges &&& actionBtnMask = button.mask)
    (hfirst : first ∈ edges) : first = button := by
  have hbit := register_and_mask edges first
  rw [if_pos hfirst, ← Button.mask_and_action first, UInt32.and_comm first.mask,
    ← UInt32.and_assoc, hregister, UInt32.and_comm actionBtnMask,
    Button.mask_and_action, Button.mask_and_mask] at hbit
  by_cases heq : button = first
  · exact heq.symm
  · rw [if_neg heq] at hbit
    cases first <;> exact absurd hbit.symm (by decide)

theorem register_eq_mask {edges : List Button} {button : Button}
    (hmem : button ∈ edges) (hall : ∀ first ∈ edges, first = button) :
    edgeBits edges = button.mask := by
  induction edges with
  | nil => cases hmem
  | cons first edges ih =>
      have hfirst : first = button := hall first (by simp)
      have hrest : ∀ other ∈ edges, other = button := fun other hother =>
        hall other (by simp [hother])
      rw [edgeBits, hfirst]
      cases edges with
      | nil => simp [edgeBits]
      | cons second edges =>
          have hsecond : second = button := hrest second (by simp)
          rw [ih (by simp [hsecond]) hrest, UInt32.or_self]

theorem captured_of_register_ne (s : Nios) {c : Capture}
    (hnone : ∀ button : Button, c.register &&& actionBtnMask ≠ button.mask) :
    captured.step s c = some s :=
  s.isr_no_button c.pioSw (hnone .up) (hnone .shift) (hnone .step) (hnone .start)

theorem captured_of_ne (s : Nios) {c : Capture} {first second : Button}
    (hfirst : first ∈ c.edges) (hsecond : second ∈ c.edges)
    (hne : first ≠ second) : captured.step s c = some s := by
  apply captured_of_register_ne s
  intro button hregister
  apply hne
  rw [eq_of_register hregister hfirst, eq_of_register hregister hsecond]

theorem captured_cases (s : Nios) (c : Capture) :
    (c.edges = [] ∧ captured.step s c = some s) ∨
    (∃ button ∈ c.edges, (∀ other ∈ c.edges, other = button) ∧
      captured.step s c = pressed.step s ⟨button, c.pioSw⟩) ∨
    ((∃ first ∈ c.edges, ∃ second ∈ c.edges, first ≠ second) ∧
      captured.step s c = some s) := by
  rcases c with ⟨edges, pioSw⟩
  cases edges with
  | nil =>
      left
      refine ⟨rfl, captured_of_register_ne s fun button => ?_⟩
      rw [Capture.register, edgeBits]
      cases button <;> decide
  | cons button edges =>
      right
      by_cases hall : ∀ other ∈ edges, other = button
      · left
        have hevery : ∀ other ∈ button :: edges, other = button := by
          simpa using hall
        refine ⟨button, by simp, hevery, ?_⟩
        have hregister := register_eq_mask (by simp) hevery
        simp only [captured, pressed, Capture.interrupt, Edge.interrupt,
          Capture.register, hregister]
      · right
        push Not at hall
        obtain ⟨other, hother, hne⟩ := hall
        have hmem : other ∈ button :: edges := List.mem_cons_of_mem _ hother
        refine ⟨⟨other, hmem, button, by simp, hne⟩, ?_⟩
        exact captured_of_ne s hmem List.mem_cons_self hne

/-! ## Captures that lose nothing -/

section Pressed

variable (s : Nios) (pioSw : UInt32)

theorem pressed_start :
    pressed.step s ⟨.start, pioSw⟩ = some s.start :=
  s.isr_start pioSw (Button.mask_and_action .start)

theorem pressed_step :
    pressed.step s ⟨.step, pioSw⟩ =
      if s.hasStarted = 1 ∧ s.isImageCopyDone ∧ getMode pioSw = manualMode then
        s.decryptPx
      else some s :=
  s.isr_step pioSw (Button.mask_and_action .step)

theorem pressed_shift :
    pressed.step s ⟨.shift, pioSw⟩ =
      if s.hasStarted = 0 then some s.shift else some s :=
  s.isr_shift pioSw (Button.mask_and_action .shift)

theorem pressed_up :
    pressed.step s ⟨.up, pioSw⟩ =
      if s.hasStarted = 0 then some (s.increase pioSw) else some s :=
  s.isr_up pioSw (Button.mask_and_action .up)

variable {s pioSw}

theorem start_of_idle (h : s.Idle pioSw .start) : s.start = s := by
  rcases h with ⟨hstarted, htimer, hshown⟩
  cases s
  simp_all [Nios.start, Nios.show7Seg]

theorem pressed_of_idle {button : Button} (h : s.Idle pioSw button) :
    pressed.step s ⟨button, pioSw⟩ = some s := by
  cases button with
  | start => rw [pressed_start, start_of_idle h]
  | step => rw [pressed_step, if_neg h]
  | shift => rw [pressed_shift, if_neg h]
  | up => rw [pressed_up, if_neg h]

theorem run_of_idle {buttons : List Button}
    (h : ∀ button ∈ buttons, s.Idle pioSw button) :
    pressed.run s (buttons.map (⟨·, pioSw⟩)) = some s := by
  induction buttons with
  | nil => rfl
  | cons button buttons ih =>
      rw [List.map_cons, System.run, pressed_of_idle (h button (by simp))]
      exact ih fun other hother => h other (by simp [hother])

theorem run_of_start {buttons : List Button} (hne : buttons ≠ [])
    (h : ∀ button ∈ buttons, button = .start) :
    pressed.run s (buttons.map (⟨·, pioSw⟩)) = some s.start := by
  induction buttons generalizing s with
  | nil => exact absurd rfl hne
  | cons button buttons ih =>
      rw [List.map_cons, System.run, h button (by simp), pressed_start]
      cases buttons with
      | nil => rfl
      | cons second buttons =>
          exact ih (s := s.start) (by simp) fun other hother =>
            h other (by simp [hother])

end Pressed

theorem eq_singleton_of_mem {edges : List Button} {button : Button}
    (hshort : edges.length ≤ 1) (hmem : button ∈ edges) : edges = [button] := by
  cases edges with
  | nil => cases hmem
  | cons first edges =>
      have hnil : edges = [] := by simpa using hshort
      rw [hnil, List.mem_singleton] at hmem
      rw [hnil, hmem]

theorem Nios.Lossless.run {s : Nios} {c : Capture} (h : s.Lossless c) :
    pressed.run s c.presses = captured.step s c := by
  rcases captured_cases s c with
    ⟨hempty, hcaptured⟩ | ⟨button, hmem, hall, hcaptured⟩ |
      ⟨⟨first, hfirst, second, hsecond, hne⟩, hcaptured⟩
  -- no edge, edges of one button, and the reading that is dropped
  · rw [hcaptured, Capture.presses, hempty]
    rfl
  · rw [hcaptured, Capture.presses]
    rcases h with hshort | hidle | hstart
    · rw [eq_singleton_of_mem hshort hmem]
      simp [System.run]
    · rw [run_of_idle hidle, pressed_of_idle (hidle button hmem)]
    · rw [run_of_start (List.ne_nil_of_mem hmem) hstart, hstart button hmem,
        pressed_start]
  · rw [hcaptured, Capture.presses]
    rcases h with hshort | hidle | hstart
    · rw [eq_singleton_of_mem hshort hfirst, List.mem_singleton] at hsecond
      exact absurd hsecond.symm hne
    · exact run_of_idle hidle
    · exact absurd ((hstart first hfirst).trans (hstart second hsecond).symm) hne

theorem losesNothing_of_lossless {s : Nios} {captures : List Capture}
    (h : captured.AllSteps Nios.Lossless s captures) :
    LosesNothing s captures :=
  ⟨captures.flatMap Capture.presses, .refl _,
    h.run_flatMap fun _ _ hlossless => hlossless.run⟩

/-! ## What a lost press would have changed -/

def Button.Kept (s t : Nios) : Button → Prop
  | .start => t.hasStarted = s.hasStarted
  | .step => t.decryptPxCount = s.decryptPxCount
  | .shift => t.current7Seg = s.current7Seg
  | .up => t.d = s.d ∧ t.n = s.n

theorem Button.Kept.refl (s : Nios) (button : Button) : button.Kept s s := by
  cases button with
  | start => rfl
  | step => rfl
  | shift => rfl
  | up => exact ⟨rfl, rfl⟩

theorem Button.Kept.symm {s t : Nios} {button : Button}
    (h : button.Kept s t) : button.Kept t s := by
  cases button with
  | start => exact Eq.symm h
  | step => exact Eq.symm h
  | shift => exact Eq.symm h
  | up => exact ⟨h.1.symm, h.2.symm⟩

theorem Button.Kept.trans {s t u : Nios} {button : Button}
    (h : button.Kept s t) (h' : button.Kept t u) : button.Kept s u := by
  cases button with
  | start => exact Eq.trans h' h
  | step => exact Eq.trans h' h
  | shift => exact Eq.trans h' h
  | up => exact ⟨h'.1.trans h.1, h'.2.trans h.2⟩

section Kept

variable {s t : Nios} {pioSw : UInt32} {button : Button}

theorem kept_decryptPx (hdecrypt : s.decryptPx = some t)
    (hne : button ≠ .step) : button.Kept s t := by
  have hone := Nios.decryptPx_eq_some hdecrypt
  cases button with
  | start => exact hone.hasStarted
  | step => exact absurd rfl hne
  | shift => exact Nios.decryptPx_current7Seg hdecrypt
  | up => exact ⟨hone.d, hone.n⟩

theorem kept_increase (hne : button ≠ .up) :
    button.Kept s (s.increase pioSw) := by
  unfold Nios.increase
  cases button with
  | up => exact absurd rfl hne
  | start => split_ifs <;> rfl
  | step => split_ifs <;> rfl
  | shift => split_ifs <;> rfl

theorem kept_of_pressed {other : Button}
    (hpressed : pressed.step s ⟨other, pioSw⟩ = some t)
    (hne : button ≠ other) : button.Kept s t := by
  cases other with
  | start =>
      rw [pressed_start] at hpressed
      cases hpressed
      cases button with
      | start => exact absurd rfl hne
      | step => rfl
      | shift => rfl
      | up => exact ⟨rfl, rfl⟩
  | step =>
      rw [pressed_step] at hpressed
      split_ifs at hpressed
      · exact kept_decryptPx hpressed hne
      · cases hpressed
        exact .refl _ button
  | shift =>
      rw [pressed_shift] at hpressed
      split_ifs at hpressed
      · cases hpressed
        cases button with
        | start => rfl
        | step => rfl
        | shift => exact absurd rfl hne
        | up => exact ⟨rfl, rfl⟩
      · cases hpressed
        exact .refl _ button
  | up =>
      rw [pressed_up] at hpressed
      split_ifs at hpressed
      · cases hpressed
        exact kept_increase hne
      · cases hpressed
        exact .refl _ button

theorem kept_of_run {buttons : List Button}
    (hrun : pressed.run s (buttons.map (⟨·, pioSw⟩)) = some t)
    (hnot : button ∉ buttons) : button.Kept s t := by
  induction buttons generalizing s with
  | nil =>
      cases hrun
      exact .refl _ button
  | cons other buttons ih =>
      rw [List.mem_cons, not_or] at hnot
      obtain ⟨s', hstep, hrest⟩ := System.run_cons.mp hrun
      exact (kept_of_pressed hstep hnot.1).trans (ih hrest hnot.2)

theorem ready_of_run {edges : List Edge} (hrun : pressed.run s edges = some t) :
    t.isImageCopyDone = s.isImageCopyDone ∧
      (s.hasStarted = 1 → t.hasStarted = 1) := by
  induction edges generalizing s with
  | nil =>
      cases hrun
      exact ⟨rfl, id⟩
  | cons edge edges ih =>
      obtain ⟨s', hstep, hrest⟩ := System.run_cons.mp hrun
      obtain ⟨hcopied, hstarted⟩ := ih hrest
      have hisr : s.isr edge.interrupt = some s' := hstep
      rcases Nios.isr_cases hisr with ⟨-, hone⟩ | ⟨-, hsettles⟩
      · refine ⟨?_, fun h => hstarted (hone.hasStarted.trans h)⟩
        rw [hcopied, Nios.isImageCopyDone, hone.sharedRest]
        rfl
      · refine ⟨?_, fun h => hstarted (hsettles.key h).1⟩
        rw [hcopied, Nios.isImageCopyDone, hsettles.shared]
        rfl

theorem increaseDigit_ne (number : Int32) {cursor : UInt32}
    (hcursor : cursor.toNat < 6) :
    increaseDigit number cursor.toInt32 ≠ number := by
  intro hsame
  have hdigit := hexDigit_increaseDigit number hcursor cursor.toNat
  rw [UInt32.ofNat_toNat, hsame, if_pos rfl] at hdigit
  exact absurd (left_eq_add.mp hdigit) (by decide)

theorem idle_of_kept_step (hstep : pressed.step s ⟨.step, pioSw⟩ = some t)
    (hkept : Button.step.Kept s t) : s.Idle pioSw .step := by
  intro hready
  rw [pressed_step, if_pos hready] at hstep
  have hcount := (Nios.decryptPx_eq_some hstep).decryptPxCount
  rw [show t.decryptPxCount = s.decryptPxCount from hkept] at hcount
  omega

theorem idle_of_kept_shift (hstep : pressed.step s ⟨.shift, pioSw⟩ = some t)
    (hkept : Button.shift.Kept s t) : s.Idle pioSw .shift := by
  intro hstopped
  rw [pressed_shift, if_pos hstopped] at hstep
  cases hstep
  change (if s.current7Seg = last7Seg then 0 else s.current7Seg + 1) =
    s.current7Seg at hkept
  split_ifs at hkept with hlast
  · rw [hlast] at hkept
    exact absurd hkept (by decide)
  · exact absurd (UInt32.add_eq_left.mp hkept) (by decide)

theorem idle_of_kept_up (hstep : pressed.step s ⟨.up, pioSw⟩ = some t)
    (hkept : Button.up.Kept s t) (hcursor : s.current7Seg.toNat < 6) :
    s.Idle pioSw .up := by
  intro hstopped
  rw [pressed_up, if_pos hstopped] at hstep
  cases hstep
  by_cases hkey : Nios.keySelected pioSw
  · apply increaseDigit_ne s.d hcursor
    have hd := hkept.1
    rw [Nios.increase, if_pos hkey] at hd
    exact hd
  · apply increaseDigit_ne s.n hcursor
    have hn := hkept.2
    rw [Nios.increase, if_neg hkey] at hn
    exact hn

theorem exists_press {buttons : List Button} (hnodup : buttons.Nodup)
    (hmem : button ∈ buttons)
    (hrun : pressed.run s (buttons.map (⟨·, pioSw⟩)) = some s) :
    ∃ before after u v, buttons = before ++ button :: after ∧
      button ∉ before ∧ button ∉ after ∧
      pressed.run s (before.map (⟨·, pioSw⟩)) = some u ∧
      pressed.step u ⟨button, pioSw⟩ = some v ∧
      pressed.run v (after.map (⟨·, pioSw⟩)) = some s ∧ button.Kept u v := by
  obtain ⟨before, after, rfl⟩ := List.append_of_mem hmem
  have hbefore : button ∉ before := by
    intro hbefore
    exact List.disjoint_of_nodup_append hnodup hbefore List.mem_cons_self
  have hafter : button ∉ after := (List.nodup_cons.mp hnodup.of_append_right).1
  rw [List.map_append, List.map_cons, System.run_append_cons] at hrun
  obtain ⟨u, v, hfirst, hstep, hlast⟩ := hrun
  have hback : button.Kept v u :=
    (kept_of_run hlast hafter).trans (kept_of_run hfirst hbefore)
  exact ⟨before, after, u, v, rfl, hbefore, hafter, hfirst, hstep, hlast,
    hback.symm⟩

variable {buttons : List Button} (hnodup : buttons.Nodup)
  (hrun : pressed.run s (buttons.map (⟨·, pioSw⟩)) = some s)

include hnodup hrun

theorem started_of_run (hmem : .start ∈ buttons) : s.hasStarted = 1 := by
  obtain ⟨_, _, u, v, -, hbefore, -, hfirst, hstep, -, hkept⟩ :=
    exists_press hnodup hmem hrun
  have hu : u.hasStarted = s.hasStarted := kept_of_run hfirst hbefore
  have hv : v.hasStarted = u.hasStarted := hkept
  rw [pressed_start] at hstep
  cases hstep
  exact (hv.trans hu).symm

theorem step_idle_of_run (hmem : .step ∈ buttons) : s.Idle pioSw .step := by
  obtain ⟨_, _, u, v, -, -, -, hfirst, hstep, -, hkept⟩ :=
    exists_press hnodup hmem hrun
  obtain ⟨hcopied, hstarted⟩ := ready_of_run hfirst
  rintro ⟨hone, hcopy, hmode⟩
  exact idle_of_kept_step hstep hkept
    ⟨hstarted hone, hcopied.trans hcopy, hmode⟩

theorem start_not_mem_of_run (hstopped : s.hasStarted = 0) :
    .start ∉ buttons := by
  intro hstart
  have hstarted := started_of_run hnodup hrun hstart
  exact Nios.hasStarted_ne_zero hstarted hstopped

theorem shift_idle_of_run (hmem : .shift ∈ buttons) :
    s.Idle pioSw .shift := by
  intro hstopped
  have hstart := start_not_mem_of_run hnodup hrun hstopped
  obtain ⟨before, after, u, v, rfl, -, -, hfirst, hstep, -, hkept⟩ :=
    exists_press hnodup hmem hrun
  have hbefore : .start ∉ before := fun h => hstart (List.mem_append_left _ h)
  have hu : u.hasStarted = s.hasStarted := kept_of_run hfirst hbefore
  exact idle_of_kept_shift hstep hkept (hu.trans hstopped)

theorem up_idle_of_run (hcursor : s.current7Seg.toNat < 6)
    (hmem : .up ∈ buttons) : s.Idle pioSw .up := by
  intro hstopped
  have hstart := start_not_mem_of_run hnodup hrun hstopped
  have hshift : .shift ∉ buttons := fun h =>
    shift_idle_of_run hnodup hrun h hstopped
  obtain ⟨before, after, u, v, rfl, -, -, hfirst, hstep, -, hkept⟩ :=
    exists_press hnodup hmem hrun
  have hstart' : .start ∉ before := fun h => hstart (List.mem_append_left _ h)
  have hshift' : .shift ∉ before := fun h => hshift (List.mem_append_left _ h)
  have hu : u.hasStarted = s.hasStarted := kept_of_run hfirst hstart'
  have hu' : u.current7Seg = s.current7Seg := kept_of_run hfirst hshift'
  rw [← hu'] at hcursor
  exact idle_of_kept_up hstep hkept hcursor (hu.trans hstopped)

theorem start_idle_of_run (hmem : .start ∈ buttons) :
    s.Idle pioSw .start := by
  have hstarted := started_of_run hnodup hrun hmem
  have hidle := step_idle_of_run hnodup hrun
  obtain ⟨before, after, u, v, rfl, -, hafter, -, hstep, hlast, -⟩ :=
    exists_press hnodup hmem hrun
  obtain ⟨hcopied, -⟩ := ready_of_run hlast
  rw [pressed_start] at hstep
  cases hstep
  -- the STEP was idle from the first state on, and so it is now
  have hrest : ∀ button ∈ after, u.start.Idle pioSw button := by
    intro button hbutton
    cases button with
    | start => exact absurd hbutton hafter
    | step =>
        rintro ⟨-, hcopy, hmode⟩
        have hs : s.Idle pioSw .step := hidle (by simp [hbutton])
        exact hs ⟨hstarted, hcopied.trans hcopy, hmode⟩
    | shift => exact Nios.hasStarted_ne_zero rfl
    | up => exact Nios.hasStarted_ne_zero rfl
  rw [run_of_idle hrest] at hlast
  cases hlast
  exact ⟨rfl, rfl, rfl⟩

theorem idle_of_run (hcursor : s.current7Seg.toNat < 6) :
    ∀ button ∈ buttons, s.Idle pioSw button := by
  intro button hmem
  cases button with
  | start => exact start_idle_of_run hnodup hrun hmem
  | step => exact step_idle_of_run hnodup hrun hmem
  | shift => exact shift_idle_of_run hnodup hrun hmem
  | up => exact up_idle_of_run hnodup hrun hcursor hmem

end Kept

theorem captured_of_nodup (s : Nios) {c : Capture} (hnodup : c.edges.Nodup)
    (hlong : ¬c.edges.length ≤ 1) : captured.step s c = some s := by
  rcases captured_cases s c with
    ⟨-, hcaptured⟩ | ⟨button, -, hall, -⟩ | ⟨-, hcaptured⟩
  · exact hcaptured
  · have hsubset : c.edges ⊆ [button] := fun other hother => by
      simp [hall other hother]
    exact absurd (hnodup.subperm hsubset).length_le hlong
  · exact hcaptured

theorem map_button_of_perm {c : Capture} {order : List Edge}
    (hperm : order.Perm c.presses) :
    (order.map Edge.button).Perm c.edges ∧
      (order.map Edge.button).map (⟨·, c.pioSw⟩) = order := by
  constructor
  · simpa [Capture.presses, Function.comp_def] using hperm.map Edge.button
  · rw [List.map_map]
    calc
      order.map ((⟨·, c.pioSw⟩) ∘ Edge.button) = order.map id := by
        apply List.map_congr_left
        intro edge hedge
        have hpress := hperm.subset hedge
        simp only [Capture.presses, List.mem_map] at hpress
        obtain ⟨button, -, rfl⟩ := hpress
        rfl
      _ = order := List.map_id order

theorem losesNothing_singleton_iff {s : Nios} {c : Capture}
    (hnodup : c.edges.Nodup) (hcursor : s.current7Seg.toNat < 6) :
    LosesNothing s [c] ↔ s.Lossless c := by
  constructor
  · rintro ⟨order, hperm, hrun⟩
    by_cases hshort : c.edges.length ≤ 1
    · exact Or.inl hshort
    right
    left
    -- the reading was dropped, so the presses have to lead back to `s`
    rw [List.flatMap_singleton] at hperm
    obtain ⟨hbuttons, horder⟩ := map_button_of_perm hperm
    rw [← horder, System.run, captured_of_nodup s hnodup hshort] at hrun
    have hidle := idle_of_run (hbuttons.nodup_iff.mpr hnodup) hrun hcursor
    intro button hmem
    exact hidle button (hbuttons.mem_iff.mpr hmem)
  · intro hlossless
    apply losesNothing_of_lossless
    exact System.allSteps_cons.mpr ⟨hlossless, fun _ _ => trivial⟩

/--
A sequence of interrupts of which each one has a single edge, or edges that
change nothing in its state, or no edge but START, loses no press.  Of a single
interrupt that reports each button at most once, nothing else is lossless.
-/
theorem captured_presses_kept (s : Nios) (captures : List Capture) :
    (captured.AllSteps Nios.Lossless s captures → LosesNothing s captures) ∧
    ∀ c : Capture, c.edges.Nodup → s.current7Seg.toNat < 6 →
      (LosesNothing s [c] ↔ s.Lossless c) := by
  constructor
  · intro hlossless
    exact losesNothing_of_lossless hlossless
  · intro c hnodup hcursor
    exact losesNothing_singleton_iff hnodup hcursor

theorem captured_presses_kept_start :
    LosesNothing (startUp []) [⟨[.up], 1⟩, ⟨[.shift], 0⟩, ⟨[.start, .start], 0⟩] ∧
    ¬LosesNothing (startUp []) [⟨[.up, .shift], 0⟩] := by
  constructor
  · refine (captured_presses_kept _ _).1 ⟨.inl (by decide), .inl (by decide), ?_,
      trivial⟩
    exact .inr (.inr (by decide))
  · intro hkept
    have hlossless := ((captured_presses_kept (startUp []) []).2
      ⟨[.up, .shift], 0⟩ (by decide) (by decide)).mp hkept
    rcases hlossless with hshort | hidle | hstart
    · exact absurd hshort (by decide)
    · exact hidle .up (by simp) rfl
    · exact absurd (hstart .up (by simp)) (by decide)

theorem up_and_shift_lost :
    ¬∀ (s : Nios) (captures : List Capture), LosesNothing s captures := by
  intro hkept
  have hlossless : (startUp []).Lossless ⟨[.up, .shift], 0⟩ :=
    (losesNothing_singleton_iff (by decide) (by decide)).mp (hkept _ _)
  rcases hlossless with hshort | hidle | hstart
  · exact absurd hshort (by decide)
  · exact hidle .up (by simp) rfl
  · exact absurd (hstart .up (by simp)) (by decide)

end NiosHps.Board
