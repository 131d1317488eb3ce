import NiosHps.Simulator.Protocol

/-!
# The threads of the simulator (`filtro/src/main.c`, `timer.c`, `memory.c`)

The main thread and the two timer threads share the header and one block of
memory.  One event is one step of one thread: a read of the header, one call of
`filter_pixel` with the store of its result, or the end of a tick.  So any
number of decryption steps and of pixels of the other core may fall between two
steps of a tick.  Calls of `filter_pixel` that overlap share its static array;
they are the subject of `Filter.StaticPixels` and do not occur here.

`written` records the stores of `apply_filter`; no step reads it.
-/

namespace NiosHps.Simulator

open NiosHps.Foundation
open NiosHps.Filter

/-- `sizeof(struct shared_header)`: seven words, the flags padded. -/
def decryptedImageSector : Nat := 28

def decryptedSectorSize : Nat := 0x2800000

def filteredImageSector : Nat := decryptedImageSector + decryptedSectorSize

inductive Thread where
  | main
  | soft
  | hard
  deriving DecidableEq, Repr

/-- The main thread is about to start a core, decrypts, waits, or has saved. -/
inductive MainPc where
  | startSoft
  | startHard
  | decrypting
  | waiting
  | saved
  deriving DecidableEq, Repr

inductive SoftPc where
  | notStarted
  | sleeping
  | filtering (idx last : Nat) (numPixels : Int)
  | exited
  deriving DecidableEq, Repr

/--
The hard tick reads `decrypt_px_count` twice and `decrypt_done` after that, so
it has two more places to be interrupted.
-/
inductive HardPc where
  | notStarted
  | sleeping
  | counting
  | testing (unfilteredDecryptedPxCount : Int)
  | filtering (idx last : Nat) (numPixels : Int)
  | exited
  deriving DecidableEq, Repr

structure Threads where
  process : Process
  sdram : Nat → UInt8
  main : MainPc
  soft : SoftPc
  hard : HardPc
  written : List Nat

namespace Threads

abbrev header (t : Threads) : SharedHeader := t.process.header

def setHeader (t : Threads) (header : SharedHeader) : Threads :=
  { t with process := { t.process with header := header } }

/-- One iteration of the loop of `apply_filter`. -/
def filterAt (conv : FloatToU8) (t : Threads) (idx : Nat) : Threads :=
  let pixel := filterPixel conv (fun i => t.sdram (decryptedImageSector + i)) idx
    t.header.imageW.toNat t.header.imageH.toNat
  { t with
    sdram := Function.update t.sdram (filteredImageSector + idx) pixel
    written := idx :: t.written }

def mainStep (t : Threads) : Option Threads :=
  match t.main with
  | .startSoft => some { t with main := .startHard, soft := .sleeping }
  | .startHard =>
      if hardStarted t.header then
        some { t with main := .decrypting, hard := .sleeping }
      else some { t.setHeader (startHard t.header) with main := .decrypting }
  | .decrypting =>
      match mainLoopSoftCore t.header with
      | some header => some (t.setHeader header)
      | none => some { t with main := .waiting }
  | .waiting =>
      if t.header.niosFilterDone ∧ t.header.hpsFilterDone then
        some { t with main := .saved }
      else some t
  | .saved => none

def softStep (conv : FloatToU8) (t : Threads) : Option Threads :=
  match t.soft with
  | .notStarted | .exited => none
  | .sleeping =>
      let startIdx := t.process.softFilterPxCount
      let numPixels := softNumPixelsToFilter t.header startIdx
      some
        { t with
          soft := .filtering startIdx.toNat (startIdx.toNat + numPixels.toNat)
            numPixels }
  | .filtering idx last numPixels =>
      if idx < last then
        some { t.filterAt conv idx with soft := .filtering (idx + 1) last numPixels }
      else
        let softFilterPxCount := t.process.softFilterPxCount + numPixels
        some
          { t with
            process :=
              { t.process with
                header := softFinish t.header softFilterPxCount
                softFilterPxCount := softFilterPxCount }
            soft :=
              if softFilterPxCount = t.header.filterHpsStart then .exited
              else .sleeping }

def hardStep (conv : FloatToU8) (t : Threads) : Option Threads :=
  match t.hard with
  | .notStarted | .exited => none
  | .sleeping =>
      if t.header.decryptPxCount < t.header.filterHpsStart then some t
      else some { t with hard := .counting }
  | .counting =>
      some
        { t with
          hard := .testing (hardUnfiltered t.header t.process.hardFilterPxCount) }
  | .testing unfilteredDecryptedPxCount =>
      let startIdx := t.header.filterHpsStart + t.process.hardFilterPxCount
      let numPixels := hardNumPixelsToFilter t.header unfilteredDecryptedPxCount
      some
        { t with
          hard := .filtering startIdx.toNat (startIdx.toNat + numPixels.toNat)
            numPixels }
  | .filtering idx last numPixels =>
      if idx < last then
        some { t.filterAt conv idx with hard := .filtering (idx + 1) last numPixels }
      else
        let hardFilterPxCount := t.process.hardFilterPxCount + numPixels
        some
          { t with
            process :=
              { t.process with
                header := hardFinish t.header hardFilterPxCount
                hardFilterPxCount := hardFilterPxCount }
            hard :=
              if t.header.filterHpsStart + hardFilterPxCount =
                  t.header.imageW * t.header.imageH then .exited
              else .sleeping }

def step (conv : FloatToU8) (t : Threads) : Thread → Option Threads
  | .main => t.mainStep
  | .soft => t.softStep conv
  | .hard => t.hardStep conv

end Threads

/-- The memory that `load_data` leaves: the pixels in their sector, else zero. -/
def loadedSdram (load : Load) (pixels : Nat → UInt8) : Nat → UInt8 := fun i =>
  if decryptedImageSector ≤ i ∧ i < decryptedImageSector + load.total then
    pixels (i - decryptedImageSector)
  else 0

def Load.threads (load : Load) (pixels : Nat → UInt8) : Threads where
  process := load.loaded
  sdram := loadedSdram load pixels
  main := .startSoft
  soft := .notStarted
  hard := .notStarted
  written := []

def simulator (conv : FloatToU8) (load : Load) (pixels : Nat → UInt8) :
    System Threads Thread where
  init t := t = load.threads pixels
  step := Threads.step conv

/-! ## Where the threads can be -/

def SoftPc.Valid (load : Load) (p : Process) : SoftPc → Prop
  | .notStarted | .sleeping => p.header.niosFilterDone = false
  | .filtering idx last numPixels =>
      p.header.niosFilterDone = false ∧
      p.softFilterPxCount ≤ idx ∧ idx ≤ last ∧
      p.softFilterPxCount + numPixels = last ∧
      (last : Int) ≤ min p.header.decryptPxCount load.split
  | .exited => p.header.niosFilterDone = true

def HardPc.Valid (load : Load) (p : Process) : HardPc → Prop
  | .notStarted => p.hardFilterPxCount = 0
  | .sleeping => p.header.hpsFilterDone = false
  | .counting =>
      p.header.hpsFilterDone = false ∧
      (load.split : Int) ≤ p.header.decryptPxCount
  | .testing unfilteredDecryptedPxCount =>
      p.header.hpsFilterDone = false ∧
      0 ≤ unfilteredDecryptedPxCount ∧
      load.split + p.hardFilterPxCount + unfilteredDecryptedPxCount ≤
        p.header.decryptPxCount
  | .filtering idx last numPixels =>
      p.header.hpsFilterDone = false ∧
      load.split + p.hardFilterPxCount ≤ idx ∧ idx ≤ last ∧
      load.split + p.hardFilterPxCount + numPixels = last ∧
      (last : Int) ≤ p.header.decryptPxCount
  | .exited => p.header.hpsFilterDone = true

def MainPc.Valid (p : Process) (soft : SoftPc) (hard : HardPc) : MainPc → Prop
  | .startSoft =>
      soft = .notStarted ∧ hard = .notStarted ∧ p.header.hpsFilterDone = false
  | .startHard => hard = .notStarted ∧ p.header.hpsFilterDone = false
  | _ => True

structure Threads.Valid (load : Load) (t : Threads) : Prop where
  consistent : Consistent load t.process
  main : t.main.Valid t.process t.soft t.hard
  soft : t.soft.Valid load t.process
  hard : t.hard.Valid load t.process

theorem SoftPc.Valid.frame {load : Load} {p p' : Process} {pc : SoftPc}
    (h : pc.Valid load p) (hcount : p'.softFilterPxCount = p.softFilterPxCount)
    (hflag : p'.header.niosFilterDone = p.header.niosFilterDone)
    (hdecrypt : p.header.decryptPxCount ≤ p'.header.decryptPxCount) :
    pc.Valid load p' := by
  cases pc <;> simp only [SoftPc.Valid, hcount, hflag] at h ⊢
  case filtering =>
    refine ⟨h.1, ?_⟩
    omega
  all_goals exact h

theorem HardPc.Valid.frame {load : Load} {p p' : Process} {pc : HardPc}
    (h : pc.Valid load p) (hcount : p'.hardFilterPxCount = p.hardFilterPxCount)
    (hflag : p'.header.hpsFilterDone = p.header.hpsFilterDone)
    (hdecrypt : p.header.decryptPxCount ≤ p'.header.decryptPxCount) :
    pc.Valid load p' := by
  cases pc <;> simp only [HardPc.Valid, hcount, hflag] at h ⊢
  case notStarted => exact h
  case sleeping => exact h
  case exited => exact h
  all_goals
    refine ⟨h.1, ?_⟩
    omega

theorem MainPc.Valid.soft_moved {p p' : Process} {pc : MainPc}
    {soft soft' : SoftPc} {hard : HardPc} (h : pc.Valid p soft hard)
    (hrunning : soft ≠ .notStarted)
    (hflag : p'.header.hpsFilterDone = p.header.hpsFilterDone) :
    pc.Valid p' soft' hard := by
  cases pc <;> simp only [MainPc.Valid, hflag] at h ⊢
  · exact absurd h.1 hrunning
  · exact h

theorem MainPc.Valid.hard_moved {p p' : Process} {pc : MainPc}
    {soft soft' : SoftPc} {hard hard' : HardPc} (h : pc.Valid p soft hard)
    (hrunning : hard ≠ .notStarted) : pc.Valid p' soft' hard' := by
  cases pc <;> simp only [MainPc.Valid] at h ⊢
  · exact absurd h.2.1 hrunning
  · exact absurd h.1 hrunning

theorem mainLoopSoftCore_frame {header header' : SharedHeader}
    (hstep : mainLoopSoftCore header = some header') :
    header.decryptPxCount ≤ header'.decryptPxCount ∧
      header'.niosFilterDone = header.niosFilterDone ∧
      header'.hpsFilterDone = header.hpsFilterDone := by
  obtain ⟨-, rfl⟩ | ⟨-, rfl⟩ := mainLoopSoftCore_eq_some hstep <;> simp

theorem Threads.valid_threads (load : Load) (pixels : Nat → UInt8) :
    (load.threads pixels).Valid load :=
  ⟨consistent_loaded load, ⟨rfl, rfl, rfl⟩, rfl, rfl⟩

theorem Threads.Valid.mainStep {load : Load} {t t' : Threads}
    (h : t.Valid load) (hstep : t.mainStep = some t') : t'.Valid load := by
  have hmain := h.main
  unfold Threads.mainStep at hstep
  split at hstep
  next hpc =>
    cases hstep
    simp only [hpc, MainPc.Valid] at hmain
    refine { h with main := ⟨hmain.2.1, hmain.2.2⟩, soft := ?_ }
    have hsoft := h.soft
    rw [hmain.1] at hsoft
    exact hsoft
  next hpc =>
    simp only [hpc, MainPc.Valid] at hmain
    have hhard := h.hard
    rw [hmain.1] at hhard
    split at hstep
    next => cases hstep; exact { h with main := trivial, hard := hmain.2 }
    next =>
      cases hstep
      refine ⟨h.consistent.startHard hhard, trivial,
        h.soft.frame rfl ?_ ?_, ?_⟩
      · simp [Threads.setHeader, Threads.header, startHard_eq]
      · simp [Threads.setHeader, Threads.header, startHard_eq]
      · simp only [Threads.setHeader, hmain.1]
        exact hhard
  next hpc =>
    split at hstep
    next header hheader =>
      cases hstep
      obtain ⟨hle, hnios, hhps⟩ := mainLoopSoftCore_frame hheader
      refine ⟨h.consistent.mainLoop hheader, ?_, h.soft.frame rfl hnios hle,
        h.hard.frame rfl hhps hle⟩
      simp only [Threads.setHeader, hpc]
      trivial
    next => cases hstep; exact { h with main := trivial }
  next hpc =>
    split at hstep
    next => cases hstep; exact { h with main := trivial }
    next => cases hstep; exact h
  next => contradiction

theorem Threads.Valid.softStep {conv : FloatToU8} {load : Load} {t t' : Threads}
    (h : t.Valid load) (hstep : t.softStep conv = some t') : t'.Valid load := by
  have hmain := h.main
  have hsoft := h.soft
  have hnonneg := h.consistent.soft_nonneg
  unfold Threads.softStep at hstep
  split at hstep
  next => contradiction
  next => contradiction
  next hpc =>
    cases hstep
    have hbatch := soft_batch_le h.consistent
    have hnum := softNumPixelsToFilter_nonneg h.consistent
    simp only [hpc] at hmain hsoft
    refine { h with
      main := hmain.soft_moved (by simp) rfl
      soft := ⟨hsoft, ?_⟩ }
    simp only [Threads.header]
    omega
  next idx last numPixels hpc =>
    simp only [hpc] at hmain hsoft
    obtain ⟨hflag, hlow, hhigh, hend, hbound⟩ := hsoft
    split_ifs at hstep with hloop
    · cases hstep
      refine { h with
        main := hmain.soft_moved (by simp) rfl
        soft := ⟨hflag, ?_⟩ }
      simp only [Threads.filterAt]
      omega
    · cases hstep
      refine ⟨h.consistent.softAdvance hflag (by omega) (by omega),
        hmain.soft_moved (by simp) ?_, ?_, ?_⟩
      · simp [softFinish_eq, Threads.header]
      · simp only [Threads.header, softFinish_eq]
        split_ifs with hfull
        · simp [SoftPc.Valid, hfull]
        · simp [SoftPc.Valid, hfull, hflag]
      · exact h.hard.frame rfl (by simp [softFinish_eq, Threads.header])
          (by simp [softFinish_eq, Threads.header])

theorem Threads.Valid.hardStep {conv : FloatToU8} {load : Load} {t t' : Threads}
    (h : t.Valid load) (hstep : t.hardStep conv = some t') : t'.Valid load := by
  have hmain := h.main
  have hhard := h.hard
  have hnonneg := h.consistent.hard_nonneg
  have hsplit := h.consistent.filterHpsStart
  unfold Threads.hardStep at hstep
  split at hstep
  next => contradiction
  next => contradiction
  next hpc =>
    simp only [hpc] at hmain hhard
    split_ifs at hstep with hreached
    · cases hstep
      exact h
    · cases hstep
      refine { h with
        main := hmain.hard_moved (by simp)
        hard := ⟨hhard, ?_⟩ }
      simp only [Threads.header] at hreached ⊢
      omega
  next hpc =>
    cases hstep
    simp only [hpc] at hmain hhard
    obtain ⟨hflag, hreached⟩ := hhard
    have hunfiltered := hardUnfiltered_eq h.consistent (by omega)
    have hpos := hardUnfiltered_nonneg t.process.header t.process.hardFilterPxCount
    refine { h with
      main := hmain.hard_moved (by simp)
      hard := ⟨hflag, ?_⟩ }
    simp only [Threads.header]
    omega
  next unfiltered hpc =>
    cases hstep
    simp only [hpc] at hmain hhard
    obtain ⟨hflag, hpos, hbound⟩ := hhard
    have hnum := hardNumPixelsToFilter_cases t.process.header unfiltered
    refine { h with
      main := hmain.hard_moved (by simp)
      hard := ⟨hflag, ?_⟩ }
    simp only [Threads.header]
    omega
  next idx last numPixels hpc =>
    simp only [hpc] at hmain hhard
    obtain ⟨hflag, hlow, hhigh, hend, hbound⟩ := hhard
    split_ifs at hstep with hloop
    · cases hstep
      refine { h with
        main := hmain.hard_moved (by simp)
        hard := ⟨hflag, ?_⟩ }
      simp only [Threads.filterAt]
      omega
    · cases hstep
      refine ⟨h.consistent.hardAdvance hflag (by omega) (by omega),
        hmain.hard_moved (by simp), ?_, ?_⟩
      · exact h.soft.frame rfl (by simp [hardFinish_eq, Threads.header])
          (by simp [hardFinish_eq, Threads.header])
      · simp only [Threads.header, hardFinish_eq]
        split_ifs with hfull
        · simp [HardPc.Valid, hfull]
        · simp [HardPc.Valid, hfull, hflag]

theorem Threads.Valid.step {conv : FloatToU8} {load : Load} {t t' : Threads}
    {thread : Thread} (h : t.Valid load) (hstep : t.step conv thread = some t') :
    t'.Valid load := by
  cases thread with
  | main => exact h.mainStep hstep
  | soft => exact h.softStep hstep
  | hard => exact h.hardStep hstep

end NiosHps.Simulator
