import NiosHps.Board.Nios
import NiosHps.Foundation.Words
import NiosHps.Simulator.Protocol

/-!
# The ticks of the board

`timer0_1ms_isr` of the Nios and `proceso_periodico` of the HPS, with the mixed
signed and unsigned arithmetic of the source: an operation with one unsigned
operand is one on `UInt32`, and `apply_filter` takes its range as `size_t`.  The
progress messages are not modelled.

Seen through `Cores.process` they are the ticks of the simulator, since in a
reachable state no difference is negative and no sum wraps.
-/

namespace NiosHps.Board

open NiosHps.Foundation
open NiosHps.Simulator

structure SizeCall where
  startIdx : UInt32
  numPixels : UInt32
  deriving DecidableEq, Repr

/-- The Nios with the shared structure, and the static counter of the HPS. -/
structure Cores where
  nios : Nios
  hpsFilterPxCount : UInt32

structure CoresTick where
  call : Option SizeCall
  after : Cores

/-! ## The Nios -/

def timer0NumPixelsToFilter (shared : SharedData) (filterPxCount : UInt32) :
    Int32 :=
  let unfilteredDecryptedPxCount :=
    (shared.decryptPxCount.toUInt32 - filterPxCount).toInt32
  -- truncated at the start of the share of the HPS
  let unfilteredDecryptedPxCount :=
    if filterPxCount + unfilteredDecryptedPxCount.toUInt32 >
        shared.filterHpsStart.toUInt32 then
      (shared.filterHpsStart.toUInt32 - filterPxCount).toInt32
    else unfilteredDecryptedPxCount
  if unfilteredDecryptedPxCount.toUInt32 > 2 * shared.imageW ∨
      unfilteredDecryptedPxCount.toUInt32 =
        shared.filterHpsStart.toUInt32 - filterPxCount then
    unfilteredDecryptedPxCount
  else 0

def timer0Finish (shared : SharedData) (filterPxCount : UInt32) : SharedData :=
  if filterPxCount = shared.filterHpsStart.toUInt32 then
    { shared with niosFilterDone := true }
  else shared

def Cores.timer0_1msIsr (c : Cores) : CoresTick :=
  let shared := c.nios.shared
  let numPixelsToFilter :=
    (timer0NumPixelsToFilter shared c.nios.filterPxCount).toUInt32
  let filterPxCount := c.nios.filterPxCount + numPixelsToFilter
  { call := some ⟨c.nios.filterPxCount, numPixelsToFilter⟩
    after :=
      { c with
        nios :=
          { c.nios with
            shared := timer0Finish shared filterPxCount
            filterPxCount := filterPxCount } } }

/-! ## The HPS -/

def procesoUnfiltered (shared : SharedData) (filterPxCount : UInt32) : Int32 :=
  let unfilteredDecryptedPxCount :=
    ((shared.decryptPxCount - shared.filterHpsStart).toUInt32 -
      filterPxCount).toInt32
  if unfilteredDecryptedPxCount < 0 then 0 else unfilteredDecryptedPxCount

def procesoNumPixelsToFilter (shared : SharedData)
    (unfilteredDecryptedPxCount : Int32) : Int32 :=
  if unfilteredDecryptedPxCount.toUInt32 > 2 * shared.imageW ∨
      shared.decryptDone then
    unfilteredDecryptedPxCount
  else 0

def procesoFinish (shared : SharedData) (filterPxCount : UInt32) : SharedData :=
  if shared.filterHpsStart.toUInt32 + filterPxCount =
      shared.imageW * shared.imageH then
    { shared with hpsFilterDone := true }
  else shared

def Cores.procesoPeriodico (c : Cores) : CoresTick :=
  let shared := c.nios.shared
  if shared.decryptPxCount < shared.filterHpsStart then
    { call := none, after := c }
  else
    let numPixelsToFilter :=
      (procesoNumPixelsToFilter shared
        (procesoUnfiltered shared c.hpsFilterPxCount)).toUInt32
    let filterPxCount := c.hpsFilterPxCount + numPixelsToFilter
    { call :=
        some
          ⟨shared.filterHpsStart.toUInt32 + c.hpsFilterPxCount,
            numPixelsToFilter⟩
      after :=
        { nios := { c.nios with shared := procesoFinish shared filterPxCount }
          hpsFilterPxCount := filterPxCount } }

/-! ## The view of the simulator -/

def Cores.process (c : Cores) : Process where
  header :=
    { imageW := c.nios.shared.imageW.toNat
      imageH := c.nios.shared.imageH.toNat
      imageCopyDone := c.nios.shared.imageCopyDone
      decryptPxCount := c.nios.shared.decryptPxCount.toInt
      decryptDone := c.nios.shared.decryptDone
      filterHpsStart := c.nios.shared.filterHpsStart.toInt
      niosFilterDone := c.nios.shared.niosFilterDone
      hpsFilterDone := c.nios.shared.hpsFilterDone }
  softFilterPxCount := c.nios.filterPxCount.toNat
  hardFilterPxCount := c.hpsFilterPxCount.toNat

def SizeCall.filterCall (call : SizeCall) : FilterCall :=
  ⟨call.startIdx.toNat, call.numPixels.toNat⟩

def CoresTick.tick (t : CoresTick) : Tick where
  call := t.call.map SizeCall.filterCall
  after := t.after.process

section Words

variable {load : Load} {c : Cores}

/-- A consistent state in words: natural numbers, none above `maxRes`. -/
structure Exact (load : Load) (c : Cores) : Prop where
  total_lt : load.total < 2 ^ 24
  split_le : load.split ≤ load.total
  decryptPxCount : c.nios.shared.decryptPxCount.toInt =
    c.nios.shared.decryptPxCount.toUInt32.toNat
  decrypt_le : c.nios.shared.decryptPxCount.toUInt32.toNat ≤ load.total
  filterHpsStart : c.nios.shared.filterHpsStart.toInt = load.split
  split : c.nios.shared.filterHpsStart.toUInt32.toNat = load.split
  imageW : c.nios.shared.imageW.toNat = load.w
  rows : (2 * c.nios.shared.imageW).toNat = 2 * load.w
  area : (c.nios.shared.imageW * c.nios.shared.imageH).toNat = load.total
  processArea : c.process.header.imageW * c.process.header.imageH = load.total
  soft_le_decrypt : c.nios.filterPxCount.toNat ≤
    c.nios.shared.decryptPxCount.toUInt32.toNat
  soft_le_split : c.nios.filterPxCount.toNat ≤ load.split
  hard_le_decrypt : c.hpsFilterPxCount.toNat = 0 ∨
    load.split + c.hpsFilterPxCount.toNat ≤
      c.nios.shared.decryptPxCount.toUInt32.toNat

theorem exact_of_consistent (h : Consistent load c.process)
    (hres : load.total ≤ maxRes) : Exact load c := by
  have hsoft := h.soft_le_decrypt
  have hdecrypt := h.decrypt_le_total
  have hhard := h.hard_le_decrypt
  have htotal : load.total < 2 ^ 24 := lt_of_le_of_lt hres (by decide)
  have hw : c.nios.shared.imageW.toNat = load.w := Int.ofNat_inj.mp h.imageW
  have hh : c.nios.shared.imageH.toNat = load.h := Int.ofNat_inj.mp h.imageH
  have hwle : load.w ≤ load.total := Nat.le_mul_of_pos_right _ load.h_pos
  simp only [Cores.process] at hsoft hdecrypt hhard
  obtain ⟨decrypt, hcount⟩ :=
    Int.eq_ofNat_of_zero_le ((Int.natCast_nonneg _).trans hsoft)
  have hword := toUInt32_toNat hcount
  refine
    { total_lt := htotal
      split_le := load.split_le
      decryptPxCount := by rw [hcount, hword]
      decrypt_le := by omega
      filterHpsStart := h.filterHpsStart
      split := toUInt32_toNat h.filterHpsStart
      imageW := hw
      rows := ?_
      area := ?_
      processArea := h.area
      soft_le_decrypt := by omega
      soft_le_split := Int.ofNat_le.mp h.soft_le_split
      hard_le_decrypt := by omega }
  · have htwo : (2 : UInt32).toNat = 2 := rfl
    rw [toNat_mul_exact (by rw [htwo, hw]; omega), hw, htwo]
  · have hfits : c.nios.shared.imageW.toNat * c.nios.shared.imageH.toNat <
        2 ^ 32 := by
      rw [hw, hh]
      exact lt_trans htotal (by decide)
    rw [toNat_mul_exact hfits, hw, hh, Load.total]

/-! ## The tick of the Nios -/

/-- The sum compared with the split is the decryption count again. -/
theorem timer0NumPixelsToFilter_toUInt32 (shared : SharedData)
    (count : UInt32) :
    (timer0NumPixelsToFilter shared count).toUInt32 =
      let unfiltered :=
        if shared.decryptPxCount.toUInt32 > shared.filterHpsStart.toUInt32 then
          shared.filterHpsStart.toUInt32 - count
        else shared.decryptPxCount.toUInt32 - count
      if unfiltered > 2 * shared.imageW ∨
          unfiltered = shared.filterHpsStart.toUInt32 - count then unfiltered
      else 0 := by
  have hback : count + (shared.decryptPxCount.toUInt32 - count) =
      shared.decryptPxCount.toUInt32 := by
    rw [UInt32.add_comm, UInt32.sub_add_cancel]
  simp only [timer0NumPixelsToFilter, UInt32.toUInt32_toInt32, hback]
  rw [apply_ite Int32.toUInt32, apply_ite Int32.toUInt32]
  rfl

theorem Exact.softNumPixelsToFilter (h : Exact load c) :
    softNumPixelsToFilter c.process.header c.process.softFilterPxCount =
      (timer0NumPixelsToFilter c.nios.shared
        c.nios.filterPxCount).toUInt32.toNat := by
  have hsplit := h.split
  have hle := h.soft_le_decrypt
  have hleSplit := h.soft_le_split
  have hdecrypted := toNat_sub_exact hle
  have hshare := toNat_sub_exact (x := c.nios.shared.filterHpsStart.toUInt32)
    (y := c.nios.filterPxCount) (by omega)
  rw [hsplit] at hshare
  simp only [Simulator.softNumPixelsToFilter, Cores.process, h.decryptPxCount,
    h.filterHpsStart, h.imageW]
  rw [timer0NumPixelsToFilter_toUInt32]
  simp only [gt_iff_lt, UInt32.lt_iff_toNat_lt, ← UInt32.toNat_inj, hsplit,
    h.rows, add_sub_cancel, Nat.cast_lt]
  by_cases hover : load.split < c.nios.shared.decryptPxCount.toUInt32.toNat
  · simp only [if_pos hover, hshare, or_true, if_true]
    omega
  · simp only [if_neg hover, hdecrypted, hshare]
    split_ifs <;> simp only [UInt32.toNat_zero, hdecrypted] <;> omega

theorem Exact.softAdvance (h : Exact load c) (num : UInt32)
    (hbatch : c.nios.filterPxCount.toNat + num.toNat ≤ load.split) :
    Cores.process
        { c with
          nios :=
            { c.nios with
              shared := timer0Finish c.nios.shared (c.nios.filterPxCount + num)
              filterPxCount := c.nios.filterPxCount + num } } =
      { c.process with
        header :=
          softFinish c.process.header (c.process.softFilterPxCount + num.toNat)
        softFilterPxCount := c.process.softFilterPxCount + num.toNat } := by
  have htotal := h.total_lt
  have hsplit := h.split_le
  have hsum := toNat_add_exact (x := c.nios.filterPxCount) (y := num) (by omega)
  have hdone : c.nios.filterPxCount + num =
      c.nios.shared.filterHpsStart.toUInt32 ↔
      c.process.softFilterPxCount + num.toNat =
        c.process.header.filterHpsStart := by
    simp only [← UInt32.toNat_inj, hsum, h.split, Cores.process,
      h.filterHpsStart]
    omega
  unfold timer0Finish softFinish
  by_cases hfinish : c.process.softFilterPxCount + num.toNat =
      c.process.header.filterHpsStart
  · rw [if_pos hfinish, if_pos (hdone.mpr hfinish)]
    simp only [Cores.process, hsum, Nat.cast_add]
  · rw [if_neg hfinish, if_neg (hfinish ∘ hdone.mp)]
    simp only [Cores.process, hsum, Nat.cast_add]

theorem timer0_refines (h : Consistent load c.process)
    (hres : load.total ≤ maxRes) :
    c.timer0_1msIsr.tick = timerIsrSoftCore c.process := by
  have hexact := exact_of_consistent h hres
  have hnum := hexact.softNumPixelsToFilter
  have hcount : c.process.softFilterPxCount = c.nios.filterPxCount.toNat := rfl
  have hbatch := soft_batch_le h
  rw [hnum, hcount] at hbatch
  have hle : c.nios.filterPxCount.toNat +
      (timer0NumPixelsToFilter c.nios.shared
        c.nios.filterPxCount).toUInt32.toNat ≤ load.split := by omega
  simp only [timerIsrSoftCore, hnum]
  rw [← hexact.softAdvance _ hle]
  rfl

theorem timer0_idle (h : Consistent load c.process) (hres : load.total ≤ maxRes)
    (hflag : c.nios.shared.niosFilterDone = true) :
    c.timer0_1msIsr.tick =
      { call := some ⟨c.process.softFilterPxCount, 0⟩, after := c.process } :=
  (timer0_refines h hres).trans (softTick_idle h hflag)

/-! ## The tick of the HPS -/

theorem Exact.hardUnfiltered (h : Exact load c)
    (hreached : load.split ≤ c.nios.shared.decryptPxCount.toUInt32.toNat) :
    hardUnfiltered c.process.header c.process.hardFilterPxCount =
      (procesoUnfiltered c.nios.shared c.hpsFilterPxCount).toUInt32.toNat := by
  have hsplit := h.split
  have hback := h.hard_le_decrypt
  have hdecrypt := h.decrypt_le
  have htotal := h.total_lt
  have hshare := toNat_sub_exact (x := c.nios.shared.decryptPxCount.toUInt32)
    (y := c.nios.shared.filterHpsStart.toUInt32) (by omega)
  rw [← Int32.toUInt32_sub] at hshare
  have hrest := toNat_sub_exact (y := c.hpsFilterPxCount)
    (x := (c.nios.shared.decryptPxCount -
      c.nios.shared.filterHpsStart).toUInt32) (by omega)
  have hsigned := toInt32_toInt (x := (c.nios.shared.decryptPxCount -
    c.nios.shared.filterHpsStart).toUInt32 - c.hpsFilterPxCount) (by omega)
  have hnonneg : ¬((c.nios.shared.decryptPxCount -
      c.nios.shared.filterHpsStart).toUInt32 - c.hpsFilterPxCount).toInt32 <
        0 := by
    rw [Int32.lt_iff_toInt_lt, hsigned, Int32.toInt_zero]
    omega
  simp only [Simulator.hardUnfiltered, Cores.process, h.decryptPxCount,
    h.filterHpsStart, procesoUnfiltered, if_neg hnonneg,
    UInt32.toUInt32_toInt32, hrest, hshare, hsplit]
  rw [if_neg (by omega)]
  omega

theorem Exact.hardNumPixelsToFilter (h : Exact load c) (unfiltered : Int32) :
    hardNumPixelsToFilter c.process.header unfiltered.toUInt32.toNat =
      (procesoNumPixelsToFilter c.nios.shared unfiltered).toUInt32.toNat := by
  have hwait : unfiltered.toUInt32 > 2 * c.nios.shared.imageW ↔
      (unfiltered.toUInt32.toNat : Int) > 2 * load.w := by
    rw [gt_iff_lt, UInt32.lt_iff_toNat_lt, h.rows]
    omega
  simp only [Simulator.hardNumPixelsToFilter, Cores.process,
    procesoNumPixelsToFilter, hwait, h.imageW]
  split_ifs <;> rfl

theorem Exact.hardAdvance (h : Exact load c) (num : UInt32)
    (hbatch : load.split + (c.hpsFilterPxCount.toNat + num.toNat) ≤
      load.total) :
    Cores.process
        { nios :=
            { c.nios with
              shared :=
                procesoFinish c.nios.shared (c.hpsFilterPxCount + num) }
          hpsFilterPxCount := c.hpsFilterPxCount + num } =
      { c.process with
        header :=
          hardFinish c.process.header (c.process.hardFilterPxCount + num.toNat)
        hardFilterPxCount := c.process.hardFilterPxCount + num.toNat } := by
  have htotal := h.total_lt
  have hsplit := h.split
  have harea := h.processArea
  have hsum := toNat_add_exact (x := c.hpsFilterPxCount) (y := num) (by omega)
  have hend := toNat_add_exact (x := c.nios.shared.filterHpsStart.toUInt32)
    (y := c.hpsFilterPxCount + num) (by omega)
  have hdone : c.nios.shared.filterHpsStart.toUInt32 +
      (c.hpsFilterPxCount + num) =
        c.nios.shared.imageW * c.nios.shared.imageH ↔
      c.process.header.filterHpsStart +
        (c.process.hardFilterPxCount + num.toNat) =
        c.process.header.imageW * c.process.header.imageH := by
    rw [← UInt32.toNat_inj, hend, hsum, hsplit, h.area, harea]
    simp only [Cores.process, h.filterHpsStart]
    omega
  unfold procesoFinish hardFinish
  by_cases hfinish : c.process.header.filterHpsStart +
      (c.process.hardFilterPxCount + num.toNat) =
      c.process.header.imageW * c.process.header.imageH
  · rw [if_pos hfinish, if_pos (hdone.mpr hfinish)]
    simp only [Cores.process, hsum, Nat.cast_add]
  · rw [if_neg hfinish, if_neg (hfinish ∘ hdone.mp)]
    simp only [Cores.process, hsum, Nat.cast_add]

theorem procesoPeriodico_refines (h : Consistent load c.process)
    (hres : load.total ≤ maxRes) :
    c.procesoPeriodico.tick = procesoPeriodicoHardCore c.process := by
  have hexact := exact_of_consistent h hres
  have hreached_iff :
      c.nios.shared.decryptPxCount < c.nios.shared.filterHpsStart ↔
        c.process.header.decryptPxCount < c.process.header.filterHpsStart :=
    Int32.lt_iff_toInt_lt
  have hcount : c.process.hardFilterPxCount = c.hpsFilterPxCount.toNat := rfl
  have hdecrypt : c.process.header.decryptPxCount =
      c.nios.shared.decryptPxCount.toUInt32.toNat := hexact.decryptPxCount
  have hsplit := hexact.split
  have hback := hexact.hard_le_decrypt
  have hdecryptLe := hexact.decrypt_le
  have htotal := hexact.total_lt
  unfold Cores.procesoPeriodico procesoPeriodicoHardCore
  simp only [hreached_iff]
  split_ifs with hbefore
  · rfl
  have hrest := hardUnfiltered_eq h (not_lt.mp hbefore)
  rw [h.filterHpsStart, hdecrypt] at hbefore
  have hreached : load.split ≤ c.nios.shared.decryptPxCount.toUInt32.toNat := by
    omega
  have hnum := hexact.hardNumPixelsToFilter
    (procesoUnfiltered c.nios.shared c.hpsFilterPxCount)
  rw [← hexact.hardUnfiltered hreached] at hnum
  have hbatch := hardNumPixelsToFilter_cases c.process.header
    (hardUnfiltered c.process.header c.process.hardFilterPxCount)
  rw [hnum, hrest, hcount, hdecrypt] at hbatch
  have hafter := hexact.hardAdvance
    (procesoNumPixelsToFilter c.nios.shared
      (procesoUnfiltered c.nios.shared c.hpsFilterPxCount)).toUInt32 (by omega)
  have hstart :
      ((c.nios.shared.filterHpsStart.toUInt32 + c.hpsFilterPxCount).toNat : Int) =
        c.process.header.filterHpsStart + c.process.hardFilterPxCount := by
    rw [toNat_add_exact (by omega), hsplit, hcount, h.filterHpsStart,
      Nat.cast_add]
  simp only [hnum]
  rw [← hafter, ← hstart]
  rfl

end Words

/-! ## Schedules -/

/--
The decryption step of the protocol, on the fields of the shared structure: the
Nios does not publish its progress, so this is the main loop of the simulator.
-/
def publishDecryption (shared : SharedData) : Option SharedData :=
  if shared.decryptPxCount.toUInt32 ≠ shared.imageW * shared.imageH then
    some { shared with decryptPxCount := shared.decryptPxCount + 1 }
  else if shared.decryptDone then none
  else some { shared with decryptDone := true }

namespace Cores

def setShared (c : Cores) (shared : SharedData) : Cores :=
  { c with nios := { c.nios with shared := shared } }

def tick (c : Cores) : Event → Option CoresTick
  | .mainLoop =>
      (publishDecryption c.nios.shared).map fun shared =>
        { call := none, after := c.setShared shared }
  | .softTick =>
      if c.nios.shared.niosFilterDone then none else some c.timer0_1msIsr
  | .hardTick =>
      if c.nios.shared.filterHpsStart.toUInt32 <
            c.nios.shared.imageW * c.nios.shared.imageH ∧
          ¬c.nios.shared.hpsFilterDone then
        some c.procesoPeriodico
      else none

def step (c : Cores) (e : Event) : Option Cores := (c.tick e).map CoresTick.after

def ofProcess (p : Process) : Cores where
  nios :=
    { shared :=
        { imageEncrypted := fun _ => 0
          imageW := .ofNat p.header.imageW.toNat
          imageH := .ofNat p.header.imageH.toNat
          imageCopyDone := p.header.imageCopyDone
          decryptPxCount := .ofInt p.header.decryptPxCount
          decryptDone := p.header.decryptDone
          filterHpsStart := .ofInt p.header.filterHpsStart
          niosFilterDone := p.header.niosFilterDone
          hpsFilterDone := p.header.hpsFilterDone }
      d := 0
      n := 0
      width := 0
      height := 0
      current7Seg := 0
      decryptPxCount := 0
      filterPxCount := .ofNat p.softFilterPxCount.toNat
      hasStarted := 0
      pio7Seg := 0
      timer1Started := false }
  hpsFilterPxCount := .ofNat p.hardFilterPxCount.toNat

end Cores

def board (load : Load) : System Cores Event where
  init c := c.process = load.start
  step := Cores.step

section Schedules

variable {load : Load} {c : Cores}

theorem word_of_small {k : Int} (hnonneg : 0 ≤ k) (hle : k ≤ maxRes) :
    ((UInt32.ofNat k.toNat).toNat : Int) = k := by
  have hmax : maxRes < UInt32.size := by decide
  rw [UInt32.toNat_ofNat_of_lt' (by omega)]
  omega

theorem int_of_small {k : Int} (hnonneg : 0 ≤ k) (hle : k ≤ maxRes) :
    (Int32.ofInt k).toInt = k := by
  have hmax : maxRes < 2 ^ 31 := by decide
  exact Int32.toInt_ofInt_of_le (by omega) (by omega)

theorem process_ofProcess {p : Process} (h : Consistent load p)
    (hres : load.total ≤ maxRes) : (Cores.ofProcess p).process = p := by
  have hw : load.w ≤ load.total := Nat.le_mul_of_pos_right _ load.h_pos
  have hh : load.h ≤ load.total := Nat.le_mul_of_pos_left _ load.w_pos
  have hsplit : load.split ≤ load.total := load.split_le
  obtain ⟨⟨imageW, imageH, _, _, _, _, _, _⟩, _, _⟩ := p
  have hsoft := h.soft_nonneg
  have hhard := h.hard_nonneg
  have hback := h.hard_le_decrypt
  have hdecrypt := h.decrypt_le_total
  have hfront := h.soft_le_decrypt
  have himageW := h.imageW
  have himageH := h.imageH
  have hstart := h.filterHpsStart
  simp only at hsoft hhard hback hdecrypt hfront himageW himageH hstart
  simp only [Cores.process, Cores.ofProcess]
  rw [word_of_small (by omega) (by omega), word_of_small (by omega) (by omega),
    word_of_small (by omega) (by omega), word_of_small (by omega) (by omega),
    int_of_small (by omega) (by omega), int_of_small (by omega) (by omega)]

theorem publishDecryption_refines (h : Consistent load c.process)
    (hres : load.total ≤ maxRes) :
    (publishDecryption c.nios.shared).map
        (fun shared => (c.setShared shared).process) =
      (mainLoopSoftCore c.process.header).map
        fun header => { c.process with header := header } := by
  have hexact := exact_of_consistent h hres
  have hle := hexact.decrypt_le
  have htotal := hexact.total_lt
  have hrest : c.nios.shared.decryptPxCount.toUInt32 ≠
      c.nios.shared.imageW * c.nios.shared.imageH ↔
      c.process.header.decryptPxCount ≠
        c.process.header.imageW * c.process.header.imageH := by
    rw [Ne, ← UInt32.toNat_inj, hexact.area, h.area]
    simp only [Cores.process, hexact.decryptPxCount, Ne, Nat.cast_inj]
  have hsucc := toInt_succ_exact hexact.decryptPxCount (by omega)
  have hdone : c.process.header.decryptDone = c.nios.shared.decryptDone := rfl
  unfold publishDecryption mainLoopSoftCore
  simp only [hrest, hdone]
  split_ifs
  · simp only [Option.map_some, Cores.setShared, Cores.process, hsucc]
  · rfl
  · rfl

theorem step_refines (h : Consistent load c.process) (hres : load.total ≤ maxRes)
    (e : Event) : c.process.step e = (c.step e).map Cores.process := by
  have hexact := exact_of_consistent h hres
  cases e with
  | mainLoop =>
      have hmain := publishDecryption_refines h hres
      simp only [Process.step, Process.tick, Cores.step, Cores.tick,
        Option.map_map]
      exact hmain.symm
  | softTick =>
      have hflag : c.process.header.niosFilterDone =
          c.nios.shared.niosFilterDone := rfl
      simp only [Process.step, Process.tick, Cores.step, Cores.tick, hflag,
        ← timer0_refines h hres]
      split_ifs <;> rfl
  | hardTick =>
      have hflag : c.process.header.hpsFilterDone =
          c.nios.shared.hpsFilterDone := rfl
      have hstarted : c.nios.shared.filterHpsStart.toUInt32 <
          c.nios.shared.imageW * c.nios.shared.imageH ↔
          hardStarted c.process.header = true := by
        rw [UInt32.lt_iff_toNat_lt, hexact.area, hexact.split, hardStarted,
          decide_eq_true_eq, h.area, h.filterHpsStart, Nat.cast_lt]
      simp only [Process.step, Process.tick, Cores.step, Cores.tick, hflag,
        hstarted, ← procesoPeriodico_refines h hres]
      split_ifs <;> rfl

theorem board_replays (hres : load.total ≤ maxRes) :
    (protocol load).Replays (board load) (fun c => Consistent load c.process)
      Cores.process where
  step _ e h := step_refines h hres e

theorem consistent_board {c' : Cores} {e : Event} (hres : load.total ≤ maxRes)
    (h : Consistent load c.process) (hstep : c.step e = some c') :
    Consistent load c'.process := by
  have hprocess := step_refines h hres e
  rw [hstep] at hprocess
  exact h.step hprocess

end Schedules

/--
The ticks of the board are those of the simulator, in every state that the
protocol reaches, and so the two go through the same states on every schedule.
-/
theorem board_ticks_refine (load : Load) (hres : load.total ≤ maxRes) :
    (∀ p, (protocol load).Reachable p →
      (∃ c : Cores, c.process = p) ∧
        ∀ c : Cores, c.process = p →
          c.timer0_1msIsr.tick = timerIsrSoftCore p ∧
            c.procesoPeriodico.tick = procesoPeriodicoHardCore p) ∧
      ∀ c : Cores, c.process = load.start → ∀ events : List Event,
        (protocol load).run load.start events =
          ((board load).run c events).map Cores.process := by
  constructor
  · intro p hp
    have h := consistent_reachable hp
    refine ⟨⟨_, process_ofProcess h hres⟩, ?_⟩
    rintro c rfl
    exact ⟨timer0_refines h hres, procesoPeriodico_refines h hres⟩
  · intro c hstart events
    rw [← hstart]
    refine (board_replays hres).run ?_ ?_ events
    · exact fun s e s' h hstep => consistent_board hres h hstep
    · simp only [hstart]
      exact consistent_start load

theorem board_ticks_refine_square :
    (Cores.ofProcess
      ⟨⟨2, 2, true, 3, false, 3, false, false⟩, 0, 0⟩).timer0_1msIsr.tick =
        timerIsrSoftCore ⟨⟨2, 2, true, 3, false, 3, false, false⟩, 0, 0⟩ := by
  exact (((board_ticks_refine _ (by decide)).1 _ reachable_square).2 _ rfl).1

end NiosHps.Board
