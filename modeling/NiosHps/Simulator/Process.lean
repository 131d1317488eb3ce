import NiosHps.Filter.Pixel

/-!
# The simulated processors (`filtro/src/process.c`)

The two ticks and the decryption loop, as functions of the shared header and of
the two private counters, which together are a `Process`.  The `int` expressions
are exact integers.  A `Tick` is the range handed to `apply_filter`, if the tick
gets that far, and the state the tick leaves.  Each tick is cut where it reads
the header, so that the same pieces serve both the atomic ticks below and the
threads of `Simulator.Threads`.  The progress messages are not modelled.

`Load` is an image size with a split that `load_data` can leave in the header;
`main` starts the hard core only when the split leaves it a pixel.
-/

namespace NiosHps.Simulator

structure SharedHeader where
  imageW : Int
  imageH : Int
  imageCopyDone : Bool
  decryptPxCount : Int
  decryptDone : Bool
  filterHpsStart : Int
  niosFilterDone : Bool
  hpsFilterDone : Bool
  deriving DecidableEq, Repr

structure Process where
  header : SharedHeader
  softFilterPxCount : Int
  hardFilterPxCount : Int
  deriving DecidableEq, Repr

structure FilterCall where
  startIdx : Int
  numPixels : Int
  deriving DecidableEq, Repr

structure Tick where
  call : Option FilterCall
  after : Process
  deriving DecidableEq, Repr

/-! ## The soft core -/

def softNumPixelsToFilter (header : SharedHeader) (softFilterPxCount : Int) :
    Int :=
  let unfilteredDecryptedPxCount := header.decryptPxCount - softFilterPxCount
  -- truncated at the start of the share of the other processor
  let unfilteredDecryptedPxCount :=
    if softFilterPxCount + unfilteredDecryptedPxCount > header.filterHpsStart then
      header.filterHpsStart - softFilterPxCount
    else unfilteredDecryptedPxCount
  if unfilteredDecryptedPxCount > 2 * header.imageW ∨
      unfilteredDecryptedPxCount = header.filterHpsStart - softFilterPxCount then
    unfilteredDecryptedPxCount
  else 0

def softFinish (header : SharedHeader) (softFilterPxCount : Int) : SharedHeader :=
  if softFilterPxCount = header.filterHpsStart then
    { header with niosFilterDone := true }
  else header

theorem softFinish_eq (header : SharedHeader) (count : Int) :
    softFinish header count =
      { header with
        niosFilterDone :=
          header.niosFilterDone || decide (count = header.filterHpsStart) } := by
  unfold softFinish
  split_ifs with hcount <;> simp [hcount]

def timerIsrSoftCore (p : Process) : Tick :=
  let numPixelsToFilter := softNumPixelsToFilter p.header p.softFilterPxCount
  let softFilterPxCount := p.softFilterPxCount + numPixelsToFilter
  { call := some ⟨p.softFilterPxCount, numPixelsToFilter⟩
    after :=
      { p with
        header := softFinish p.header softFilterPxCount
        softFilterPxCount := softFilterPxCount } }

/-! ## The hard core -/

def hardUnfiltered (header : SharedHeader) (hardFilterPxCount : Int) : Int :=
  let unfilteredDecryptedPxCount :=
    header.decryptPxCount - header.filterHpsStart - hardFilterPxCount
  if unfilteredDecryptedPxCount < 0 then 0 else unfilteredDecryptedPxCount

def hardNumPixelsToFilter (header : SharedHeader)
    (unfilteredDecryptedPxCount : Int) : Int :=
  if unfilteredDecryptedPxCount > 2 * header.imageW ∨ header.decryptDone then
    unfilteredDecryptedPxCount
  else 0

def hardFinish (header : SharedHeader) (hardFilterPxCount : Int) : SharedHeader :=
  if header.filterHpsStart + hardFilterPxCount = header.imageW * header.imageH then
    { header with hpsFilterDone := true }
  else header

theorem hardFinish_eq (header : SharedHeader) (count : Int) :
    hardFinish header count =
      { header with
        hpsFilterDone :=
          header.hpsFilterDone ||
            decide (header.filterHpsStart + count =
              header.imageW * header.imageH) } := by
  unfold hardFinish
  split_ifs with hcount <;> simp [hcount]

def procesoPeriodicoHardCore (p : Process) : Tick :=
  if p.header.decryptPxCount < p.header.filterHpsStart then
    { call := none, after := p }
  else
    let numPixelsToFilter :=
      hardNumPixelsToFilter p.header (hardUnfiltered p.header p.hardFilterPxCount)
    let hardFilterPxCount := p.hardFilterPxCount + numPixelsToFilter
    { call :=
        some ⟨p.header.filterHpsStart + p.hardFilterPxCount, numPixelsToFilter⟩
      after :=
        { p with
          header := hardFinish p.header hardFilterPxCount
          hardFilterPxCount := hardFilterPxCount } }

/-! ## The main thread -/

/-- One turn of the loop; `none` once it has returned. -/
def mainLoopSoftCore (header : SharedHeader) : Option SharedHeader :=
  if header.decryptPxCount ≠ header.imageW * header.imageH then
    some { header with decryptPxCount := header.decryptPxCount + 1 }
  else if header.decryptDone then none
  else some { header with decryptDone := true }

theorem mainLoopSoftCore_eq_some {header header' : SharedHeader}
    (hstep : mainLoopSoftCore header = some header') :
    (header.decryptPxCount ≠ header.imageW * header.imageH ∧
      header' = { header with decryptPxCount := header.decryptPxCount + 1 }) ∨
    (header.decryptPxCount = header.imageW * header.imageH ∧
      header' = { header with decryptDone := true }) := by
  unfold mainLoopSoftCore at hstep
  split_ifs at hstep with hrest
  · exact .inl ⟨hrest, (Option.some.inj hstep).symm⟩
  · exact .inr ⟨not_not.mp hrest, (Option.some.inj hstep).symm⟩

def hardStarted (header : SharedHeader) : Bool :=
  header.filterHpsStart < header.imageW * header.imageH

def startHard (header : SharedHeader) : SharedHeader :=
  if hardStarted header then header else { header with hpsFilterDone := true }

theorem startHard_eq (header : SharedHeader) :
    startHard header =
      { header with
        hpsFilterDone := header.hpsFilterDone || !hardStarted header } := by
  unfold startHard
  cases hardStarted header <;> simp

/-! ## The loaded image -/

structure Load where
  w : Nat
  h : Nat
  split : Nat
  w_pos : 0 < w
  h_pos : 0 < h
  split_le : split ≤ w * h

namespace Load

variable (load : Load)

def total : Nat := load.w * load.h

def header : SharedHeader where
  imageW := load.w
  imageH := load.h
  imageCopyDone := true
  decryptPxCount := 0
  decryptDone := false
  filterHpsStart := load.split
  niosFilterDone := false
  hpsFilterDone := false

def loaded : Process where
  header := load.header
  softFilterPxCount := 0
  hardFilterPxCount := 0

/-- The state in which `main` enters its decryption loop. -/
def start : Process := { load.loaded with header := startHard load.header }

end Load

end NiosHps.Simulator
