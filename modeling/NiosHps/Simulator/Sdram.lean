import NiosHps.Foundation.LittleEndian
import NiosHps.Simulator.IntRange
import NiosHps.Simulator.Memory
import NiosHps.Simulator.SplitPoint
import NiosHps.Simulator.Termination

/-!
# The bytes of the simulated SDRAM (`filtro/include/memory.h`, `memory.c`)

The header and the two sectors share one block of memory.  Here the threads keep
no header of their own: they read its fields from the first bytes of the block
and store single fields back, so that a store of a pixel beside its sector would
be seen by the protocol.  A step that touches a byte outside the block has no
result.  As before, a call of `filter_pixel` and its store are one step.

The `int` expressions are those of `Simulator.Process` on the values that the
words hold, which `Simulator.IntRange` shows to fit.
-/

namespace NiosHps.Simulator

open NiosHps.Foundation
open NiosHps.Filter

def sdramBytes : Nat := 0x4000000 * 4

/-! ## The layout of `struct shared_header` -/

def imageWOffset : Nat := 0
def imageHOffset : Nat := 4
def imageCopyDoneOffset : Nat := 8
def decryptPxCountOffset : Nat := 12
def decryptDoneOffset : Nat := 16
def filterHpsStartOffset : Nat := 20
def niosFilterDoneOffset : Nat := 24
def hpsFilterDoneOffset : Nat := 25

def getHeader (sdram : Nat → UInt8) : SharedHeader where
  imageW := (loadInt sdram imageWOffset).toInt
  imageH := (loadInt sdram imageHOffset).toInt
  imageCopyDone := loadBool sdram imageCopyDoneOffset
  decryptPxCount := (loadInt sdram decryptPxCountOffset).toInt
  decryptDone := loadBool sdram decryptDoneOffset
  filterHpsStart := (loadInt sdram filterHpsStartOffset).toInt
  niosFilterDone := loadBool sdram niosFilterDoneOffset
  hpsFilterDone := loadBool sdram hpsFilterDoneOffset

def storeDecryptPxCount (sdram : Nat → UInt8) (count : Int) : Nat → UInt8 :=
  storeInt sdram decryptPxCountOffset (.ofInt count)

def storeDecryptDone (sdram : Nat → UInt8) : Nat → UInt8 :=
  storeBool sdram decryptDoneOffset true

def storeNiosFilterDone (sdram : Nat → UInt8) : Nat → UInt8 :=
  storeBool sdram niosFilterDoneOffset true

def storeHpsFilterDone (sdram : Nat → UInt8) : Nat → UInt8 :=
  storeBool sdram hpsFilterDoneOffset true

/-- A pixel of the filtered image; `none` outside the block. -/
def filterStore (conv : FloatToU8) (sdram : Nat → UInt8) (idx : Nat) :
    Option (Nat → UInt8) :=
  let w := (getHeader sdram).imageW.toNat
  let h := (getHeader sdram).imageH.toNat
  if (∀ k, decryptedImageSector + sampleIndex idx w h k < sdramBytes) ∧
      filteredImageSector + idx < sdramBytes then
    some (Function.update sdram (filteredImageSector + idx)
      (filterPixel conv (fun i => sdram (decryptedImageSector + i)) idx w h))
  else none

/-! ## The threads -/

structure ByteThreads where
  sdram : Nat → UInt8
  softFilterPxCount : Int
  hardFilterPxCount : Int
  main : MainPc
  soft : SoftPc
  hard : HardPc
  written : List Nat

namespace ByteThreads

abbrev header (t : ByteThreads) : SharedHeader := getHeader t.sdram

def mainStep (t : ByteThreads) : Option ByteThreads :=
  match t.main with
  | .startSoft => some { t with main := .startHard, soft := .sleeping }
  | .startHard =>
      if t.header.filterHpsStart < t.header.imageW * t.header.imageH then
        some { t with main := .decrypting, hard := .sleeping }
      else
        some { t with sdram := storeHpsFilterDone t.sdram, main := .decrypting }
  | .decrypting =>
      if t.header.decryptPxCount ≠ t.header.imageW * t.header.imageH then
        some
          { t with
            sdram :=
              storeDecryptPxCount t.sdram (t.header.decryptPxCount + 1) }
      else if t.header.decryptDone then some { t with main := .waiting }
      else some { t with sdram := storeDecryptDone t.sdram }
  | .waiting =>
      if t.header.niosFilterDone ∧ t.header.hpsFilterDone then
        some { t with main := .saved }
      else some t
  | .saved => none

def softStep (conv : FloatToU8) (t : ByteThreads) : Option ByteThreads :=
  match t.soft with
  | .notStarted | .exited => none
  | .sleeping =>
      let startIdx := t.softFilterPxCount
      let numPixels := softNumPixelsToFilter t.header startIdx
      some
        { t with
          soft := .filtering startIdx.toNat (startIdx.toNat + numPixels.toNat)
            numPixels }
  | .filtering idx last numPixels =>
      if idx < last then
        (filterStore conv t.sdram idx).map fun sdram =>
          { t with
            sdram := sdram
            soft := .filtering (idx + 1) last numPixels
            written := idx :: t.written }
      else
        let softFilterPxCount := t.softFilterPxCount + numPixels
        if softFilterPxCount = t.header.filterHpsStart then
          some
            { t with
              sdram := storeNiosFilterDone t.sdram
              softFilterPxCount := softFilterPxCount
              soft := .exited }
        else
          some
            { t with
              softFilterPxCount := softFilterPxCount
              soft := .sleeping }

def hardStep (conv : FloatToU8) (t : ByteThreads) : Option ByteThreads :=
  match t.hard with
  | .notStarted | .exited => none
  | .sleeping =>
      if t.header.decryptPxCount < t.header.filterHpsStart then some t
      else some { t with hard := .counting }
  | .counting =>
      some
        { t with hard := .testing (hardUnfiltered t.header t.hardFilterPxCount) }
  | .testing unfilteredDecryptedPxCount =>
      let startIdx := t.header.filterHpsStart + t.hardFilterPxCount
      let numPixels := hardNumPixelsToFilter t.header unfilteredDecryptedPxCount
      some
        { t with
          hard := .filtering startIdx.toNat (startIdx.toNat + numPixels.toNat)
            numPixels }
  | .filtering idx last numPixels =>
      if idx < last then
        (filterStore conv t.sdram idx).map fun sdram =>
          { t with
            sdram := sdram
            hard := .filtering (idx + 1) last numPixels
            written := idx :: t.written }
      else
        let hardFilterPxCount := t.hardFilterPxCount + numPixels
        if t.header.filterHpsStart + hardFilterPxCount =
            t.header.imageW * t.header.imageH then
          some
            { t with
              sdram := storeHpsFilterDone t.sdram
              hardFilterPxCount := hardFilterPxCount
              hard := .exited }
        else
          some
            { t with
              hardFilterPxCount := hardFilterPxCount
              hard := .sleeping }

def step (conv : FloatToU8) (t : ByteThreads) : Thread → Option ByteThreads
  | .main => t.mainStep
  | .soft => t.softStep conv
  | .hard => t.hardStep conv

end ByteThreads

section Fields

variable {sdram : Nat → UInt8} {header : SharedHeader}

end Fields

/-! ## The sectors beside the header -/

section Sectors

variable {sdram sdram' : Nat → UInt8} {load : Load}

def sectors (sdram : Nat → UInt8) : Nat → UInt8 := fun i =>
  if i < decryptedImageSector then 0 else sdram i

end Sectors

/-! ## The threads of `Simulator.Threads` -/

namespace ByteThreads

/-- The header as its fields read, beside the rest of the memory. -/
def threads (t : ByteThreads) : Threads where
  process :=
    { header := getHeader t.sdram
      softFilterPxCount := t.softFilterPxCount
      hardFilterPxCount := t.hardFilterPxCount }
  sdram := sectors t.sdram
  main := t.main
  soft := t.soft
  hard := t.hard
  written := t.written

variable {conv : FloatToU8} {load : Load} {t : ByteThreads}

end ByteThreads

section Replays

variable {conv : FloatToU8} {load : Load} {padding : Nat → UInt8}
  {arguments : Arguments} {dib : Bitmap}

end Replays

end NiosHps.Simulator
