import NiosHps.Board.Progress
import NiosHps.Foundation.Stdio

/-!
# The set-up of the HPS (`hard_core_cpu/src/main.c`)

After the handshake `main` copies the numbers of its input file to the shared
structure, the size first and then the pixels, and sets the split.  Nothing in
the loop advances `count`, so every number is taken for the width; and `main`
returns before it sets `image_copy_done` and starts the filter.

Writing past `image_encrypted` is undefined in the source: there the loop has no
result.
-/

namespace NiosHps.Board

open NiosHps.Foundation

/-! ## The reading loop -/

/--
What `%d` stores for a number.  The language defines it in the range of `int`
only, so the model takes the whole function and relies on the defined part.
-/
structure IntConversion where
  toFun : Int → Int32
  exact : ∀ v : Int32, toFun v.toInt = v

theorem IntConversion.toUInt32_toNat (conv : IntConversion) {n : Nat}
    (hn : n < 2 ^ 31) : (conv.toFun n).toUInt32.toNat = n := by
  have hint : (Int32.ofInt n).toInt = n :=
    Int32.toInt_ofInt_of_le (by omega) (by omega)
  have hconv := conv.exact (Int32.ofInt n)
  rw [hint] at hconv
  rw [hconv]
  exact NiosHps.Foundation.toUInt32_toNat hint

def comma : UInt8 := 44

def bufferSize : Nat := 1024

structure Copying where
  shared : SharedData
  count : Nat

def Copying.store (c : Copying) (num : Int32) : Option Copying :=
  if c.count = 0 then
    some { c with shared := c.shared.store (.imageW num.toUInt32) }
  else if c.count = 1 then
    some { c with shared := c.shared.store (.imageH num.toUInt32) }
  else if h : c.count - 2 < maxRes then
    some
      { c with
        shared :=
          c.shared.store (.imageEncrypted ⟨c.count - 2, h⟩ num.toUInt32) }
  else none

def readingLoop (conv : IntConversion) (input : List UInt8) (c : Copying) :
    Option Copying :=
  match hscan : scanIntThen comma input with
  | .eof => some c
  | .converted value rest =>
      match c.store (conv.toFun value) with
      | none => none
      | some c => readingLoop conv rest c
  | .mismatch rest => readingLoop conv (skipLine (bufferSize - 1) rest) c
termination_by input.length
decreasing_by
  · exact scanIntThen_converted hscan
  · exact skipLine_mismatch_length_lt (bufferSize - 2) hscan

/-! ## The set-up -/

structure Returned where
  status : Int
  shared : SharedData

/-- `main` from the opening of the input file on, for a file or a failure. -/
def hpsSetUp (conv : IntConversion) (inputFile : Option (List UInt8))
    (niosProcessingPercentage : Int32) (shared : SharedData) :
    Option Returned := do
  match inputFile with
  | none => some ⟨1, shared⟩
  | some input =>
      let c ← readingLoop conv input ⟨shared, 0⟩
      let split :=
        c.shared.imageH * c.shared.imageW * niosProcessingPercentage.toUInt32
      -- returns here: the stores and the thread that follow are not reached
      some ⟨0, c.shared.store (.filterHpsStart split.toInt32)⟩

/-! ## Every number is the width -/

def Copying.withWidth (c : Copying) (width : UInt32) : Copying :=
  { c with shared := { c.shared with imageW := width } }

theorem Copying.store_width {c : Copying} (hcount : c.count = 0) (num : Int32) :
    c.store num = some (c.withWidth num.toUInt32) :=
  if_pos hcount

theorem readingLoop_eof (conv : IntConversion) {input : List UInt8}
    (c : Copying) (hscan : scanIntThen comma input = .eof) :
    readingLoop conv input c = some c := by
  rw [readingLoop]
  split <;> simp_all

theorem readingLoop_converted (conv : IntConversion) {input rest : List UInt8}
    {c : Copying} {value : Int} (hcount : c.count = 0)
    (hscan : scanIntThen comma input = .converted value rest) :
    readingLoop conv input c =
      readingLoop conv rest (c.withWidth (conv.toFun value).toUInt32) := by
  rw [readingLoop]
  split <;> simp_all [Copying.store_width hcount]

theorem readingLoop_mismatch (conv : IntConversion) {input rest : List UInt8}
    (c : Copying) (hscan : scanIntThen comma input = .mismatch rest) :
    readingLoop conv input c =
      readingLoop conv (skipLine (bufferSize - 1) rest) c := by
  rw [readingLoop]
  split <;> simp_all

theorem readingLoop_width (conv : IntConversion) (input : List UInt8)
    {c : Copying} (hcount : c.count = 0) :
    ∃ width, readingLoop conv input c = some (c.withWidth width) := by
  -- on what is left of the file, which every turn of the loop shortens
  induction hlength : input.length using Nat.strong_induction_on
    generalizing input c with
  | _ length ih =>
      cases hscan : scanIntThen comma input with
      | eof => exact ⟨c.shared.imageW, readingLoop_eof conv c hscan⟩
      | converted value rest =>
          rw [readingLoop_converted conv hcount hscan]
          exact ih rest.length (hlength ▸ scanIntThen_converted hscan) rest
            (c := c.withWidth _) hcount rfl
      | mismatch rest =>
          rw [readingLoop_mismatch conv c hscan]
          exact ih _
            (hlength ▸ skipLine_mismatch_length_lt (bufferSize - 2) hscan) _
            hcount rfl

theorem readingLoop_numbers (conv : IntConversion) {numbers : List Nat}
    {text : List UInt8} (htext : NumbersText comma numbers text) {c : Copying}
    (hcount : c.count = 0) :
    ∃ last ∈ numbers.getLast?, readingLoop conv text c =
      some (c.withWidth (conv.toFun last).toUInt32) := by
  induction htext generalizing c with
  | last spaces n hspaces =>
      refine ⟨n, rfl, ?_⟩
      rw [readingLoop_converted conv hcount (scanIntThen_last n hspaces)]
      exact readingLoop_eof conv _ rfl
  | cons spaces n numbers text hspaces htext ih =>
      have hscan := scanIntThen_separated n text hspaces
        (show ¬isDigit comma by decide)
      obtain ⟨last, hlast, hread⟩ :=
        ih (c := c.withWidth (conv.toFun n).toUInt32) hcount
      rw [readingLoop_converted conv hcount hscan]
      refine ⟨last, ?_, hread⟩
      rw [List.getLast?_cons, hlast]
      rfl

/-! ## The loop ends -/

inductive Turn where
  | broke (c : Copying)
  | continued (rest : List UInt8) (c : Copying)
  | undefined

def turn (conv : IntConversion) (input : List UInt8) (c : Copying) : Turn :=
  match scanIntThen comma input with
  | .eof => .broke c
  | .converted value rest =>
      match c.store (conv.toFun value) with
      | none => .undefined
      | some c => .continued rest c
  | .mismatch rest => .continued (skipLine (bufferSize - 1) rest) c

/-- The loop, watched for `n` turns: nothing in it counts them. -/
def turns (conv : IntConversion) : Nat → List UInt8 → Copying → Turn
  | 0, input, c => .continued input c
  | n + 1, input, c =>
      match turn conv input c with
      | .continued rest c => turns conv n rest c
      | .broke c => .broke c
      | .undefined => .undefined

section Turns

variable {conv : IntConversion} {input rest : List UInt8} {c c' : Copying}

theorem turn_continued_length_lt (hturn : turn conv input c = .continued rest c') :
    rest.length < input.length := by
  rw [turn] at hturn
  cases hscan : scanIntThen comma input with
  | eof =>
      rw [hscan] at hturn
      cases hturn
  | converted value after =>
      rw [hscan] at hturn
      cases hstore : c.store (conv.toFun value) with
      | none => simp [hstore] at hturn
      | some stored =>
          simp only [hstore, Turn.continued.injEq] at hturn
          rw [← hturn.1]
          exact scanIntThen_converted hscan
  | mismatch after =>
      rw [hscan] at hturn
      cases hturn
      exact skipLine_mismatch_length_lt (bufferSize - 2) hscan

theorem readingLoop_eq_turn (conv : IntConversion) (input : List UInt8)
    (c : Copying) :
    readingLoop conv input c =
      match turn conv input c with
      | .broke c' => some c'
      | .continued rest c' => readingLoop conv rest c'
      | .undefined => none := by
  rw [readingLoop]
  split
  · simp_all [turn]
  · rename_i value rest hscan
    cases hstore : c.store (conv.toFun value) <;> simp [turn, hscan, hstore]
  · simp_all [turn]

theorem turns_of_readingLoop {n : Nat} (hn : input.length < n)
    (hread : readingLoop conv input c = some c') :
    turns conv n input c = .broke c' := by
  induction n generalizing input c with
  | zero => exact absurd hn (Nat.not_lt_zero _)
  | succ n ih =>
      rw [readingLoop_eq_turn] at hread
      rw [turns]
      cases hturn : turn conv input c with
      | broke c =>
          rw [hturn] at hread
          cases hread
          rfl
      | continued rest c =>
          rw [hturn] at hread
          have hlt := turn_continued_length_lt hturn
          exact ih (by omega) hread
      | undefined =>
          rw [hturn] at hread
          cases hread

end Turns

/--
On every file, whatever its bytes: a turn that does not break leaves fewer bytes
in the stream than it found, and the loop breaks before it has made more turns
than the file has bytes and one.
-/
theorem reading_loop_ends (conv : IntConversion) (shared : SharedData)
    (input : List UInt8) :
    (∀ left c rest c', turn conv left c = .continued rest c' →
      rest.length < left.length) ∧
    ∃ c', readingLoop conv input ⟨shared, 0⟩ = some c' ∧
      ∀ n, input.length < n → turns conv n input ⟨shared, 0⟩ = .broke c' := by
  constructor
  · intro left c rest c' hturn
    exact turn_continued_length_lt hturn
  · have hwidth := readingLoop_width conv input (c := ⟨shared, 0⟩) rfl
    rcases hwidth with ⟨width, hread⟩
    exact ⟨_, hread, fun n hn => turns_of_readingLoop hn hread⟩

/-! ## What the set-up leaves -/

/-- The pixels of an image, in the order of the input file. -/
structure InputImage where
  w : Nat
  h : Nat
  pixels : List Nat
  w_pos : 0 < w
  h_pos : 0 < h
  le_maxRes : w * h ≤ maxRes
  length_eq : pixels.length = w * h
  pixel_lt : ∀ pixel ∈ pixels, pixel < 2 ^ 31

namespace InputImage

variable (image : InputImage)

def numbers : List Nat := image.w :: image.h :: image.pixels

def Text (text : List UInt8) : Prop := NumbersText comma image.numbers text

def pixel (i : Nat) (hi : i < image.w * image.h) : Nat :=
  image.pixels.get ⟨i, hi.trans_eq image.length_eq.symm⟩

/-- The whole image is in the shared structure, and announced to the Nios. -/
structure Copied (before after : SharedData) : Prop where
  imageW : after.imageW.toNat = image.w
  imageH : after.imageH.toNat = image.h
  imageEncrypted : ∀ i (hi : i < image.w * image.h),
    (after.imageEncrypted ⟨i, hi.trans_le image.le_maxRes⟩).toNat =
      image.pixel i hi
  rest : ∀ idx : Fin maxRes, image.w * image.h ≤ idx →
    after.imageEncrypted idx = before.imageEncrypted idx
  split : 0 ≤ after.filterHpsStart.toInt ∧
    after.filterHpsStart.toInt ≤ (image.w * image.h : Nat)
  imageCopyDone : after.imageCopyDone = true

end InputImage

theorem hpsSetUp_imageCopyDone (conv : IntConversion)
    (inputFile : Option (List UInt8)) (percentage : Int32)
    (shared : SharedData) :
    ∃ returned, hpsSetUp conv inputFile percentage shared = some returned ∧
      returned.shared.imageCopyDone = shared.imageCopyDone := by
  cases inputFile with
  | none => exact ⟨_, rfl, rfl⟩
  | some input =>
      obtain ⟨width, hread⟩ := readingLoop_width conv input
        (c := ⟨shared, 0⟩) rfl
      rw [hpsSetUp, hread]
      exact ⟨_, rfl, rfl⟩

theorem hpsSetUp_text (conv : IntConversion) (image : InputImage)
    {text : List UInt8} (htext : image.Text text) (percentage : Int32)
    (shared : SharedData) :
    ∃ last ∈ image.pixels.getLast?,
      let width := (conv.toFun last).toUInt32
      hpsSetUp conv (some text) percentage shared =
        some
          ⟨0,
            { shared with
              imageW := width
              filterHpsStart :=
                (shared.imageH * width * percentage.toUInt32).toInt32 }⟩ := by
  obtain ⟨last, hlast, hread⟩ := readingLoop_numbers conv htext
    (c := ⟨shared, 0⟩) rfl
  refine ⟨last, ?_, ?_⟩
  · have hpixels : image.pixels ≠ [] := by
      rw [← List.length_pos_iff, image.length_eq]
      exact Nat.mul_pos image.w_pos image.h_pos
    obtain ⟨pixel, pixels, hcons⟩ := List.exists_cons_of_ne_nil hpixels
    rw [InputImage.numbers, hcons] at hlast
    rw [hcons]
    exact hlast
  · rw [hpsSetUp, hread]
    rfl

/--
Whatever the image, the percentage and the spaces in the text: `main` returns
with the last pixel as the width of the image, no height and no pixel, and
without having set `image_copy_done`.
-/
theorem hps_set_up_never_copies (conv : IntConversion) (image : InputImage)
    {text : List UInt8} (htext : image.Text text) (percentage : Int32)
    {shared : SharedData} (hnew : shared.imageCopyDone = false) :
    ∃ after, hpsSetUp conv (some text) percentage shared = some ⟨0, after⟩ ∧
      after.imageW.toNat ∈ image.pixels.getLast? ∧
      after.imageH = shared.imageH ∧
      after.imageEncrypted = shared.imageEncrypted ∧
      ¬image.Copied shared after := by
  obtain ⟨last, hlast, hreturned⟩ :=
    hpsSetUp_text conv image htext percentage shared
  have hlt := image.pixel_lt last (List.mem_of_getLast? hlast)
  refine ⟨_, hreturned, ?_, rfl, rfl, ?_⟩
  · rw [conv.toUInt32_toNat hlt]
    exact hlast
  · intro hcopied
    exact Bool.false_ne_true (hnew.symm.trans hcopied.imageCopyDone)

def onePixel : InputImage where
  w := 1
  h := 1
  pixels := [7]
  w_pos := by decide
  h_pos := by decide
  le_maxRes := by decide
  length_eq := rfl
  pixel_lt := by decide

theorem onePixel_text : onePixel.Text [49, 44, 49, 44, 55] := by
  apply NumbersText.cons [] 1 [1, 7] [49, 44, 55] (by simp)
  apply NumbersText.cons [] 1 [7] [55] (by simp)
  exact NumbersText.last [] 7 (by simp)

def wrapping : IntConversion where
  toFun := Int32.ofInt
  exact := Int32.ofInt_toInt

theorem hps_set_up_never_copies_one :
    ∃ after, hpsSetUp wrapping (some [49, 44, 49, 44, 55]) 50 zeroedData =
        some ⟨0, after⟩ ∧ ¬onePixel.Copied zeroedData after :=
  have ⟨after, hreturned, _, _, _, hnot⟩ :=
    hps_set_up_never_copies wrapping onePixel onePixel_text 50
      (rfl : zeroedData.imageCopyDone = false)
  ⟨after, hreturned, hnot⟩

theorem one_pixel_not_copied :
    ∃ after, hpsSetUp wrapping (some [49, 44, 49, 44, 55]) 50 zeroedData =
        some ⟨0, after⟩ ∧
      after.imageW = 7 ∧ after.imageH = 0 ∧ after.imageCopyDone = false ∧
      ¬onePixel.Copied zeroedData after := by
  obtain ⟨last, hlast, hreturned⟩ :=
    hpsSetUp_text wrapping onePixel onePixel_text 50 zeroedData
  refine ⟨_, hreturned, ?_, rfl, rfl, ?_⟩
  · cases hlast
    rfl
  · intro hcopied
    exact Bool.false_ne_true hcopied.imageCopyDone

end NiosHps.Board
