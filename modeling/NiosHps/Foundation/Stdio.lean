import Mathlib.Data.Nat.Digits.Lemmas

/-!
# Formatted input

The part of the C input functions that reads decimal integers: `%d` and a
literal character of `fscanf`, and `fgets`.  A stream is the list of the bytes
that are left in it.  Integers are unbounded; what a number out of the range of
`int` is converted to is left to the caller.
-/

namespace NiosHps.Foundation

/-! ## Decimal text -/

def isSpace (b : UInt8) : Bool := b == 32 || (9 ≤ b && b ≤ 13)

def isDigit (b : UInt8) : Bool := 48 ≤ b && b ≤ 57

def isSign (b : UInt8) : Bool := b == 43 || b == 45

def digitsValue (digits : List UInt8) : Nat :=
  digits.foldl (fun value b => 10 * value + (b.toNat - 48)) 0

def digitByte (digit : Nat) : UInt8 := UInt8.ofNat (48 + digit)

def decimal (n : Nat) : List UInt8 :=
  if n = 0 then [48] else ((Nat.digits 10 n).map digitByte).reverse

theorem digitByte_toNat {digit : Nat} (hdigit : digit < 10) :
    (digitByte digit).toNat = 48 + digit := by
  have hbyte : 48 + digit < 256 := by omega
  exact UInt8.toNat_ofNat_of_lt' hbyte

theorem isDigit_digitByte {digit : Nat} (hdigit : digit < 10) :
    isDigit (digitByte digit) := by
  have hvalue := digitByte_toNat hdigit
  simp [isDigit, UInt8.le_iff_toNat_le, hvalue]
  omega

theorem digitsValue_reverse {digits : List Nat}
    (hdigits : ∀ digit ∈ digits, digit < 10) :
    digitsValue (digits.map digitByte).reverse = Nat.ofDigits 10 digits := by
  induction digits with
  | nil => rfl
  | cons digit digits ih =>
      have hvalue := digitByte_toNat (hdigits digit List.mem_cons_self)
      have htail := ih fun d hd => hdigits d (List.mem_cons_of_mem _ hd)
      rw [digitsValue] at htail ⊢
      rw [List.map_cons, List.reverse_cons, List.foldl_append, htail,
        Nat.ofDigits_cons]
      simp only [List.foldl_cons, List.foldl_nil, hvalue]
      omega

theorem digitsValue_decimal (n : Nat) : digitsValue (decimal n) = n := by
  rw [decimal]
  split_ifs with hzero
  · rw [hzero]
    rfl
  · rw [digitsValue_reverse fun d hd => Nat.digits_lt_base (by decide) hd,
      Nat.ofDigits_digits]

theorem decimal_ne_nil (n : Nat) : decimal n ≠ [] := by
  rw [decimal]
  split_ifs with hzero
  · simp
  · have hdigits : Nat.digits 10 n ≠ [] := Nat.digits_ne_nil_iff_ne_zero.mpr hzero
    simpa using hdigits

theorem isDigit_of_mem_decimal {n : Nat} {b : UInt8} (hb : b ∈ decimal n) :
    isDigit b := by
  rw [decimal] at hb
  split_ifs at hb with hzero
  · rw [List.mem_singleton.mp hb]
    rfl
  · obtain ⟨digit, hdigit, rfl⟩ := List.mem_map.mp (List.mem_reverse.mp hb)
    exact isDigit_digitByte (Nat.digits_lt_base (by decide) hdigit)

theorem not_isSpace_of_isDigit {b : UInt8} (hb : isDigit b) : ¬isSpace b := by
  simp [isDigit, UInt8.le_iff_toNat_le] at hb
  simp [isSpace, UInt8.le_iff_toNat_le, ← UInt8.toNat_inj]
  omega

theorem not_isSign_of_isDigit {b : UInt8} (hb : isDigit b) : ¬isSign b := by
  simp [isDigit, UInt8.le_iff_toNat_le] at hb
  simp [isSign, ← UInt8.toNat_inj]
  omega

/-! ## Reading -/

inductive Scan where
  | eof
  | mismatch (rest : List UInt8)
  | converted (value : Int) (rest : List UInt8)
  deriving DecidableEq, Repr

def scanDigits (negative : Bool) (input : List UInt8) : Scan :=
  let digits := input.takeWhile isDigit
  if digits = [] then .mismatch input
  else
    .converted (if negative then -digitsValue digits else digitsValue digits)
      (input.dropWhile isDigit)

/-- `%d`: a sign without digits is consumed, any other mismatch is not. -/
def scanInt (input : List UInt8) : Scan :=
  match input.dropWhile isSpace with
  | [] => .eof
  | b :: rest =>
      if isSign b then scanDigits (b == 45) rest else scanDigits false (b :: rest)

def skipLiteral (literal : UInt8) : List UInt8 → List UInt8
  | [] => []
  | b :: rest => if b = literal then rest else b :: rest

/-- `%d` and a literal, the failure of which does not change the result. -/
def scanIntThen (literal : UInt8) (input : List UInt8) : Scan :=
  match scanInt input with
  | .converted value rest => .converted value (skipLiteral literal rest)
  | .mismatch rest => .mismatch rest
  | .eof => .eof

/-- What `fgets` leaves: at most `n` bytes are read, a newline being the last. -/
def skipLine : Nat → List UInt8 → List UInt8
  | _, [] => []
  | 0, input => input
  | n + 1, b :: rest => if b = 10 then rest else skipLine n rest

/-! ## Progress -/

theorem skipLine_length_le (n : Nat) (input : List UInt8) :
    (skipLine n input).length ≤ input.length := by
  induction n, input using skipLine.induct with
  | case1 n => simp [skipLine]
  | case2 input hinput => simp [skipLine]
  | case3 n rest => simp [skipLine]
  | case4 n b rest hb ih =>
      rw [skipLine, if_neg hb, List.length_cons]
      omega

theorem skipLine_length_lt (n : Nat) {input : List UInt8} (hinput : input ≠ []) :
    (skipLine (n + 1) input).length < input.length := by
  cases input with
  | nil => exact absurd rfl hinput
  | cons b rest =>
      rw [skipLine, List.length_cons]
      split_ifs with hnewline
      · exact Nat.lt_succ_self _
      · exact Nat.lt_succ_of_le (skipLine_length_le n rest)

theorem skipLiteral_length_le (literal : UInt8) (input : List UInt8) :
    (skipLiteral literal input).length ≤ input.length := by
  cases input with
  | nil => exact le_rfl
  | cons b rest =>
      rw [skipLiteral]
      split_ifs
      · exact Nat.le_succ _
      · exact le_rfl

theorem scanDigits_cases (negative : Bool) (input : List UInt8) :
    scanDigits negative input = .mismatch input ∨
      ∃ value rest, scanDigits negative input = .converted value rest ∧
        rest.length < input.length := by
  rw [scanDigits]
  by_cases hdigits : input.takeWhile isDigit = []
  · exact Or.inl (if_pos hdigits)
  · right
    refine ⟨_, _, if_neg hdigits, ?_⟩
    have hsplit := congrArg List.length
      (List.takeWhile_append_dropWhile (p := isDigit) (l := input))
    have hpos := List.length_pos_iff.mpr hdigits
    rw [List.length_append] at hsplit
    omega

theorem scanInt_cases (input : List UInt8) :
    scanInt input = .eof ∨
      ∃ negative body, scanInt input = scanDigits negative body ∧
        body.length ≤ input.length ∧
        (body ≠ [] ∨ body.length < input.length) := by
  have hspace := (List.dropWhile_sublist isSpace (l := input)).length_le
  rw [scanInt]
  cases hinput : input.dropWhile isSpace with
  | nil => exact Or.inl rfl
  | cons b rest =>
      right
      rw [hinput, List.length_cons] at hspace
      by_cases hsign : isSign b
      · refine ⟨b == 45, rest, if_pos hsign, by omega, Or.inr (by omega)⟩
      · refine ⟨false, b :: rest, if_neg hsign, hspace, Or.inl ?_⟩
        exact List.cons_ne_nil b rest

theorem scanIntThen_cases (literal : UInt8) (input : List UInt8) :
    scanIntThen literal input = .eof ∨
      (∃ rest, scanIntThen literal input = .mismatch rest ∧
        rest.length ≤ input.length ∧
        (rest ≠ [] ∨ rest.length < input.length)) ∨
      ∃ value rest, scanIntThen literal input = .converted value rest ∧
        rest.length < input.length := by
  rw [scanIntThen]
  rcases scanInt_cases input with heof | ⟨negative, body, hscan, hlength, hbody⟩
  · rw [heof]
    exact Or.inl rfl
  rw [hscan]
  rcases scanDigits_cases negative body with hnone | ⟨value, rest, hsome, hlt⟩
  · rw [hnone]
    exact Or.inr (Or.inl ⟨body, rfl, hlength, hbody⟩)
  · rw [hsome]
    have hliteral := skipLiteral_length_le literal rest
    exact Or.inr (Or.inr ⟨value, _, rfl, by omega⟩)

theorem scanIntThen_converted {literal : UInt8} {input rest : List UInt8}
    {value : Int} (hscan : scanIntThen literal input = .converted value rest) :
    rest.length < input.length := by
  have hcases := scanIntThen_cases literal input
  simp only [hscan, reduceCtorEq, Scan.converted.injEq, false_and, exists_false,
    false_or] at hcases
  obtain ⟨-, rest', ⟨-, rfl⟩, hlt⟩ := hcases
  exact hlt

theorem skipLine_mismatch_length_lt {literal : UInt8} {input rest : List UInt8}
    (n : Nat) (hscan : scanIntThen literal input = .mismatch rest) :
    (skipLine (n + 1) rest).length < input.length := by
  have hcases := scanIntThen_cases literal input
  simp only [hscan, reduceCtorEq, Scan.mismatch.injEq, false_and, exists_false,
    false_or, or_false] at hcases
  obtain ⟨rest', rfl, hle, hrest | hlt⟩ := hcases
  · exact (skipLine_length_lt n hrest).trans_le hle
  · exact (skipLine_length_le _ rest).trans_lt hlt

/-! ## Numbers between separators -/

/-- Decimal numbers with a separator between any two, and spaces before each. -/
inductive NumbersText (separator : UInt8) : List Nat → List UInt8 → Prop where
  | last (spaces : List UInt8) (n : Nat) (hspaces : ∀ b ∈ spaces, isSpace b) :
      NumbersText separator [n] (spaces ++ decimal n)
  | cons (spaces : List UInt8) (n : Nat) (ns : List Nat) (text : List UInt8)
      (hspaces : ∀ b ∈ spaces, isSpace b) (htext : NumbersText separator ns text) :
      NumbersText separator (n :: ns) (spaces ++ (decimal n ++ separator :: text))

theorem scanInt_decimal {spaces rest : List UInt8} (n : Nat)
    (hspaces : ∀ b ∈ spaces, isSpace b)
    (hrest : ∀ b ∈ rest.head?, ¬isDigit b) :
    scanInt (spaces ++ (decimal n ++ rest)) = .converted n rest := by
  have hafter : rest.takeWhile isDigit = [] ∧ rest.dropWhile isDigit = rest := by
    cases rest with
    | nil => exact ⟨rfl, rfl⟩
    | cons b rest => simp [hrest b rfl]
  have hdigits : scanDigits false (decimal n ++ rest) = .converted n rest := by
    have hall : ∀ b ∈ decimal n, isDigit b := fun b => isDigit_of_mem_decimal
    rw [scanDigits, List.takeWhile_append_of_pos hall,
      List.dropWhile_append_of_pos hall, hafter.1, hafter.2, List.append_nil]
    simp [decimal_ne_nil, digitsValue_decimal]
  obtain ⟨b, digits, hdecimal⟩ := List.exists_cons_of_ne_nil (decimal_ne_nil n)
  have hb : isDigit b := by
    apply isDigit_of_mem_decimal (n := n)
    rw [hdecimal]
    exact List.mem_cons_self
  rw [hdecimal, List.cons_append] at hdigits ⊢
  rw [scanInt, List.dropWhile_append_of_pos hspaces,
    List.dropWhile_cons_of_neg (not_isSpace_of_isDigit hb)]
  show (if isSign b then _ else _) = _
  rw [if_neg (not_isSign_of_isDigit hb), hdigits]

theorem scanIntThen_separated {separator : UInt8} {spaces : List UInt8} (n : Nat)
    (text : List UInt8) (hspaces : ∀ b ∈ spaces, isSpace b)
    (hseparator : ¬isDigit separator) :
    scanIntThen separator (spaces ++ (decimal n ++ separator :: text)) =
      .converted n text := by
  rw [scanIntThen, scanInt_decimal n hspaces (by simpa using hseparator)]
  simp [skipLiteral]

theorem scanIntThen_last {separator : UInt8} {spaces : List UInt8} (n : Nat)
    (hspaces : ∀ b ∈ spaces, isSpace b) :
    scanIntThen separator (spaces ++ decimal n) = .converted n [] := by
  have hscan : scanInt (spaces ++ (decimal n ++ [])) = .converted n [] :=
    scanInt_decimal n hspaces (by simp)
  rw [List.append_nil] at hscan
  rw [scanIntThen, hscan]
  rfl

end NiosHps.Foundation
