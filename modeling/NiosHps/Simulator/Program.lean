import NiosHps.Simulator.Sdram

/-!
# The whole program (`filtro/src/main.c`, `parse.c`)

`parse_args` goes through the command line, `init_memory` loads the bitmap under
the share it leaves, the three threads run, and `save_filtered_image` writes the
other sector out.  The library splits the command line into the keys that it
hands to `parse_opt` and converts numbers; both are parameters.
-/

namespace NiosHps.Simulator

open NiosHps.Foundation
open NiosHps.Filter

/-! ## The command line -/

inductive CFloat where
  | number (value : ℚ)
  | infinite (negative : Bool)
  | nan

namespace CFloat

def below (bound : ℚ) : CFloat → Prop
  | number value => value < bound
  | infinite negative => negative
  | nan => False

def above (bound : ℚ) : CFloat → Prop
  | number value => value > bound
  | infinite negative => !negative
  | nan => False

instance (bound : ℚ) : DecidablePred (below bound)
  | number value => inferInstanceAs (Decidable (value < bound))
  | infinite negative => inferInstanceAs (Decidable (negative = true))
  | nan => inferInstanceAs (Decidable False)

instance (bound : ℚ) : DecidablePred (above bound)
  | number value => inferInstanceAs (Decidable (value > bound))
  | infinite negative => inferInstanceAs (Decidable ((!negative) = true))
  | nan => inferInstanceAs (Decidable False)

def oneMinus : CFloat → CFloat
  | number value => number (roundTo floatPrecision (1 - value))
  | infinite negative => infinite !negative
  | nan => nan

end CFloat

structure FloatArguments where
  percentQsys : CFloat
  percentCortex : CFloat

def Arguments.toFloat (arguments : Arguments) : FloatArguments where
  percentQsys := .number arguments.percentQsys
  percentCortex := .number arguments.percentCortex

/-- A key that the library hands to `parse_opt`. -/
inductive ArgpKey where
  | cortex (arg : String)
  | keyArg
  | other

section CommandLine

variable (strtof : String → Option CFloat)

/-- `argp_error` and `argp_usage` leave the program; other keys are not known. -/
def parseOptKey (arguments : FloatArguments) : ArgpKey → Option FloatArguments
  | .cortex arg =>
      match strtof arg with
      | none => none
      | some percent =>
          if percent.below 0 ∨ percent.above 1 then none
          else some { percentCortex := percent, percentQsys := percent.oneMinus }
  | .keyArg => none
  | .other => some arguments

def parseArgs (keys : List ArgpKey) : Option FloatArguments :=
  keys.foldlM (parseOptKey strtof) defaultArguments.toFloat

def ArgpKey.Accepted : ArgpKey → Prop
  | .cortex arg => ∃ percent, strtof arg = some percent ∧
      ¬(percent.below 0 ∨ percent.above 1)
  | .keyArg => False
  | .other => True

def ArgpKey.percent? : ArgpKey → Option CFloat
  | .cortex arg => strtof arg
  | .keyArg | .other => none

def lastPercent (keys : List ArgpKey) : Option CFloat :=
  (keys.filterMap (ArgpKey.percent? strtof)).getLast?

def argumentsOf (before : FloatArguments) : Option CFloat → FloatArguments
  | none => before
  | some percent => { percentCortex := percent, percentQsys := percent.oneMinus }

variable {strtof}

theorem parseOptKey_eq_some {key : ArgpKey} {before after : FloatArguments} :
    parseOptKey strtof before key = some after ↔
      key.Accepted strtof ∧ after = argumentsOf before (key.percent? strtof) := by
  cases key with
  | keyArg => simp [parseOptKey, ArgpKey.Accepted]
  | other => simp [parseOptKey, ArgpKey.Accepted, ArgpKey.percent?, argumentsOf,
      eq_comm]
  | cortex text =>
      cases hvalue : strtof text with
      | none => simp [parseOptKey, ArgpKey.Accepted, hvalue]
      | some percent =>
          simp only [parseOptKey, ArgpKey.Accepted, ArgpKey.percent?, argumentsOf,
            hvalue, Option.some.injEq, exists_eq_left']
          split_ifs with hrange
          · exact iff_of_false (by simp) fun h => h.1 hrange
          · simp only [hrange, not_false_eq_true, true_and, Option.some.injEq,
              eq_comm]

theorem argumentsOf_lastPercent_cons (before : FloatArguments) (key : ArgpKey)
    (keys : List ArgpKey) :
    argumentsOf before (lastPercent strtof (key :: keys)) =
      argumentsOf (argumentsOf before (key.percent? strtof))
        (lastPercent strtof keys) := by
  unfold lastPercent
  cases hpercent : key.percent? strtof with
  | none => rw [List.filterMap_cons_none hpercent]; rfl
  | some percent =>
      rw [List.filterMap_cons_some hpercent, List.getLast?_cons]
      cases (keys.filterMap (ArgpKey.percent? strtof)).getLast? <;> rfl

theorem foldlM_parseOptKey {keys : List ArgpKey}
    {before after : FloatArguments} :
    keys.foldlM (parseOptKey strtof) before = some after ↔
      (∀ key ∈ keys, key.Accepted strtof) ∧
        after = argumentsOf before (lastPercent strtof keys) := by
  induction keys generalizing before with
  | nil => simp [lastPercent, argumentsOf, eq_comm]
  | cons key keys ih =>
      rw [List.foldlM_cons, Option.bind_eq_bind, Option.bind_eq_some_iff,
        argumentsOf_lastPercent_cons]
      constructor
      · rintro ⟨between, hkey, hkeys⟩
        obtain ⟨haccepted, rfl⟩ := parseOptKey_eq_some.mp hkey
        obtain ⟨hrest, rfl⟩ := ih.mp hkeys
        exact ⟨List.forall_mem_cons.mpr ⟨haccepted, hrest⟩, rfl⟩
      · rintro ⟨haccepted, rfl⟩
        obtain ⟨hkey, hrest⟩ := List.forall_mem_cons.mp haccepted
        exact ⟨_, parseOptKey_eq_some.mpr ⟨hkey, rfl⟩, ih.mpr ⟨hrest, rfl⟩⟩

theorem accepted_of_lastPercent {keys : List ArgpKey} {percent : CFloat}
    (haccepted : ∀ key ∈ keys, key.Accepted strtof)
    (hlast : lastPercent strtof keys = some percent) :
    (∃ arg, strtof arg = some percent) ∧
      ¬(percent.below 0 ∨ percent.above 1) := by
  obtain ⟨key, hkey, hpercent⟩ :=
    List.mem_filterMap.mp (List.mem_of_getLast? hlast)
  have hkey' := haccepted key hkey
  cases key with
  | cortex arg =>
      obtain ⟨percent', hvalue, hrange⟩ := hkey'
      obtain rfl : percent' = percent :=
        Option.some.inj (hvalue.symm.trans hpercent)
      exact ⟨⟨arg, hvalue⟩, hrange⟩
  | keyArg => simp [ArgpKey.percent?] at hpercent
  | other => simp [ArgpKey.percent?] at hpercent

/-- The numbers that `strtof` returns are single-precision numbers. -/
def ReturnsFloats (strtof : String → Option CFloat) : Prop :=
  ∀ arg value, strtof arg = some (.number value) →
    Representable floatPrecision value

theorem argumentsOf_number {value : ℚ}
    (hrange : ¬((CFloat.number value).below 0 ∨ (CFloat.number value).above 1))
    (before : FloatArguments) :
    ∃ arguments, parseOpt value = some arguments ∧
      argumentsOf before (some (.number value)) = arguments.toFloat := by
  have hrange' : ¬(value < 0 ∨ value > 1) := hrange
  exact ⟨_, if_neg hrange', rfl⟩

theorem parseArgs_cases (hfloats : ReturnsFloats strtof) {keys : List ArgpKey}
    {result : FloatArguments} (hparse : parseArgs strtof keys = some result) :
    (lastPercent strtof keys = some .nan ∧ result = ⟨.nan, .nan⟩) ∨
      ∃ arguments : Arguments, arguments.Parsed ∧
        result = arguments.toFloat := by
  obtain ⟨haccepted, rfl⟩ := foldlM_parseOptKey.mp hparse
  cases hlast : lastPercent strtof keys with
  | none => exact .inr ⟨defaultArguments, .inl rfl, rfl⟩
  | some percent =>
      obtain ⟨⟨arg, hvalue⟩, hrange⟩ := accepted_of_lastPercent haccepted hlast
      cases percent with
      | number value =>
          obtain ⟨arguments, hopt, harguments⟩ :=
            argumentsOf_number hrange defaultArguments.toFloat
          exact .inr ⟨arguments, .inr ⟨value, hfloats arg value hvalue, hopt⟩,
            harguments⟩
      | infinite negative =>
          cases negative <;> simp [CFloat.below, CFloat.above] at hrange
      | nan => exact .inl ⟨rfl, rfl⟩

end CommandLine

/--
`parse_args` over any command line: it returns exactly if no key is an argument
and every `-c` converts and is neither below 0 nor above 1, and then the last
`-c` decides.  The shares it returns are those of the default or of one number,
but for one hole in the test of the range: after a last `-c nan` both are NaN.
-/
theorem parse_args_returns_iff (strtof : String → Option CFloat)
    (hfloats : ReturnsFloats strtof) (keys : List ArgpKey)
    (result : FloatArguments) :
    (parseArgs strtof keys = some result ↔
      (∀ key ∈ keys, key.Accepted strtof) ∧
        result = argumentsOf defaultArguments.toFloat
          (lastPercent strtof keys)) ∧
    (parseArgs strtof keys = some result →
      (lastPercent strtof keys = some .nan ∧ result = ⟨.nan, .nan⟩) ∨
        ∃ arguments : Arguments, arguments.Parsed ∧
          result = arguments.toFloat) := by
  exact ⟨foldlM_parseOptKey, parseArgs_cases hfloats⟩

def testStrtof : String → Option CFloat
  | "0.5" => some (.number (1 / 2))
  | "nan" => some .nan
  | _ => none

theorem testStrtof_floats : ReturnsFloats testStrtof := by
  intro arg value hvalue
  have hhalf : value = 1 / 2 := by
    unfold testStrtof at hvalue
    split at hvalue <;> simp_all
  exact ⟨1, -1, by norm_num [floatPrecision], by rw [hhalf]; norm_num⟩

theorem parse_args_returns_iff_nan :
    parseArgs testStrtof [.other, .cortex "0.5", .cortex "nan"] =
      some ⟨.nan, .nan⟩ := by
  refine (parse_args_returns_iff testStrtof testStrtof_floats _ _).1.mpr ⟨?_, ?_⟩
  · simp [ArgpKey.Accepted, testStrtof, CFloat.below, CFloat.above]
    norm_num
  · rfl

/-! ## From the command line to the saved image -/

section WholeProgram

variable {conv : FloatToU8} {padding : Nat → UInt8} {arguments : Arguments}
  {dib : Bitmap} {load : Load}

end WholeProgram

end NiosHps.Simulator
