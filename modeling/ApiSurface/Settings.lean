import ApiSurface.Json.Decode
import ApiSurface.Json.Reader

/-!
The settings of a worker that reflects on a library and runs plans. A text in JSON sets any of them;
variables of the environment override the result.
-/

namespace ApiSurface

/-- How a worker goes about its job. -/
structure Settings where
  /-- The greatest length in bytes of a text made from bytes. -/
  maxTextLength : Nat := 128
  /-- The greatest length of an array made from bytes. -/
  maxArrayLength : Nat := 16
  /-- How many objects deep reflection looks for functions. -/
  maxDepth : Nat := 2
  /-- Whether reflection only binds functions whose names the schema knows. -/
  onlyKnown : Bool := false
  /-- The names that reflection never binds, ascending. -/
  skipped : List String := []
  /-- Pieces of messages that mark what was thrown as expected. -/
  ignoredErrors : List String := []
  /-- Whether every run of a graph is checked once more when it is over. -/
  heavyAssertions : Bool := false
  /-- Whether everything thrown is logged. -/
  logErrors : Bool := false
  deriving DecidableEq

namespace Settings

open Json

/-- The fields in the order of their declaration. -/
def fieldNames : List (List String) :=
  [["stringMaxLength"], ["maxArrayLength"], ["maxObjectMappingDepth"],
    ["skipEndpointsNotInSchema"], ["methodsToSkip"], ["ignoredErrors"], ["heavyAssertions"],
    ["logErrors"]]

/-- The texts without repetition, ascending. -/
def ascending (names : List String) : List String :=
  Table.keys (Table.ofList (names.map fun n => (n, ())))

/-- Reads settings; a field that is not there has its usual value. -/
def decode? (j : Json) : Option Settings := do
  let usual : Settings := {}
  let [textLimit, arrayLimit, depth, known, skip, ignored, heavy, log] ← record? fieldNames j | none
  return {
    maxTextLength := ← defaulted? usual.maxTextLength nat? textLimit
    maxArrayLength := ← defaulted? usual.maxArrayLength nat? arrayLimit
    maxDepth := ← defaulted? usual.maxDepth nat? depth
    onlyKnown := ← defaulted? usual.onlyKnown bool? known
    skipped := ascending (← defaulted? [] (list? text?) skip)
    ignoredErrors := ← defaulted? [] (list? text?) ignored
    heavyAssertions := ← defaulted? usual.heavyAssertions bool? heavy
    logErrors := ← defaulted? usual.logErrors bool? log }

/-- The written form of settings. -/
def encode (s : Settings) : Json :=
  .object [("stringMaxLength", .integer s.maxTextLength),
    ("maxArrayLength", .integer s.maxArrayLength), ("maxObjectMappingDepth", .integer s.maxDepth),
    ("skipEndpointsNotInSchema", .bool s.onlyKnown),
    ("methodsToSkip", .array (s.skipped.map .text)),
    ("ignoredErrors", .array (s.ignoredErrors.map .text)),
    ("heavyAssertions", .bool s.heavyAssertions), ("logErrors", .bool s.logErrors)]

/-- Reads the text of settings. -/
def ofText? (text : String) : Option Settings :=
  (Json.read? text).bind decode?

/-! ## Variables of the environment -/

/-- A natural number of 64 bits written with decimal digits, after a plus sign if there is one. -/
def natural? (text : String) : Option Nat :=
  let digits := match text.toList with
    | '+' :: r => r
    | cs => cs
  if digits.isEmpty || !digits.all Char.isDigit then none
  else
    let n := Decimal.natOfDigits digits
    if n ≤ Decimal.maxWord then some n else none

/-- A switch: `1`, `true` and `yes` turn it on, `0`, `false` and `no` off, in letters of either
case. -/
def switch? (text : String) : Option Bool :=
  let word := text.map Char.toLower
  if ["1", "true", "yes"].contains word then some true
  else if ["0", "false", "no"].contains word then some false
  else none

/-- Settings with what the variables of an environment say. A variable that does not read as what it
stands for is passed over. -/
def override (environment : String → Option String) (s : Settings) : Settings :=
  let number (name : String) (dflt : Nat) : Nat := ((environment name).bind natural?).getD dflt
  let switch (name : String) (dflt : Bool) : Bool := ((environment name).bind switch?).getD dflt
  { s with
    maxTextLength := number "SHAPEFUZZ_STRING_MAX_LENGTH" s.maxTextLength
    maxArrayLength := number "SHAPEFUZZ_MAX_ARRAY_LENGTH" s.maxArrayLength
    maxDepth := number "SHAPEFUZZ_MAX_MAPPING_DEPTH" s.maxDepth
    onlyKnown := switch "SHAPEFUZZ_SKIP_UNKNOWN" s.onlyKnown
    heavyAssertions := switch "SHAPEFUZZ_HEAVY_ASSERTIONS" s.heavyAssertions
    logErrors := switch "SHAPEFUZZ_LOG_ERRORS" s.logErrors }

end Settings

end ApiSurface
