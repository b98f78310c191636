import ApiSurface.Live.Heap
import ApiSurface.Text.Split

/-!
Judging how a run ended. What the library throws on unsuitable arguments is expected; what else it
throws is a defect, unless it says that it came to where it should never be.
-/

namespace ApiSurface.Run

open Live

/-- How a run ended. -/
inductive Verdict where
  /-- Every call completed. -/
  | pass
  /-- The library threw what is expected of it. -/
  | benign
  /-- The library threw what shows a defect. -/
  | defect
  /-- The library came to code that it declares unreachable. -/
  | abort
  deriving Repr, DecidableEq

/-- Whether the run is none to look into. -/
def Verdict.passed : Verdict → Bool
  | pass | benign => true
  | defect | abort => false

/-- The name of a verdict. -/
def Verdict.name : Verdict → String
  | pass => "Pass"
  | benign => "Benign"
  | defect => "Defect"
  | abort => "Abort"

/-- The verdict on a value that was thrown, given the heap it lives on. -/
abbrev Oracle (β : Type) := Heap β → Value → Verdict

namespace Oracle

variable {β : Type}

/-- The oracle that takes what a predicate accepts as expected and all else for a defect. -/
def ofPredicate (expected : Heap β → Value → Bool) : Oracle β :=
  fun h v => if expected h v then .benign else .defect

/-- The entry among ignored messages that makes everything expected. -/
def ignoreAll : String :=
  "SHAPEFUZZ_IGNORE_ALL"

/-- Pieces of the messages with which the host refuses arguments. -/
def refusals : List String :=
  ["Invalid typed array length", "Invalid array buffer length",
    "Invalid flags supplied to RegExp constructor", "Invalid regular expression"]

/-- Whether the value is an error of a sort that validation throws. -/
def isValidation (h : Heap β) (v : Value) : Bool :=
  match h.error? v with
  | some (.typeError, _) | some (.rangeError, _) => true
  | _ => false

/-- Whether the message is one to ignore. -/
def isIgnored (ignored : List String) (message : String) : Bool :=
  ignored.any fun piece => piece == ignoreAll || Text.contains message piece

/-- The oracle that expects refused arguments and the given pieces of messages. -/
def ofIgnored (ignored : List String) : Oracle β := fun h v =>
  let message := h.messageOf v
  if isValidation h v then .benign
  else if isIgnored ignored message || refusals.any (Text.contains message) then .benign
  else if Text.contains message "unreachable" then .abort
  else .defect

end Oracle

end ApiSurface.Run
