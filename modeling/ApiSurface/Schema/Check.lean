import ApiSurface.Schema.Basic
import ApiSurface.Text.Split

/-!
What has to hold of a schema before it is used: mass on objects, arrays and instances comes with
what is known about their parts; every class that is named has a constructor; the receiver of a
method is certainly an instance of the class that its name is under; a constructor certainly returns
its class.
-/

namespace ApiSurface.Schema

/-- What can be wrong at one place of an entry. -/
inductive Problem where
  | noShape
  | noItems
  | noClasses
  | noConstructor (name : String)
  | noOwner
  | wrongReceiver (owner : String)
  | wrongResult (name : String)
  deriving Repr, DecidableEq

/-- The wording of a problem. -/
def Problem.message : Problem → String
  | noShape => "Object kind without objectShape"
  | noItems => "Array kind without arrayValueType"
  | noClasses => "Class kind without classType"
  | noConstructor name => "class " ++ name ++ " has no Constructor entry"
  | noOwner => "method name has no owning class"
  | wrongReceiver owner => "method receiver is not certainly an instance of " ++ owner
  | wrongResult name => "constructor does not certainly return " ++ name

/-- A problem, with the entry and the place in its signature. -/
structure Violation where
  entry : String
  path : String
  problem : Problem
  deriving Repr, DecidableEq

/-- The line that reports a violation. -/
def Violation.message (v : Violation) : String :=
  v.entry ++ v.path ++ ": " ++ v.problem.message

open Guess

mutual

/-- The problems of a guess and the guesses nested in it, each with its place. A shape or items
without mass on their kind are not looked at. -/
def guessProblems (s : Schema) (path : String) : Guess → List (String × Problem)
  | .any => []
  | .known mass shape items classes =>
    (if massIn mass .object > 0 then shapeProblems s path shape else [])
      ++ (if massIn mass .array > 0 then itemsProblems s path items else [])
      ++ (if massIn mass .ofClass > 0 then classProblems s path classes else [])

/-- The problems of the shape of an object. -/
def shapeProblems (s : Schema) (path : String) :
    Option (List (String × Guess)) → List (String × Problem)
  | none => [(path, .noShape)]
  | some fields => fieldProblems s path fields

/-- The problems of the properties of an object. -/
def fieldProblems (s : Schema) (path : String) : List (String × Guess) → List (String × Problem)
  | [] => []
  | (k, g) :: r => guessProblems s (path ++ "." ++ k) g ++ fieldProblems s path r

/-- The problems of the items of an array. -/
def itemsProblems (s : Schema) (path : String) : Option Guess → List (String × Problem)
  | none => [(path, .noItems)]
  | some g => guessProblems s (path ++ "[]") g

/-- The classes of an instance that have no constructor. -/
def classProblems (s : Schema) (path : String) :
    Option (List (String × Float)) → List (String × Problem)
  | none => [(path, .noClasses)]
  | some classes =>
    (classes.filter fun p => !s.hasConstructor p.1).map fun p => (path, .noConstructor p.1)

end

/-- Whether a guess leaves no doubt that the value is an instance of the class. -/
def certainlyOf (name : String) : Guess → Bool
  | .known mass _ _ (some classes) =>
    massIn mass .ofClass == 1 && (Table.find? classes name).any (· == 1)
  | _ => false

/-- The problems of an entry's convention. -/
def conventionProblems (name : String) (e : Entry) : List (String × Problem) :=
  match e.convention with
  | .free => []
  | .constructor => if certainlyOf name e.ret then [] else [(".ret", .wrongResult name)]
  | .method =>
    match Text.owner? name with
    | none => [("", .noOwner)]
    | some owner =>
      if e.args.head?.any (certainlyOf owner) then [] else [(".args[0]", .wrongReceiver owner)]

/-- The problems of the arguments from position `i` on. -/
def argProblems (s : Schema) (i : Nat) : List Guess → List (String × Problem)
  | [] => []
  | g :: r => guessProblems s (".args[" ++ toString i ++ "]") g ++ argProblems s (i + 1) r

/-- The problems of an entry. -/
def entryProblems (s : Schema) (name : String) (e : Entry) : List (String × Problem) :=
  argProblems s 0 e.args ++ guessProblems s ".ret" e.ret ++ conventionProblems name e

/-- Every violation of a schema. -/
def violations (s : Schema) : List Violation :=
  s.entries.flatMap fun p =>
    (entryProblems s p.1 p.2).map fun q => { entry := p.1, path := q.1, problem := q.2 }

/-- The report of violations: how many, and one line for each. -/
def report (vs : List Violation) : String :=
  "schema has " ++ toString vs.length ++ " invariant violation(s):\n"
    ++ "\n".intercalate (vs.map fun v => "  " ++ v.message)

/-- Refuses a schema that has violations. -/
def validate (s : Schema) : Except (List Violation) Unit :=
  match s.violations with
  | [] => .ok ()
  | vs => .error vs

end ApiSurface.Schema
