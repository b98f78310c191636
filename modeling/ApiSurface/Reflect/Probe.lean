import ApiSurface.Live.Call
import ApiSurface.Schema.Standard
import ApiSurface.Text.Split

/-!
Telling constructors from plain functions. That cannot be read off a live function, so it is called
and constructed without arguments, and the wording of what it throws is looked at. Library code runs
in the course of it.
-/

namespace ApiSurface.Reflect

open Live

variable {β σ : Type}

/-- What a function turned out to be. -/
inductive CallableKind where
  | constructor
  | function
  /-- Nothing speaks for either; such a function counts as a plain one. -/
  | ambiguous
  deriving Repr, DecidableEq

/-- The name of what a function turned out to be. -/
def CallableKind.name : CallableKind → String
  | constructor => "Constructor"
  | function => "Function"
  | ambiguous => "Ambiguous"

/-- Pieces of the messages with which a constructor refuses to be called. -/
def callRefusals : List String :=
  ["requires 'new'", "cannot be invoked without 'new'",
    "cannot call a class constructor without |new|"]

/-- Pieces of the messages with which a function refuses to construct. -/
def constructRefusals : List String :=
  ["is not a constructor"]

/-- Whether a value is a type error whose message has one of the pieces. -/
def isTypeErrorWith (h : Heap β) (pieces : List String) (v : Value) : Bool :=
  match h.error? v with
  | some (.typeError, message) => pieces.any (Text.contains message)
  | _ => false

/-- Whether an invocation ended by throwing a type error whose message has one of the pieces. -/
def refusedWith (h : Heap β) (pieces : List String) : Except Value Value → Bool
  | .ok _ => false
  | .error v => isTypeErrorWith h pieces v

/-- The functions that an object has itself, without the members that every object has. -/
def ownMethods (h : Heap β) (id : Nat) : List (String × Value) :=
  (h.properties id).filterMap fun p =>
    if Standard.isMember p.1 then none
    else
      match p.2.value? with
      | some v => if h.isCallable v then some (p.1, v) else none
      | none => none

/-- Whether the prototype for instances of a function has methods. -/
def hasMethods (h : Heap β) (f : Value) : Bool :=
  match h.get f Building.prototypeKey with
  | .object p => !(ownMethods h p).isEmpty
  | _ => false

/-- Whether a function gives properties to the receiver that it is called with. -/
def initializes (lib : Library β σ) (f : Value) : StateM (World β σ) Bool := fun w =>
  let fresh := w.heap.alloc { kind := .ordinary }
  let w' := (call lib f (.object fresh.1) [] { w with heap := fresh.2 }).2
  (!(w'.heap.entries fresh.1).isEmpty, w')

/-- What a function turns out to be when it is tried. -/
def classify (lib : Library β σ) (f : Value) : StateM (World β σ) CallableKind := do
  let called ← (call lib f .undefined []).run
  if refusedWith (← get).heap callRefusals called then return .constructor
  let constructed ← (construct lib f []).run
  let h := (← get).heap
  if refusedWith h constructRefusals constructed then return .function
  match f.object? with
  | none => return .function
  | some id =>
    if !h.hasOwn id Building.prototypeKey then return .function
    else if hasMethods h f then return .constructor
    else if ← initializes lib f then return .constructor
    else return .ambiguous

end ApiSurface.Reflect
