import ApiSurface.Live.Host

/-!
Calling, constructing and waiting. The flavor of a function says which of the first two it allows; a
pending result is worked out when it is first waited for and is kept from then on.
-/

namespace ApiSurface.Live

variable {β σ : Type}

/-- Runs the code of a function. -/
def runCode (lib : Library β σ) (c : Code β) (i : Invocation) : Action β σ Value Value :=
  match c with
  | .host code => code.run i
  | .library code => lib code i

/-- Calls a value with a receiver and arguments. -/
def call (lib : Library β σ) (f receiver : Value) (args : List Value) :
    Action β σ Value Value := do
  let h ← Action.heap
  match h.callable? f with
  | none => .raise .typeError (h.describe f ++ " is not a function")
  | some c =>
    match c.flavor with
    | .ofClass =>
      .raise .typeError ("Class constructor " ++ c.name ++ " cannot be invoked without 'new'")
    | .builtin => .raise .typeError ("Constructor " ++ c.name ++ " requires 'new'")
    | .ordinary | .arrow => runCode lib c.body ⟨receiver, args, false⟩

/-- The name of a function in a message. -/
def shownName (name : String) : String :=
  if name.isEmpty then "anonymous" else name

/-- Runs the code of a constructor on a fresh object that inherits from the prototype for instances.
An object that the code returns takes its place. -/
def instantiate (lib : Library β σ) (f : Value) (c : Callable (Code β)) (args : List Value) :
    Action β σ Value Value := do
  let h ← Action.heap
  let prototype := (h.get f Building.prototypeKey).object?
  let fresh ← Action.onHeap (Building.object { kind := .ordinary, prototype := prototype })
  match ← runCode lib c.body ⟨.object fresh, args, true⟩ with
  | .object id => return .object id
  | _ => return .object fresh

/-- Constructs an object with a value as the constructor. -/
def construct (lib : Library β σ) (f : Value) (args : List Value) : Action β σ Value Value := do
  let h ← Action.heap
  match h.callable? f with
  | none => .raise .typeError (h.describe f ++ " is not a constructor")
  | some c =>
    match c.flavor with
    | .arrow => .raise .typeError (shownName c.name ++ " is not a constructor")
    | .ordinary | .ofClass | .builtin => instantiate lib f c args

/-- The receiver of an invocation as an object; an error is thrown if it is none. -/
def receiverObject (i : Invocation) : Action β σ Value Nat :=
  match i.receiver with
  | .object id => return id
  | _ => .raise .typeError "Cannot read properties of undefined"

/-- What a pending result comes to. Its code runs when it is waited for the first time. -/
def await (lib : Library β σ) (id : Nat) : Action β σ Value Value := do
  match (← Action.heap).promise? id with
  | some (.settled result) => MonadExcept.ofExcept result
  | some (.pending code) =>
    let result ← (runCode lib code ⟨.undefined, [], false⟩).outcome
    Action.change fun h => h.settle id result
    MonadExcept.ofExcept result
  | none => return .undefined

/-- Waits for a pending result and, as long as that comes to an older pending result, for that one.
-/
def settleFrom (lib : Library β σ) (id : Nat) : Action β σ Value Value := do
  match ← await lib id with
  | .promise older => if older < id then settleFrom lib older else return .promise older
  | v => return v
termination_by id

/-- Waits until a value is no longer pending. -/
def settle (lib : Library β σ) : Value → Action β σ Value Value
  | .promise id => settleFrom lib id
  | v => return v

end ApiSurface.Live
