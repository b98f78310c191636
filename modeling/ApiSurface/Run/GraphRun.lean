import ApiSurface.Run.Invoke
import ApiSurface.Run.Materialize

/-!
Running a graph: its nodes are evaluated in the order of the schedule, each once, and every value is
kept for the nodes that take it.
-/

namespace ApiSurface.Run

open Live

variable {β σ : Type}

/-- The values of the nodes evaluated so far. -/
abbrev Results := Table Nat Value

/-- Puts the value of an input at the argument position that it feeds. -/
def placeInput (results : Results) (id : Nat) (args : List Value) (i : Graph.Input) :
    Except Violation (List Value) :=
  match Table.find? results i.source with
  | none => .error (.inputMissing id i.source)
  | some v =>
    if i.port < args.length then .ok (args.set i.port v) else .error (.noPort id i.port)

/-- The arguments of a node, each the value of the input that feeds it. -/
def gatherArgs (results : Results) (id : Nat) (n : Graph.Node) : Except Violation (List Value) :=
  n.inputs.foldlM (placeInput results id) (List.replicate n.inputs.length .undefined)

/-- The value of a node whose inputs have theirs. -/
def evaluate (lib : Library β σ) (endpoints : Endpoints) (results : Results) (id : Nat)
    (n : Graph.Node) : Action β σ Abort Value :=
  match n.payload with
  | .constant _ value => Action.onHeap value.materialize
  | .call name signature => do
    let f ← endpoint endpoints name
    match gatherArgs results id n with
    | .error v => violate v
    | .ok args => invoke lib name f signature.convention args

/-- Evaluates the nodes in the given order. -/
def evaluateAll (lib : Library β σ) (endpoints : Endpoints) (g : Graph) :
    List Nat → Results → Action β σ Abort Results
  | [], results => return results
  | id :: order, results =>
    match g.node? id with
    | none => violate (.unscheduled (.noNode id))
    | some n => do
      let v ← evaluate lib endpoints results id n
      evaluateAll lib endpoints g order (Table.insert results id v)

/-- The nodes without a value. -/
def unevaluated (g : Graph) (results : Results) : List Nat :=
  (Table.keys g.nodes).filter fun id => !Table.has results id

/-- Runs a graph; with `heavy` set, no node may be without a value in the end. -/
def runGraph (lib : Library β σ) (endpoints : Endpoints) (g : Graph) (heavy : Bool) :
    Action β σ Abort Unit := do
  match g.schedule with
  | .error e => violate (.unscheduled e)
  | .ok order =>
    let results ← evaluateAll lib endpoints g order []
    let missed := unevaluated g results
    if heavy && !missed.isEmpty then violate (.neverEvaluated missed)

end ApiSurface.Run
