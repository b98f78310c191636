import ApiSurface.Plan.Basic

/-!
The order in which the nodes of a graph are evaluated: from every sink, depth first, inputs before
the node that takes them, each node once. The order is computed with an explicit stack.
-/

namespace ApiSurface.Graph

/-- An entry of the stack: a node to look at, or a node whose inputs lie above it on the stack. -/
structure Visit where
  id : Nat
  expanded : Bool
  deriving Repr, DecidableEq

/-- Why no order was found. -/
inductive ScheduleError where
  | noNode (id : Nat)
  /-- The stack did not empty within the steps that a graph without cycles needs. -/
  | unfinished
  deriving Repr, DecidableEq

/-- The inputs of a node in the order of their evaluation; inputs of the same rank keep their order.
-/
def Node.inOrder (n : Node) : List Input :=
  n.inputs.mergeSort fun a b => a.order ≤ b.order

/-- The entries for the inputs of a node that are not done, the first to be evaluated on top. -/
def inputVisits (done : List Nat) (n : Node) : List Visit :=
  (n.inOrder.filter fun i => !done.contains i.source).map fun i => ⟨i.source, false⟩

/-- Runs the stack. `done` holds the nodes that are placed, the latest first. -/
def visit (g : Graph) : Nat → List Visit → List Nat → Except ScheduleError (List Nat)
  | _, [], done => .ok done
  | 0, _ :: _, _ => .error .unfinished
  | fuel + 1, v :: stack, done =>
    if done.contains v.id then visit g fuel stack done
    else if v.expanded then visit g fuel stack (v.id :: done)
    else
      match g.node? v.id with
      | none => .error (.noNode v.id)
      | some n => visit g fuel (inputVisits done n ++ ⟨v.id, true⟩ :: stack) done

/-- Enough steps for the part of a graph without cycles below one node: every node is looked at and
placed once, and every input brings it onto the stack once. -/
def visitFuel (g : Graph) : Nat :=
  g.nodes.foldr (fun p n => p.2.inputs.length + 2 + n) 1

/-- Visits one sink after the other. -/
def visitSinks (g : Graph) : List Nat → List Nat → Except ScheduleError (List Nat)
  | [], done => .ok done
  | s :: sinks, done =>
    match visit g g.visitFuel [⟨s, false⟩] done with
    | .ok done => visitSinks g sinks done
    | .error e => .error e

/-- The nodes in the order of their evaluation. -/
def schedule (g : Graph) : Except ScheduleError (List Nat) :=
  (visitSinks g g.sinks []).map List.reverse

end ApiSurface.Graph
