import ApiSurface.Plan.Basic

/-!
What has to hold of a graph before it is run: nodes stand under their own numbers, edges join nodes
that exist, the inputs of a call feed each of its arguments once, constants take no input, some node
is a sink, and no node needs its own value.
-/

namespace ApiSurface.Graph

/-- Why a graph is refused. -/
inductive Problem where
  | misplaced (key id : Nat)
  | unknownSource (id source : Nat)
  | unknownConsumer (id target : Nat)
  | constantWithInputs (id : Nat)
  | wrongPorts (id : Nat) (name : String) (arity : Nat) (ports : List Nat)
  | noRoot (id : Nat)
  | noSink
  | cycle
  deriving Repr, DecidableEq

/-- Numbers in brackets. -/
def listed (ns : List Nat) : String :=
  "[" ++ ", ".intercalate (ns.map toString) ++ "]"

/-- The wording of a refusal. -/
def Problem.message : Problem → String
  | misplaced key id => "node keyed " ++ toString key ++ " carries id " ++ toString id
  | unknownSource id source =>
    "node " ++ toString id ++ " has an input from unknown node " ++ toString source
  | unknownConsumer id target =>
    "node " ++ toString id ++ " feeds unknown node " ++ toString target
  | constantWithInputs id => "constant node " ++ toString id ++ " has incoming edges"
  | wrongPorts id name arity ports =>
    "node " ++ toString id ++ " (" ++ name ++ ") takes " ++ toString arity
      ++ " arguments but its inputs cover ports " ++ listed ports
  | noRoot id => "root node " ++ toString id ++ " does not exist"
  | noSink => "graph has no sink node"
  | cycle => "graph contains a cycle"

/-- Refuses with the given reason unless the condition holds. -/
def ensure (condition : Bool) (problem : Problem) : Except Problem Unit :=
  if condition then .ok () else .error problem

/-- Whether there is a node with the number. -/
def hasNode (g : Graph) (id : Nat) : Bool :=
  (g.node? id).isSome

/-- The argument positions that the inputs of a node feed, in the order of the inputs. -/
def Node.ports (n : Node) : List Nat :=
  n.inputs.map Input.port

/-- Whether the positions are those from zero up to `arity`, each once. -/
def coversPorts (arity : Nat) (ports : List Nat) : Bool :=
  ports.length == arity && (List.range arity).all ports.contains

/-- Refuses a node whose inputs do not fit what it does. -/
def checkPayload (key : Nat) (n : Node) : Except Problem Unit :=
  match n.payload with
  | .constant .. => ensure n.inputs.isEmpty (.constantWithInputs key)
  | .call name signature =>
    let arity := signature.args.length
    ensure (coversPorts arity n.ports) (.wrongPorts key name arity n.ports)

/-- Refuses a node that is misplaced, has an edge to or from no node, or does not fit its inputs. -/
def checkNode (g : Graph) (key : Nat) (n : Node) : Except Problem Unit := do
  ensure (key == n.id) (.misplaced key n.id)
  n.inputs.forM fun i => ensure (g.hasNode i.source) (.unknownSource key i.source)
  n.consumers.forM fun target => ensure (g.hasNode target) (.unknownConsumer key target)
  checkPayload key n

/-- How many inputs of each node are still without a value. -/
abbrev Pending := List (Nat × Nat)

/-- The counts before any node has a value. -/
def pendingAtStart (g : Graph) : Pending :=
  g.nodes.map fun p => (p.2.id, p.2.inputs.length)

/-- The nodes that take the value of `source` as an input, once for each such input. -/
def takers (g : Graph) (source : Nat) : List Nat :=
  g.nodes.flatMap fun p => (p.2.inputs.filter fun i => i.source == source).map fun _ => p.2.id

/-- Takes one input of a node as given; a node that has none left is ready and goes onto the stack.
-/
def resolveInput (state : List Nat × Pending) (id : Nat) : List Nat × Pending :=
  match Table.find? state.2 id with
  | none => state
  | some n => (if n - 1 = 0 then id :: state.1 else state.1, Table.insert state.2 id (n - 1))

/-- How many nodes get a value when the ready nodes are taken from the stack one after the other. -/
def countResolved (g : Graph) : Nat → List Nat → Pending → Nat
  | 0, _, _ => 0
  | _ + 1, [], _ => 0
  | fuel + 1, id :: ready, pending =>
    let state := (g.takers id).foldl resolveInput (ready, pending)
    countResolved g fuel state.1 state.2 + 1

/-- The nodes without inputs. -/
def readyAtStart (g : Graph) : List Nat :=
  (g.pendingAtStart.filter fun p => p.2 == 0).map Prod.fst

/-- Whether every node gets a value when the given nodes are ready at first. -/
def resolvesAll (g : Graph) (ready : List Nat) : Bool :=
  g.countResolved (g.nodes.length + 1) ready g.pendingAtStart == g.nodes.length

/-- Refuses a graph that cannot be run. -/
def validate (g : Graph) : Except Problem Unit := do
  g.nodes.forM fun p => g.checkNode p.1 p.2
  match g.root with
  | some id => ensure (g.hasNode id) (.noRoot id)
  | none => pure ()
  ensure (!g.sinks.isEmpty) .noSink
  ensure (g.resolvesAll g.readyAtStart) .cycle

end ApiSurface.Graph
