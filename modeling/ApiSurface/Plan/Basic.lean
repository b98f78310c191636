import ApiSurface.Schema.Basic

/-!
Plans of calls. A graph connects calls and constants: an edge says which argument of a node a value
feeds and when it is evaluated among the node's inputs. A sequence lists calls whose arguments are
results of earlier calls or values made from bytes.
-/

namespace ApiSurface

/-- The signature that a plan has settled on for one call. -/
structure Signature where
  args : List ValueType
  ret : ValueType
  convention : Convention

/-- A value that a plan spells out. -/
inductive Constant where
  | number (x : Float)
  | string (s : String)
  | boolean (b : Bool)
  | object (fields : List (String × Constant))
  | array (items : List Constant)
  | undefined
  | null
  /-- A function that does nothing. -/
  | function

namespace Graph

/-- What a node does: call an entry, or stand for a constant. -/
inductive Payload where
  | call (name : String) (signature : Signature)
  | constant (type : ValueType) (value : Constant)

/-- An input of a node: where the value comes from, which argument it feeds, and its place in the
order in which the inputs are evaluated. -/
structure Input where
  source : Nat
  order : Nat
  port : Nat
  deriving Repr, DecidableEq

/-- A node with its inputs and the nodes that take its value. -/
structure Node where
  id : Nat
  payload : Payload
  inputs : List Input := []
  consumers : List Nat := []

/-- Whether no other node takes the value of this one. -/
def Node.isSink (n : Node) : Bool :=
  n.consumers.isEmpty

end Graph

/-- A graph of calls and constants, each node under its number. -/
structure Graph where
  root : Option Nat
  nodes : List (Nat × Graph.Node)
  ascending : Table.Ascending nodes

namespace Graph

/-- The graph without nodes. -/
def empty : Graph := ⟨none, [], Table.ascending_nil⟩

instance : Inhabited Graph := ⟨empty⟩

/-- The node with a number. -/
def node? (g : Graph) (id : Nat) : Option Node :=
  Table.find? g.nodes id

/-- Puts a node under its own number. -/
def add (g : Graph) (n : Node) : Graph :=
  { g with
    nodes := Table.insert g.nodes n.id n
    ascending := Table.ascending_insert g.ascending _ _ }

/-- Changes the node with a number, if there is one. -/
def update (g : Graph) (id : Nat) (f : Node → Node) : Graph :=
  match g.node? id with
  | some n =>
    { g with
      nodes := Table.insert g.nodes id (f n)
      ascending := Table.ascending_insert g.ascending _ _ }
  | none => g

/-- Feeds the value of `source` into an argument of `target`. Numbers without a node are passed
over. -/
def connect (g : Graph) (source target port order : Nat) : Graph :=
  let g := g.update target fun n => { n with inputs := n.inputs ++ [⟨source, order, port⟩] }
  g.update source fun n => { n with consumers := n.consumers ++ [target] }

/-- The numbers of the nodes whose value no other node takes, ascending. -/
def sinks (g : Graph) : List Nat :=
  (g.nodes.filter fun p => p.2.isSink).map fun p => p.2.id

end Graph

namespace CallSequence

/-- Where an argument comes from. -/
inductive Arg where
  /-- A value of the type, made from the bytes. -/
  | constant (type : ValueType)
  /-- The result of the call with this number. -/
  | output (call : Nat)
  /-- Nowhere: a call with such an argument cannot be made. -/
  | missing

/-- One call of a sequence. -/
structure Call where
  id : Nat
  name : String
  args : List Arg
  convention : Convention

end CallSequence

/-- A list of calls and the bytes that their constant arguments are made from. -/
structure CallSequence where
  bytes : List UInt8
  calls : List CallSequence.Call

end ApiSurface
