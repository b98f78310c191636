import ApiSurface.Plan.Check

/-!
Whether a plan fits a schema, checked without running it: what a graph calls is in the schema and is
called by its convention; what a sequence calls is in the schema, and it only uses results of calls
before.
-/

namespace ApiSurface

namespace Graph

/-- Why a graph does not fit a schema. -/
inductive Mismatch where
  | refused (problem : Problem)
  | notInSchema (node : Nat) (name : String)
  | otherConvention (node : Nat) (name : String) (planned known : Convention)
  deriving Repr, DecidableEq

/-- The wording of a mismatch. -/
def Mismatch.message : Mismatch → String
  | refused problem => problem.message
  | notInSchema node name =>
    "node " ++ toString node ++ " calls " ++ name ++ ", which is not in the schema"
  | otherConvention node name planned known =>
    "node " ++ toString node ++ " calls " ++ name ++ " as " ++ planned.name
      ++ " but the schema says " ++ known.name

/-- Refuses a node that calls what the schema does not have, or in another way. -/
def conformsNode (schema : Schema) (n : Node) : Except Mismatch Unit :=
  match n.payload with
  | .constant .. => .ok ()
  | .call name signature =>
    match schema.find? name with
    | none => .error (.notInSchema n.id name)
    | some e =>
      if e.convention = signature.convention then .ok ()
      else .error (.otherConvention n.id name signature.convention e.convention)

/-- Refuses a graph that cannot be run or does not fit the schema. -/
def conforms (schema : Schema) (g : Graph) : Except Mismatch Unit := do
  g.validate.mapError .refused
  g.nodes.forM fun p => conformsNode schema p.2

end Graph

namespace CallSequence

/-- Why a sequence does not fit a schema. -/
inductive Mismatch where
  | notInSchema (call : Nat) (name : String)
  | outputMissing (call source : Nat)
  | argumentMissing (call : Nat)
  | duplicateCall (call : Nat)
  deriving Repr, DecidableEq

/-- The wording of a mismatch. -/
def Mismatch.message : Mismatch → String
  | notInSchema call name =>
    "call " ++ toString call ++ " invokes " ++ name ++ ", which is not in the schema"
  | outputMissing call source =>
    "call " ++ toString call ++ " uses the output of call " ++ toString source ++ " before it runs"
  | argumentMissing call => "call " ++ toString call ++ " has a missing argument"
  | duplicateCall call => "duplicate call id " ++ toString call

/-- Refuses an argument that is missing or is the result of no call before. -/
def conformsArg (seen : List Nat) (call : Nat) : Arg → Except Mismatch Unit
  | .constant _ => .ok ()
  | .output source => if seen.contains source then .ok () else .error (.outputMissing call source)
  | .missing => .error (.argumentMissing call)

/-- Refuses calls that do not fit the schema, given the numbers of the calls before. -/
def conformsCalls (schema : Schema) (seen : List Nat) : List Call → Except Mismatch Unit
  | [] => .ok ()
  | c :: r => do
    if !schema.has c.name then throw (.notInSchema c.id c.name)
    c.args.forM (conformsArg seen c.id)
    if seen.contains c.id then throw (.duplicateCall c.id)
    conformsCalls schema (c.id :: seen) r

/-- Refuses a sequence that does not fit the schema. -/
def conforms (schema : Schema) (s : CallSequence) : Except Mismatch Unit :=
  conformsCalls schema [] s.calls

end CallSequence

end ApiSurface
