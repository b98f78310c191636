import ApiSurface.Plan.Basic
import ApiSurface.Schema.Codec

/-!
The written form of plans.
-/

namespace ApiSurface

open Json

namespace Signature

/-- The written form of a signature. -/
def encode (s : Signature) : Json :=
  .object [("args", .array (s.args.map ValueType.encode)), ("ret", s.ret.encode),
    ("callconv", s.convention.encode)]

/-- Reads a signature. -/
def decode? (j : Json) : Option Signature := do
  let [args, ret, convention] ← record? [["args"], ["ret"], ["callconv"]] j | none
  return {
    args := ← required? (list? ValueType.decode?) args
    ret := ← required? ValueType.decode? ret
    convention := ← required? Convention.decode? convention }

end Signature

namespace Constant

mutual

/-- The written form of a constant. -/
def encode : Constant → Json
  | number x => tagged "Number" (.real x)
  | string s => tagged "String" (.text s)
  | boolean b => tagged "Boolean" (.bool b)
  | object fields => tagged "Object" (.object (encodeFields fields))
  | array items => tagged "Array" (.array (encodeItems items))
  | undefined => bare "Undefined"
  | null => bare "Null"
  | function => bare "Function"

/-- The written form of the properties of an object. -/
def encodeFields : List (String × Constant) → List (String × Json)
  | [] => []
  | (k, c) :: r => (k, encode c) :: encodeFields r

/-- The written form of the items of an array. -/
def encodeItems : List Constant → List Json
  | [] => []
  | c :: r => encode c :: encodeItems r

end

/-- The constant of a kind with one value. -/
def ofBareName? : String → Option Constant
  | "Undefined" => some undefined
  | "Null" => some null
  | "Function" => some function
  | _ => none

mutual

/-- Reads a constant. -/
def decode? : Json → Option Constant
  | .text name => ofBareName? name
  | .object [("Object", .object fields)] =>
    (decodeFields? fields).map fun fs => object (Table.ofList fs)
  | .object [("Array", .array items)] => (decodeItems? items).map array
  | .object [("Number", j)] => j.real?.map number
  | .object [("String", .text s)] => some (string s)
  | .object [("Boolean", .bool b)] => some (boolean b)
  | .object [(name, .null)] => ofBareName? name
  | _ => none

/-- Reads the properties of an object. -/
def decodeFields? : List (String × Json) → Option (List (String × Constant))
  | [] => some []
  | (k, j) :: r => do
    let c ← decode? j
    let fs ← decodeFields? r
    return (k, c) :: fs

/-- Reads the items of an array. -/
def decodeItems? : List Json → Option (List Constant)
  | [] => some []
  | j :: r => do
    let c ← decode? j
    let cs ← decodeItems? r
    return c :: cs

end

end Constant

namespace Graph

/-- The written form of what a node does. -/
def Payload.encode : Payload → Json
  | .call name signature =>
    tagged "Api" (.object [("name", .text name), ("signature", signature.encode)])
  | .constant type value =>
    tagged "Constant" (.object [("typ", type.encode), ("value", value.encode)])

/-- Reads what a node does. The type of a constant may also be written under `type`. -/
def Payload.decode? (j : Json) : Option Payload := do
  match ← j.variant? with
  | ("Api", some j) =>
    let [name, signature] ← record? [["name"], ["signature"]] j | none
    return .call (← required? text? name) (← required? Signature.decode? signature)
  | ("Constant", some j) =>
    let [type, value] ← record? [["typ", "type"], ["value"]] j | none
    return .constant (← required? ValueType.decode? type) (← required? Constant.decode? value)
  | _ => none

/-- The written form of an input. -/
def Input.encode (i : Input) : Json :=
  .object [("src", .integer i.source), ("evaluationOrder", .integer i.order),
    ("port", .integer i.port)]

/-- Reads an input. -/
def Input.decode? (j : Json) : Option Input := do
  let [source, order, port] ← record? [["src"], ["evaluationOrder"], ["port"]] j | none
  return {
    source := ← required? nat? source
    order := ← required? nat? order
    port := ← required? nat? port }

/-- The written form of a consumer. -/
def encodeConsumer (id : Nat) : Json :=
  .object [("dst", .integer id)]

/-- Reads a consumer. -/
def decodeConsumer? (j : Json) : Option Nat := do
  let [target] ← record? [["dst"]] j | none
  required? nat? target

/-- The written form of a node. -/
def Node.encode (n : Node) : Json :=
  .object [("id", .integer n.id), ("payload", n.payload.encode),
    ("incoming", .array (n.inputs.map Input.encode)),
    ("outgoing", .array (n.consumers.map encodeConsumer))]

/-- Reads a node. -/
def Node.decode? (j : Json) : Option Node := do
  let [id, payload, inputs, consumers] ←
    record? [["id"], ["payload"], ["incoming"], ["outgoing"]] j | none
  return {
    id := ← required? nat? id
    payload := ← required? Payload.decode? payload
    inputs := ← defaulted? [] (list? Input.decode?) inputs
    consumers := ← defaulted? [] (list? decodeConsumer?) consumers }

/-- Reads the number of a node from its digits, of which the first is no zero unless it is alone. -/
def decodeKey? (s : String) : Option Nat :=
  let ds := s.toList
  if ds.isEmpty || !ds.all Char.isDigit || (ds.head? == some '0' && ds.length != 1) then none
  else
    let n := Decimal.natOfDigits ds
    if n ≤ Decimal.maxWord then some n else none

/-- The written form of a graph. -/
def encode (g : Graph) : Json :=
  .object [("root", match g.root with | some id => .integer id | none => .null),
    ("nodes", .object (g.nodes.map fun p => (toString p.1, p.2.encode)))]

/-- Reads a graph. -/
def decode? (j : Json) : Option Graph := do
  let [root, nodes] ← record? [["root"], ["nodes"]] j | none
  let root ← defaulted? none (nullable? nat?) root
  let fields ← required? fields? nodes
  let nodes ← fields.mapM fun (f : String × Json) => do
    return (← decodeKey? f.1, ← Node.decode? f.2)
  return ⟨root, Table.ofList nodes, Table.ascending_ofList nodes⟩

/-- The level of the keys that are numbers of nodes: the table of the nodes stands in the outermost
object. -/
def keyLevel : Nat := 2

/-- Reads the text of a graph. The numbers of its nodes are written in digits. -/
def ofText? (text : String) : Option Graph :=
  (Json.readPlain? (some keyLevel) text).bind decode?

end Graph

namespace CallSequence

/-- The written form of an argument. -/
def Arg.encode : Arg → Json
  | .constant type => tagged "Constant" type.encode
  | .output call => tagged "Output" (.integer call)
  | .missing => bare "Missing"

/-- Reads an argument. -/
def Arg.decode? (j : Json) : Option Arg := do
  match ← j.variant? with
  | ("Constant", some j) => return .constant (← ValueType.decode? j)
  | ("Output", some j) => return .output (← j.nat?)
  | ("Missing", payload) => if isBare payload then some .missing else none
  | _ => none

/-- The written form of a call. -/
def Call.encode (c : Call) : Json :=
  .object [("id", .integer c.id), ("name", .text c.name), ("args", .array (c.args.map Arg.encode)),
    ("conv", c.convention.encode)]

/-- Reads a call. -/
def Call.decode? (j : Json) : Option Call := do
  let [id, name, args, convention] ← record? [["id"], ["name"], ["args"], ["conv"]] j | none
  return {
    id := ← required? nat? id
    name := ← required? text? name
    args := ← required? (list? Arg.decode?) args
    convention := ← required? Convention.decode? convention }

/-- The written form of a sequence. -/
def encode (s : CallSequence) : Json :=
  .object [("fuzz", .array (s.bytes.map fun b => .integer b.toNat)),
    ("seq", .array (s.calls.map Call.encode))]

/-- Reads a sequence. -/
def decode? (j : Json) : Option CallSequence := do
  let [bytes, calls] ← record? [["fuzz"], ["seq"]] j | none
  let bytes ← defaulted? [] (list? (natBelow? 256)) bytes
  return {
    bytes := bytes.map Nat.toUInt8
    calls := ← required? (list? Call.decode?) calls }

/-- Reads the text of a sequence. -/
def ofText? (text : String) : Option CallSequence :=
  (Json.read? text).bind decode?

end CallSequence

end ApiSurface
