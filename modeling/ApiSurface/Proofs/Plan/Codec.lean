/-
# `ApiSurface.Proofs.Plan.Codec` — plans read back from what is written of them

Graphs and sequences read back from their written forms, as schemas do (`decode?_encode_all`).  A
plan has numbers of 64 bits; the nodes of a graph are written under theirs, in digits, and the
digits of a number are those of no other (`Graph.decodeKey?_toString`).
-/
import ApiSurface.Plan.Codec
import ApiSurface.Proofs.Json.Numbers
import ApiSurface.Proofs.Schema.Codec

namespace ApiSurface

open Json

variable {R : Float → Prop}

/-! ## Signatures and constants -/

namespace Signature

/-- The descriptions in the signature have their properties in order. -/
structure Formed (s : Signature) : Prop where
  args : ∀ t ∈ s.args, t.Formed
  ret : s.ret.Formed

theorem decode?_encode {s : Signature} (h : s.Formed) : decode? s.encode = some s := by
  have hfields : record? [["args"], ["ret"], ["callconv"]] s.encode =
      some [some (.array (s.args.map ValueType.encode)), some s.ret.encode,
        some s.convention.encode] := rfl
  have hargs : list? ValueType.decode? (.array (s.args.map ValueType.encode)) = some s.args :=
    list?_map fun t ht => ValueType.decode?_encode (h.args t ht)
  rw [decode?, hfields]
  simp [required?, hargs, ValueType.decode?_encode h.ret, Convention.decode?_encode]

theorem written_encode {s : Signature} (h : s.Formed) : s.encode.Written R := by
  have hargs : (array (s.args.map ValueType.encode)).Written R :=
    written_array _ fun t ht => ValueType.written_encode (h.args t ht)
  refine .object ?_
  simp only [List.forall_mem_cons]
  exact ⟨hargs, ValueType.written_encode h.ret, Convention.written_encode _, nofun⟩

end Signature

namespace Constant

/-- The properties of every object in the constant are in order, and its numbers are of the given
kind. -/
inductive Formed (R : Float → Prop) : Constant → Prop
  | number {x : Float} (h : R x) : Formed R (.number x)
  | string (s : String) : Formed R (.string s)
  | boolean (b : Bool) : Formed R (.boolean b)
  | object {fields : List (String × Constant)} (order : Table.Ascending fields)
      (h : ∀ p ∈ fields, Formed R p.2) : Formed R (.object fields)
  | array {items : List Constant} (h : ∀ c ∈ items, Formed R c) : Formed R (.array items)
  | undefined : Formed R .undefined
  | null : Formed R .null
  | function : Formed R .function

theorem encodeFields_eq (fields : List (String × Constant)) :
    encodeFields fields = fields.map fun p => (p.1, encode p.2) := by
  induction fields with
  | nil => rfl
  | cons p fields ih =>
      obtain ⟨key, c⟩ := p
      rw [encodeFields, ih, List.map_cons]

theorem encodeItems_eq (items : List Constant) : encodeItems items = items.map encode := by
  induction items with
  | nil => rfl
  | cons c items ih => rw [encodeItems, ih, List.map_cons]

theorem decodeFields?_encodeFields {fields : List (String × Constant)}
    (h : ∀ p ∈ fields, decode? (encode p.2) = some p.2) :
    decodeFields? (encodeFields fields) = some fields := by
  induction fields with
  | nil => rfl
  | cons p fields ih =>
      obtain ⟨hp, hfields⟩ := List.forall_mem_cons.mp h
      obtain ⟨key, c⟩ := p
      simp [encodeFields, decodeFields?, hp, ih hfields]

theorem decodeItems?_encodeItems {items : List Constant}
    (h : ∀ c ∈ items, decode? (encode c) = some c) :
    decodeItems? (encodeItems items) = some items := by
  induction items with
  | nil => rfl
  | cons c items ih =>
      obtain ⟨hc, hitems⟩ := List.forall_mem_cons.mp h
      simp [encodeItems, decodeItems?, hc, ih hitems]

theorem decode?_encode {c : Constant} (h : c.Formed R) : decode? (encode c) = some c := by
  induction h with
  | object order _ ih =>
      rw [encode, tagged, decode?, decodeFields?_encodeFields ih, Option.map_some,
        Table.ofList_eq order]
  | array _ ih => rw [encode, tagged, decode?, decodeItems?_encodeItems ih, Option.map_some]
  | number => rw [encode, tagged, decode?, real?, Option.map_some]
  | string => rw [encode, tagged, decode?]
  | boolean => rw [encode, tagged, decode?]
  | undefined | null | function => rfl

theorem written_encode {c : Constant} (h : c.Formed R) : (encode c).Written R := by
  induction h with
  | object _ _ ih =>
      rw [encode, encodeFields_eq]
      exact written_tagged (written_object ih)
  | array _ ih =>
      rw [encode, encodeItems_eq]
      exact written_tagged (written_array encode ih)
  | number h => exact written_tagged (.real h)
  | string s => exact written_tagged (.text s)
  | boolean b => exact written_tagged (.bool b)
  | undefined | null | function => exact .text _

end Constant

/-! ## Graphs -/

namespace Graph

/-- What a node does is well formed. -/
inductive Payload.Formed (R : Float → Prop) : Payload → Prop
  | call (name : String) {signature : Signature} (h : signature.Formed) :
      Formed R (.call name signature)
  | constant {type : ValueType} {value : Constant} (htype : type.Formed)
      (hvalue : value.Formed R) : Formed R (.constant type value)

theorem Payload.decode?_encode {p : Payload} (h : p.Formed R) : decode? p.encode = some p := by
  cases h with
  | @call name signature h =>
      have hfields : record? [["name"], ["signature"]]
          (.object [("name", .text name), ("signature", signature.encode)]) =
            some [some (.text name), some signature.encode] := rfl
      simp [encode, tagged, decode?, variant?, hfields, required?, text?,
        Signature.decode?_encode h]
  | @constant type value htype hvalue =>
      have hfields : record? [["typ", "type"], ["value"]]
          (.object [("typ", type.encode), ("value", value.encode)]) =
            some [some type.encode, some value.encode] := rfl
      simp [encode, tagged, decode?, variant?, hfields, required?,
        ValueType.decode?_encode htype, Constant.decode?_encode hvalue]

theorem Payload.written_encode {p : Payload} (h : p.Formed R) : p.encode.Written R := by
  cases h with
  | call name h =>
      refine written_tagged (.object ?_)
      simp only [List.forall_mem_cons]
      exact ⟨.text name, Signature.written_encode h, nofun⟩
  | constant htype hvalue =>
      refine written_tagged (.object ?_)
      simp only [List.forall_mem_cons]
      exact ⟨ValueType.written_encode htype, Constant.written_encode hvalue, nofun⟩

/-- The numbers of the input have 64 bits. -/
structure Input.Formed (i : Input) : Prop where
  source : i.source ≤ Decimal.maxWord
  order : i.order ≤ Decimal.maxWord
  port : i.port ≤ Decimal.maxWord

theorem Input.decode?_encode {i : Input} (h : i.Formed) : decode? i.encode = some i := by
  have hfields : record? [["src"], ["evaluationOrder"], ["port"]] i.encode =
      some [some (.integer i.source), some (.integer i.order), some (.integer i.port)] := rfl
  rw [decode?, hfields, Option.bind_eq_bind, Option.bind_some]
  dsimp only
  rw [required?_nat h.source, required?_nat h.order, required?_nat h.port]
  rfl

theorem Input.written_encode {i : Input} (h : i.Formed) : i.encode.Written R := by
  refine .object ?_
  simp only [List.forall_mem_cons]
  exact ⟨written_nat h.source, written_nat h.order, written_nat h.port, nofun⟩

theorem decodeConsumer?_encodeConsumer {id : Nat} (h : id ≤ Decimal.maxWord) :
    decodeConsumer? (encodeConsumer id) = some id := by
  have hfields : record? [["dst"]] (encodeConsumer id) = some [some (.integer id)] := rfl
  rw [decodeConsumer?, hfields, Option.bind_eq_bind, Option.bind_some]
  exact required?_nat h

theorem written_encodeConsumer {id : Nat} (h : id ≤ Decimal.maxWord) :
    (encodeConsumer id).Written R :=
  .object (List.forall_mem_singleton.mpr (written_nat h))

/-- The parts of the node are well formed. -/
structure Node.Formed (R : Float → Prop) (n : Node) : Prop where
  id : n.id ≤ Decimal.maxWord
  payload : n.payload.Formed R
  inputs : ∀ i ∈ n.inputs, i.Formed
  consumers : ∀ id ∈ n.consumers, id ≤ Decimal.maxWord

theorem Node.decode?_encode {n : Node} (h : n.Formed R) : decode? n.encode = some n := by
  have hfields : record? [["id"], ["payload"], ["incoming"], ["outgoing"]] n.encode =
      some [some (.integer n.id), some n.payload.encode,
        some (.array (n.inputs.map Input.encode)),
        some (.array (n.consumers.map encodeConsumer))] := rfl
  have hinputs : list? Input.decode? (.array (n.inputs.map Input.encode)) = some n.inputs :=
    list?_map fun i hi => Input.decode?_encode (h.inputs i hi)
  have hconsumers : list? decodeConsumer? (.array (n.consumers.map encodeConsumer)) =
      some n.consumers :=
    list?_map fun id hid => decodeConsumer?_encodeConsumer (h.consumers id hid)
  have hpayload : required? Payload.decode? (some n.payload.encode) = some n.payload :=
    Payload.decode?_encode h.payload
  rw [decode?, hfields, Option.bind_eq_bind, Option.bind_some]
  dsimp only
  rw [required?_nat h.id, hpayload, defaulted?, hinputs, defaulted?, hconsumers]
  rfl

theorem Node.written_encode {n : Node} (h : n.Formed R) : n.encode.Written R := by
  have hinputs : (array (n.inputs.map Input.encode)).Written R :=
    written_array _ fun i hi => Input.written_encode (h.inputs i hi)
  have hconsumers : (array (n.consumers.map encodeConsumer)).Written R :=
    written_array _ fun id hid => written_encodeConsumer (h.consumers id hid)
  refine .object ?_
  simp only [List.forall_mem_cons]
  exact ⟨written_nat h.id, Payload.written_encode h.payload, hinputs, hconsumers, nofun⟩

/-! ### Numbers of nodes -/

theorem decodeKey?_toString {n : Nat} (h : n ≤ Decimal.maxWord) :
    decodeKey? (toString n) = some n := by
  have hdigits : (Nat.toDigits 10 n).all Char.isDigit = true :=
    List.all_eq_true.mpr Decimal.isDigit_toDigits
  have hfirst : ((Nat.toDigits 10 n).head? == some '0' && (Nat.toDigits 10 n).length != 1) =
      false := by
    rcases Decimal.head?_toDigits n with hhead | hone
    · simp [hhead]
    · simp [hone]
  rw [decodeKey?, Nat.toString_eq_ofList_toDigits, String.toList_ofList]
  simp [hdigits, hfirst, Decimal.natOfDigits_toDigits, h]

/-- The nodes are well formed, and the numbers have 64 bits. -/
structure Formed (R : Float → Prop) (g : Graph) : Prop where
  root : ∀ id, g.root = some id → id ≤ Decimal.maxWord
  keys : ∀ p ∈ g.nodes, p.1 ≤ Decimal.maxWord
  nodes : ∀ p ∈ g.nodes, p.2.Formed R

/-- What is written of the root. -/
def encodeRoot : Option Nat → Json
  | some id => .integer id
  | none => .null

theorem decodeRoot?_encodeRoot {root : Option Nat}
    (h : ∀ id, root = some id → id ≤ Decimal.maxWord) :
    nullable? nat? (encodeRoot root) = some root := by
  cases root with
  | none => rfl
  | some id =>
      rw [encodeRoot, nullable?, nat?_integer (h id rfl), Option.map_some]
      intro hnull
      cases hnull

theorem decode?_encode {g : Graph} (h : g.Formed R) : decode? g.encode = some g := by
  obtain ⟨root, nodes, ascending⟩ := g
  have hnodes : (nodes.map fun p => (toString p.1, p.2.encode)).mapM
      (fun (f : String × Json) => do return (← decodeKey? f.1, ← Node.decode? f.2)) =
        some nodes := by
    refine mapM_map_eq_some fun p hp => ?_
    simp only [decodeKey?_toString (h.keys p hp), Node.decode?_encode (h.nodes p hp)]
    rfl
  have hfields : record? [["root"], ["nodes"]] (encode ⟨root, nodes, ascending⟩) =
      some [some (encodeRoot root),
        some (.object (nodes.map fun p => (toString p.1, p.2.encode)))] := rfl
  have hroot : defaulted? none (nullable? nat?) (some (encodeRoot root)) = some root :=
    decodeRoot?_encodeRoot h.root
  have hpairs : required? fields? (some (.object (nodes.map fun p =>
      (toString p.1, p.2.encode)))) = some (nodes.map fun p => (toString p.1, p.2.encode)) := rfl
  have hgraph : (⟨root, Table.ofList nodes, Table.ascending_ofList nodes⟩ : Graph) =
      ⟨root, nodes, ascending⟩ := by
    simp only [Table.ofList_eq ascending]
  rw [decode?, hfields, Option.bind_eq_bind, Option.bind_some]
  dsimp only
  rw [hroot, hpairs, Option.bind_eq_bind, Option.bind_some, Option.bind_eq_bind, Option.bind_some]
  rw [hnodes]
  exact congrArg some hgraph

theorem written_encode {g : Graph} (h : g.Formed R) : g.encode.Written R := by
  refine .object ?_
  simp only [List.forall_mem_cons]
  refine ⟨?_, written_object fun p hp => Node.written_encode (h.nodes p hp),
    List.forall_mem_nil _⟩
  cases hroot : g.root with
  | none => exact .null
  | some id => exact written_nat (h.root id hroot)

end Graph

/-! ## Sequences -/

namespace CallSequence

/-- The argument is well formed. -/
inductive Arg.Formed : Arg → Prop
  | constant {type : ValueType} (h : type.Formed) : Formed (.constant type)
  | output {call : Nat} (h : call ≤ Decimal.maxWord) : Formed (.output call)
  | missing : Formed .missing

theorem Arg.decode?_output (j : Json) : decode? (tagged "Output" j) = j.nat?.map .output := by
  simp only [decode?, tagged, variant?, Option.bind_eq_bind, Option.bind_some]
  cases j.nat? <;> rfl

theorem Arg.decode?_encode {a : Arg} (h : a.Formed) : decode? a.encode = some a := by
  cases h with
  | constant h =>
      simp [encode, tagged, decode?, variant?, ValueType.decode?_encode h]
  | output h =>
      rw [encode, decode?_output, nat?_integer h, Option.map_some]
  | missing => rfl

theorem Arg.written_encode {a : Arg} (h : a.Formed) : a.encode.Written R := by
  cases h with
  | constant h => exact written_tagged (ValueType.written_encode h)
  | output h => exact written_tagged (written_nat h)
  | missing => exact .text _

/-- The arguments of the call are well formed, and its number has 64 bits. -/
structure Call.Formed (c : Call) : Prop where
  id : c.id ≤ Decimal.maxWord
  args : ∀ a ∈ c.args, a.Formed

theorem Call.decode?_encode {c : Call} (h : c.Formed) : decode? c.encode = some c := by
  have hfields : record? [["id"], ["name"], ["args"], ["conv"]] c.encode =
      some [some (.integer c.id), some (.text c.name), some (.array (c.args.map Arg.encode)),
        some c.convention.encode] := rfl
  have hargs : required? (list? Arg.decode?) (some (.array (c.args.map Arg.encode))) =
      some c.args := list?_map fun a ha => Arg.decode?_encode (h.args a ha)
  have hconvention : required? Convention.decode? (some c.convention.encode) =
      some c.convention := Convention.decode?_encode _
  rw [decode?, hfields, Option.bind_eq_bind, Option.bind_some]
  dsimp only
  rw [required?_nat h.id, hargs, hconvention]
  rfl

theorem Call.written_encode {c : Call} (h : c.Formed) : c.encode.Written R := by
  have hargs : (array (c.args.map Arg.encode)).Written R :=
    written_array _ fun a ha => Arg.written_encode (h.args a ha)
  refine .object ?_
  simp only [List.forall_mem_cons]
  exact ⟨written_nat h.id, .text _, hargs, Convention.written_encode _, nofun⟩

/-- The calls are well formed. -/
def Formed (s : CallSequence) : Prop :=
  ∀ c ∈ s.calls, c.Formed

theorem decode?_encode {s : CallSequence} (h : s.Formed) : decode? s.encode = some s := by
  obtain ⟨bytes, calls⟩ := s
  have hfields : record? [["fuzz"], ["seq"]] (encode ⟨bytes, calls⟩) =
      some [some (.array (bytes.map fun b => .integer b.toNat)),
        some (.array (calls.map Call.encode))] := rfl
  have hbytes : list? (natBelow? 256) (.array (bytes.map fun b => .integer b.toNat)) =
      some (bytes.map UInt8.toNat) := by
    have hmap : (bytes.map fun b => Json.integer b.toNat) =
        (bytes.map UInt8.toNat).map fun n : Nat => Json.integer n := by
      simp
    rw [hmap]
    refine list?_map fun n hn => ?_
    obtain ⟨b, -, rfl⟩ := List.mem_map.mp hn
    have hlt := b.toNat_lt
    rw [natBelow?, if_pos (by omega), Int.toNat_natCast]
  have hback : (bytes.map UInt8.toNat).map Nat.toUInt8 = bytes := by
    rw [List.map_map]
    exact List.map_id'' (fun b => UInt8.ofNat_toNat) bytes
  have hcalls : list? Call.decode? (.array (calls.map Call.encode)) = some calls :=
    list?_map fun c hc => Call.decode?_encode (h c hc)
  rw [decode?, hfields]
  simp only [Option.bind_eq_bind, Option.bind_some, defaulted?, hbytes, required?, hcalls, hback]
  rfl

theorem written_encode {s : CallSequence} (h : s.Formed) : s.encode.Written R := by
  have hbytes : (array (s.bytes.map fun b => integer b.toNat)).Written R :=
    written_array _ fun b _ => written_nat (by
      have := b.toNat_lt
      simp only [Decimal.maxWord]
      omega)
  have hcalls : (array (s.calls.map Call.encode)).Written R :=
    written_array _ fun c hc => Call.written_encode (h c hc)
  refine .object ?_
  simp only [List.forall_mem_cons]
  exact ⟨hbytes, hcalls, List.forall_mem_nil _⟩

end CallSequence

/-! ## All that is stored -/

/-- **Schemas, graphs and sequences read back from what is written of them**, as long as their
numbers are finite; and what is written is a value that a text can carry. -/
theorem decode?_encode_all :
    (∀ s : Schema, s.Formed (fun x => x.isFinite = true) →
      s.encode.Written (fun x => x.isFinite = true) ∧ Schema.decode? s.encode = some s) ∧
    (∀ g : Graph, g.Formed (fun x => x.isFinite = true) →
      g.encode.Written (fun x => x.isFinite = true) ∧ Graph.decode? g.encode = some g) ∧
    ∀ q : CallSequence, q.Formed →
      q.encode.Written (fun x => x.isFinite = true) ∧ CallSequence.decode? q.encode = some q := by
  refine ⟨fun s h => ?_, fun g h => ?_, fun q h => ?_⟩
  · exact ⟨Schema.written_encode h, Schema.decode?_encode h⟩
  · exact ⟨Graph.written_encode h, Graph.decode?_encode h⟩
  · exact ⟨CallSequence.written_encode h, CallSequence.decode?_encode h⟩

/-- A function that takes an object and returns an instance or `null`. -/
def openSchema : Schema :=
  .ofList [("open", {
    args := [.object [("count", .number), ("name", .string)]]
    ret := .known [(.ofClass, 0.5), (.null, 0.5)] none none (some [("File", 1)])
    convention := .free })]

/-- A call with one constant object. -/
def openGraph : Graph where
  root := some 2
  nodes := [
    (1, { id := 1,
          payload := .constant (.object [("count", .number)]) (.object [("count", .number 2.5)]),
          consumers := [2] }),
    (2, { id := 2,
          payload := .call "open" ⟨[.object [("count", .number)]], .ofClass "File", .free⟩,
          inputs := [⟨1, 0, 0⟩] })]
  ascending := by simp [Table.Ascending]; decide

/-- Two calls, of which the second takes the result of the first. -/
def openCalls : CallSequence where
  bytes := [0, 255]
  calls := [⟨1, "open", [.constant (.array .number)], .free⟩,
    ⟨2, "File.close", [.output 1, .missing], .method⟩]

theorem decode?_encode_open :
    Schema.decode? openSchema.encode = some openSchema ∧
      Graph.decode? openGraph.encode = some openGraph ∧
        CallSequence.decode? openCalls.encode = some openCalls := by
  have hone : (1 : Float).isFinite = true := by decide +kernel
  have hhalf : (0.5 : Float).isFinite = true := by decide +kernel
  have hconstant : (2.5 : Float).isFinite = true := by decide +kernel
  obtain ⟨hschema, hgraph, hcalls⟩ := decode?_encode_all
  have hobject : (ValueType.object [("count", .number)]).Formed :=
    .object (List.pairwise_singleton ..) (List.forall_mem_singleton.mpr .number)
  refine ⟨(hschema _ ?_).2, (hgraph _ ?_).2, (hcalls _ ?_).2⟩
  · refine List.forall_mem_singleton.mpr ⟨List.forall_mem_singleton.mpr ?_, ?_⟩
    · refine Guess.formed_object hone (by simp [Table.Ascending]; decide) ?_
      simp only [List.forall_mem_cons]
      exact ⟨Guess.formed_ofKind hone _, Guess.formed_ofKind hone _, nofun⟩
    · refine .known (by simp [Table.Ascending]; decide) ?_ nofun nofun nofun ?_ ?_
      · simp only [List.forall_mem_cons]
        exact ⟨hhalf, hhalf, nofun⟩
      · rintro _ ⟨rfl⟩
        exact List.pairwise_singleton ..
      · rintro _ ⟨rfl⟩
        exact List.forall_mem_singleton.mpr hone
  · refine ⟨?_, by decide, ?_⟩
    · rintro _ ⟨rfl⟩
      decide
    · have hvalue : (Constant.object [("count", .number 2.5)]).Formed
          fun x => x.isFinite = true :=
        .object (List.pairwise_singleton ..) (List.forall_mem_singleton.mpr (.number hconstant))
      refine List.forall_mem_cons.mpr ⟨?_, List.forall_mem_singleton.mpr ?_⟩
      · exact ⟨by decide, .constant hobject hvalue, nofun, by decide⟩
      · refine ⟨by decide, .call "open" ⟨List.forall_mem_singleton.mpr hobject, .ofClass _⟩, ?_,
          nofun⟩
        exact List.forall_mem_singleton.mpr ⟨by decide, by decide, by decide⟩
  · refine List.forall_mem_cons.mpr ⟨?_, List.forall_mem_singleton.mpr ?_⟩
    · exact ⟨by decide, List.forall_mem_singleton.mpr (.constant (.array .number))⟩
    · refine ⟨by decide, List.forall_mem_cons.mpr ⟨.output (by decide), ?_⟩⟩
      exact List.forall_mem_singleton.mpr .missing

end ApiSurface
