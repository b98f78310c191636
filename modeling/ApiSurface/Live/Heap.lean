import ApiSurface.Decimal.Layout
import ApiSurface.Table
import ApiSurface.Text.Quoted

/-!
Live values: what functions of a library take and return. Objects and pending results live on a heap
and are known by their number; an object has properties under names, may have a prototype that lends
it more, and may be something special such as an array or a function. The code of functions is a
parameter, since a library may bring any.
-/

namespace ApiSurface.Live

/-- A value. -/
inductive Value where
  | undefined
  | null
  | boolean (b : Bool)
  | number (x : Float)
  | string (s : String)
  | object (id : Nat)
  /-- The pending result of a call. -/
  | promise (id : Nat)
  deriving DecidableEq

instance : Inhabited Value := ⟨.undefined⟩

/-- The number of a value that is an object. -/
def Value.object? : Value → Option Nat
  | object id => some id
  | _ => none

/-- The live values that entries of a schema are bound to. -/
abbrev Endpoints := Table String Value

/-- The names of the host's errors. -/
inductive ErrorName where
  | error
  | typeError
  | rangeError
  | syntaxError
  | referenceError
  deriving Repr, DecidableEq

/-- The text of an error's name. -/
def ErrorName.text : ErrorName → String
  | error => "Error"
  | typeError => "TypeError"
  | rangeError => "RangeError"
  | syntaxError => "SyntaxError"
  | referenceError => "ReferenceError"

/-- In which ways a function may be invoked. -/
inductive Flavor where
  /-- It may be called and construct. -/
  | ordinary
  /-- The constructor of a class: it only constructs. -/
  | ofClass
  /-- It may only be called and has no prototype for instances. -/
  | arrow
  /-- A constructor of the host that refuses to be called. -/
  | builtin
  deriving Repr, DecidableEq

/-- What makes an object something that can be invoked. -/
structure Callable (β : Type) where
  name : String
  /-- The number of declared parameters. -/
  length : Nat
  flavor : Flavor
  body : β

/-- What an object is apart from its properties. -/
inductive ObjectKind (β : Type) where
  | ordinary
  | array (items : List Value)
  | function (callable : Callable β)
  | error (name : ErrorName) (message : String)
  | bytes (data : ByteArray)
  | regexp (source flags : String)

/-- What a property holds: a value, or functions that stand in for one. -/
inductive Slot where
  | data (v : Value)
  | accessor (getter : Option Value)
  deriving DecidableEq

/-- A property. -/
structure Property where
  slot : Slot
  enumerable : Bool
  deriving DecidableEq

namespace Property

/-- A property that listings show. -/
def plain (v : Value) : Property := ⟨.data v, true⟩

/-- A property that listings pass over. -/
def hidden (v : Value) : Property := ⟨.data v, false⟩

/-- The value of a property that holds one. -/
def value? (p : Property) : Option Value :=
  match p.slot with
  | .data v => some v
  | .accessor _ => none

end Property

/-- An object. -/
structure Obj (β : Type) where
  kind : ObjectKind β
  properties : List (String × Property) := []
  prototype : Option Nat := none

/-- A pending result: the code that works it out when it is first waited for, or what it has come
to. -/
inductive Promise (β : Type) where
  | pending (code : β)
  | settled (result : Except Value Value)

/-- The objects and pending results that there are. -/
structure Heap (β : Type) where
  objects : Array (Obj β) := #[]
  promises : Array (Promise β) := #[]

instance {β : Type} : Inhabited (Heap β) := ⟨{}⟩

namespace Heap

variable {β : Type}

/-- The object with a number. -/
def obj? (h : Heap β) (id : Nat) : Option (Obj β) :=
  h.objects[id]?

/-- A heap with one more object, and its number. -/
def alloc (h : Heap β) (o : Obj β) : Nat × Heap β :=
  (h.objects.size, { h with objects := h.objects.push o })

/-- A heap with one more pending result, and its number. -/
def allocPromise (h : Heap β) (p : Promise β) : Nat × Heap β :=
  (h.promises.size, { h with promises := h.promises.push p })

/-- The pending result with a number. -/
def promise? (h : Heap β) (id : Nat) : Option (Promise β) :=
  h.promises[id]?

/-- Keeps what a pending result has come to. -/
def settle (h : Heap β) (id : Nat) (result : Except Value Value) : Heap β :=
  { h with promises := h.promises.modify id fun _ => .settled result }

/-- Changes the object with a number. -/
def modify (h : Heap β) (id : Nat) (f : Obj β → Obj β) : Heap β :=
  { h with objects := h.objects.modify id f }

/-- Gives an object a property, in place of the one of that name. -/
def define (h : Heap β) (id : Nat) (key : String) (p : Property) : Heap β :=
  h.modify id fun o => { o with properties := Table.insert o.properties key p }

/-- Gives an object a property that listings show. -/
def set (h : Heap β) (id : Nat) (key : String) (v : Value) : Heap β :=
  h.define id key (.plain v)

/-- Gives an object a prototype, or none. -/
def setPrototype (h : Heap β) (id : Nat) (p : Option Nat) : Heap β :=
  h.modify id fun o => { o with prototype := p }

/-- The prototype of an object. -/
def prototype? (h : Heap β) (id : Nat) : Option Nat :=
  (h.obj? id).bind Obj.prototype

/-- The properties that an object has itself, by name. -/
def properties (h : Heap β) (id : Nat) : List (String × Property) :=
  match h.obj? id with
  | some o => o.properties
  | none => []

/-- The property of a name that an object has itself. -/
def own? (h : Heap β) (id : Nat) (key : String) : Option Property :=
  Table.find? (h.properties id) key

/-- Whether an object itself has a property of the name. -/
def hasOwn (h : Heap β) (id : Nat) (key : String) : Bool :=
  (h.own? id key).isSome

/-- The values that a listing of an object shows, by name. -/
def entries (h : Heap β) (id : Nat) : List (String × Value) :=
  (h.properties id).filterMap fun p =>
    if p.2.enumerable then p.2.value?.map (p.1, ·) else none

/-- The value of a name on an object or, walking at most `fuel` objects, on its prototypes. -/
def lookup (h : Heap β) (key : String) : Nat → Nat → Value
  | 0, _ => .undefined
  | fuel + 1, id =>
    match h.own? id key with
    | some p => p.value?.getD .undefined
    | none =>
      match h.prototype? id with
      | some p => lookup h key fuel p
      | none => .undefined

/-- More objects than any chain of prototypes without repetition has. -/
def chainFuel (h : Heap β) : Nat :=
  h.objects.size + 1

/-- The value of a name on an object or its prototypes. A value that is no object has none. -/
def get (h : Heap β) (v : Value) (key : String) : Value :=
  match v with
  | .object id => h.lookup key h.chainFuel id
  | _ => .undefined

/-- The prototypes of an object in order, at most `fuel` of them. -/
def chainTo (h : Heap β) : Nat → Nat → List Nat
  | 0, _ => []
  | fuel + 1, id =>
    match h.prototype? id with
    | some p => p :: chainTo h fuel p
    | none => []

/-- The prototypes of an object, the nearest first. -/
def chain (h : Heap β) (id : Nat) : List Nat :=
  h.chainTo h.chainFuel id

/-- Whether an object is among the prototypes of another one. -/
def inherits (h : Heap β) (id prototype : Nat) : Bool :=
  (h.chain id).contains prototype

/-- What makes a value something that can be invoked, if it is. -/
def callable? (h : Heap β) (v : Value) : Option (Callable β) :=
  match v with
  | .object id =>
    match h.obj? id with
    | some o =>
      match o.kind with
      | .function c => some c
      | _ => none
    | none => none
  | _ => none

/-- Whether a value can be invoked. -/
def isCallable (h : Heap β) (v : Value) : Bool :=
  (h.callable? v).isSome

/-- The items of a value that is an array. -/
def items? (h : Heap β) (v : Value) : Option (List Value) :=
  match (v.object?).bind h.obj? with
  | some o =>
    match o.kind with
    | .array items => some items
    | _ => none
  | none => none

/-- The bytes of a value that holds some. -/
def bytes? (h : Heap β) (v : Value) : Option ByteArray :=
  match (v.object?).bind h.obj? with
  | some o =>
    match o.kind with
    | .bytes data => some data
    | _ => none
  | none => none

/-- The name and message of a value that is an error. -/
def error? (h : Heap β) (v : Value) : Option (ErrorName × String) :=
  match (v.object?).bind h.obj? with
  | some o =>
    match o.kind with
    | .error name message => some (name, message)
    | _ => none
  | none => none

/-- Whether an object was constructed by the constructor. -/
def instanceOf (h : Heap β) (v constructor : Value) : Bool :=
  match v, h.get constructor "prototype" with
  | .object id, .object p => h.inherits id p
  | _, _ => false

/-- The sort of a value as the operator of the language names it. -/
def typeOf (h : Heap β) : Value → String
  | .undefined => "undefined"
  | .null => "object"
  | .boolean _ => "boolean"
  | .number _ => "number"
  | .string _ => "string"
  | .object id => if h.isCallable (.object id) then "function" else "object"
  | .promise _ => "object"

end Heap

namespace Value

/-- The number that a value is. -/
def number? : Value → Option Float
  | number x => some x
  | _ => none

/-- The text that a value is. -/
def string? : Value → Option String
  | string s => some s
  | _ => none

/-- The truth value that a value is. -/
def boolean? : Value → Option Bool
  | boolean b => some b
  | _ => none

/-- Whether two values are the same object or the same simple value. -/
def same : Value → Value → Bool
  | undefined, undefined => true
  | null, null => true
  | boolean a, boolean b => a == b
  | number a, number b => a == b || (a.isNaN && b.isNaN)
  | string a, string b => a == b
  | object a, object b => a == b
  | promise a, promise b => a == b
  | _, _ => false

end Value

/-! ## Texts of values -/

namespace Heap

variable {β : Type}

/-- Texts in brackets, each quoted. -/
def quotedList (ss : List String) : String :=
  "[" ++ ", ".intercalate (ss.map Text.quoted) ++ "]"

/-- The text of an object in diagnostics. -/
def describeObject (o : Obj β) : String :=
  match o.kind with
  | .ordinary => "Object " ++ quotedList (Table.keys o.properties)
  | .array items => "Array(" ++ toString items.length ++ ")"
  | .function c => "[Function: " ++ c.name ++ "]"
  | .error name message => name.text ++ ": " ++ message
  | .bytes data => "Bytes(" ++ toString data.size ++ ")"
  | .regexp source flags => "/" ++ source ++ "/" ++ flags

/-- The text of a value in diagnostics. -/
def describe (h : Heap β) : Value → String
  | .undefined => "undefined"
  | .null => "null"
  | .boolean b => if b then "true" else "false"
  | .number x => Decimal.Layout.plain.render x
  | .string s => Text.quoted s
  | .object id =>
    match h.obj? id with
    | some o => describeObject o
    | none => ""
  | .promise _ => "Promise \x7b <pending> \x7d"

/-- The message of a thrown value: that of an error, or the text that was thrown. -/
def messageOf (h : Heap β) (v : Value) : String :=
  match v with
  | .string s => s
  | .object _ =>
    match h.error? v with
    | some (_, message) => message
    | none => ""
  | v => h.describe v

/-- The line that reports a thrown value. -/
def reportOf (h : Heap β) (v : Value) : String :=
  match h.error? v with
  | some (name, _) => name.text ++ ": " ++ h.messageOf v
  | none => "Uncaught " ++ h.describe v

end Heap

end ApiSurface.Live
