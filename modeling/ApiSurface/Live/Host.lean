import ApiSurface.Live.Build
import ApiSurface.Live.Pattern

/-!
The classes that the host brings with it: typed arrays and buffers, regular expressions, errors and
streams. What their code does, and the live values under the names of their entries.
-/

namespace ApiSurface.Live

/-- The greatest length in bytes that the host allocates. -/
def maxByteLength : Nat :=
  16777216

/-- The length in bytes that a number asks for: a whole number that the host allocates. -/
def byteLength? (x : Float) : Option Nat :=
  let n := x.toUInt64
  if n.toFloat == x && n.toNat ≤ maxByteLength then some n.toNat else none

/-- So many zero bytes. -/
def zeroBytes (n : Nat) : ByteArray :=
  ⟨Array.replicate n 0⟩

/-- The number that a value is, cut to a byte; a value that is no number counts as zero. -/
def Value.toByte (v : Value) : UInt8 :=
  (v.number?.getD 0).toUInt8

/-- The bytes that a value holds, or that the items of an array give. -/
def Heap.byteSource? {β : Type} (h : Heap β) (v : Value) : Option ByteArray :=
  match h.items? v with
  | some items => some ⟨(items.map Value.toByte).toArray⟩
  | none => h.bytes? v

namespace HostCode

variable {β σ : Type}

/-- The prototype of the receiver. -/
def receiverPrototype (h : Heap β) (i : Invocation) : Option Nat :=
  i.receiver.object?.bind h.prototype?

/-- Returns a fresh object. -/
def giveObject (o : Obj (Code β)) : Action β σ Value Value := do
  return .object (← Action.onHeap (Building.object o))

/-- Returns bytes that have the prototype of the receiver. -/
def giveBytes (i : Invocation) (data : ByteArray) : Action β σ Value Value := do
  giveObject { kind := .bytes data, prototype := receiverPrototype (← Action.heap) i }

/-- The bytes of a typed array: zeros of a length, or those that an object holds. -/
def typedArrayBytes (v : Value) : Action β σ Value ByteArray := do
  match v with
  | .number x =>
    match byteLength? x with
    | some n => return zeroBytes n
    | none => .raise .rangeError ("Invalid typed array length: " ++ Decimal.Layout.plain.render x)
  | v => return ((← Action.heap).byteSource? v).getD .empty

/-- The bytes of a buffer: zeros of a length. -/
def bufferBytes : Value → Action β σ Value ByteArray
  | .undefined => return .empty
  | v =>
    match v.number?.bind byteLength? with
    | some n => return zeroBytes n
    | none => .raise .rangeError "Invalid array buffer length"

/-- The bytes that a value gives to a buffer: those of a text, or those that an object holds. -/
def copiedBytes (v : Value) : Action β σ Value ByteArray := do
  let h ← Action.heap
  match v.string?.map String.toUTF8 <|> h.byteSource? v with
  | some data => return data
  | none =>
    .raise .typeError
      ("The first argument must be of type string or an instance of Buffer, ArrayBuffer, or "
        ++ "Array or an Array-like Object. Received type " ++ h.typeOf v)

/-- The text of an argument, and what stands in for one that is not given. -/
def textOr (h : Heap β) (missing : String) : Value → String
  | .undefined => missing
  | .string s => s
  | v => h.describe v

/-- Constructs a regular expression with a sound pattern and known flags. -/
def runRegexp (i : Invocation) : Action β σ Value Value := do
  let h ← Action.heap
  let source := textOr h "(?:)" (i.arg 0)
  let flags := textOr h "" (i.arg 1)
  if !Pattern.validFlags flags.toList then
    .raise .syntaxError ("Invalid flags supplied to RegExp constructor '" ++ flags ++ "'")
  else
    match Pattern.fault? 0 source.toList with
    | some f =>
      .raise .syntaxError
        ("Invalid regular expression: /" ++ source ++ "/" ++ flags ++ ": " ++ f.message)
    | none => giveObject { kind := .regexp source flags, prototype := receiverPrototype h i }

/-- Constructs an error that has the prototype of the receiver. -/
def runError (i : Invocation) : Action β σ Value Value := do
  let h ← Action.heap
  let e ← Action.onHeap (Building.error .error (textOr h "" (i.arg 0)))
  Action.change fun h' => h'.setPrototype e (receiverPrototype h i)
  return .object e

/-- Makes the receiver of a construction, or else a fresh object, a stream. -/
def runDuplex (i : Invocation) : Action β σ Value Value := do
  let id ← match i.receiver, i.constructs with
    | .object id, true => pure id
    | _, _ => Action.onHeap (Building.object { kind := .ordinary })
  Action.change fun h =>
    (h.set id "readable" (.boolean true)).set id "writable" (.boolean true)
  return .object id

/-- What the code does. -/
def run (i : Invocation) : HostCode → Action β σ Value Value
  | nothing => return .undefined
  | typedArray => do giveBytes i (← typedArrayBytes (i.arg 0))
  | buffer => do giveBytes i (← bufferBytes (i.arg 0))
  | bufferFrom prototype => do
    giveObject { kind := .bytes (← copiedBytes (i.arg 0)), prototype := some prototype }
  | regexp => runRegexp i
  | error => runError i
  | duplex => runDuplex i

end HostCode

namespace Building

variable {β : Type}

/-- A constructor of the host. -/
def hostFunction (name : String) (length : Nat) (flavor : Flavor) (code : HostCode) :
    Building (Code β) Value := do
  return .object (← function { name, length, flavor, body := .host code })

/-- A function that ignores its arguments and returns undefined. -/
def nothing : Building (Code β) Value :=
  hostFunction "" 0 .arrow .nothing

/-- The class of buffers, and its static function that makes buffers from other values. -/
def bufferClass : Building (Code β) (Value × Value) := do
  let (f, p) ← newClass
    { name := "Buffer", length := 1, flavor := .ordinary, body := Code.host .buffer }
  let make ← method "from" 1 (Code.host (.bufferFrom p))
  define f "from" (.hidden make)
  return (.object f, make)

/-- The live values of the host under the names of their entries. -/
def host : Building (Code β) (List (String × Value)) := do
  let (bufferValue, makeBuffer) ← bufferClass
  return [("Uint8Array", ← hostFunction "Uint8Array" 0 .builtin .typedArray),
    ("ArrayBuffer", ← hostFunction "ArrayBuffer" 1 .builtin .buffer),
    ("RegExp", ← hostFunction "RegExp" 2 .ordinary .regexp),
    ("Buffer", bufferValue),
    ("SharedArrayBuffer", ← hostFunction "SharedArrayBuffer" 1 .builtin .buffer),
    ("Error", ← hostFunction "Error" 1 .ordinary .error),
    ("Duplex", ← hostFunction "Duplex" 1 .ordinary .duplex),
    ("Buffer.from", makeBuffer)]

end Building

end ApiSurface.Live
