import ApiSurface.Live.Heap

/-!
The world that calls happen in: the heap and whatever state the library keeps to itself. A library
is given by what its code does when it is invoked, an arbitrary function on the world that returns
or throws; nothing else is known of it. An action is a step in the world that may stop early.
-/

namespace ApiSurface.Live

/-- The receiver and the arguments of one invocation. -/
structure Invocation where
  receiver : Value
  args : List Value
  /-- Whether the invocation is to construct an object. -/
  constructs : Bool

/-- The argument at a position; one that is not given is undefined. -/
def Invocation.arg (i : Invocation) (position : Nat) : Value :=
  i.args.getD position .undefined

/-- What the functions that the host brings with it do. -/
inductive HostCode where
  /-- Ignores its arguments and returns undefined. -/
  | nothing
  /-- Constructs the bytes of a typed array. -/
  | typedArray
  /-- Constructs the bytes of a buffer of a given length. -/
  | buffer
  /-- Makes a buffer, which has the given prototype, from text, bytes or an array. -/
  | bufferFrom (prototype : Nat)
  | regexp
  | error
  /-- Makes a stream that can be read and written. -/
  | duplex
  deriving Repr, DecidableEq

/-- The code of a function: that of the host, or that of the library. -/
inductive Code (β : Type) where
  | host (code : HostCode)
  | library (code : β)

/-- The heap and the state that a library keeps to itself. -/
structure World (β σ : Type) where
  heap : Heap (Code β)
  state : σ

/-- A step in the world that ends with a result or stops early. -/
abbrev Action (β σ ε α : Type) := ExceptT ε (StateM (World β σ)) α

/-- What the code of a library does when it is invoked: it returns a value or throws one. -/
abbrev Library (β σ : Type) := β → Invocation → Action β σ Value Value

namespace Action

variable {β σ ε α : Type}

/-- The heap as it stands. -/
def heap : Action β σ ε (Heap (Code β)) :=
  fun w => (.ok w.heap, w)

/-- A step that only touches the heap. -/
def onHeap (f : StateM (Heap (Code β)) α) : Action β σ ε α :=
  fun w => let r := f w.heap; (.ok r.1, { w with heap := r.2 })

/-- A change of the heap. -/
def change (f : Heap (Code β) → Heap (Code β)) : Action β σ ε Unit :=
  fun w => (.ok (), { w with heap := f w.heap })

/-- How an action ends, as a result of an action that does not stop early. -/
def outcome {ε' : Type} (a : Action β σ ε α) : Action β σ ε' (Except ε α) :=
  fun w => let r := a w; (.ok r.1, r.2)

/-- An action with its reason for stopping early put into other terms. -/
def mapError {ε' : Type} (f : ε → ε') (a : Action β σ ε α) : Action β σ ε' α :=
  fun w => let r := a w; (r.1.mapError f, r.2)

end Action

end ApiSurface.Live
