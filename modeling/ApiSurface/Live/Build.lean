import ApiSurface.Live.World

/-!
Making objects: records, arrays, errors, functions and classes. A function that may construct gets
an object that lends its properties to the instances; the methods of a class live on that object.
-/

namespace ApiSurface.Live

/-- A step that makes objects on a heap. -/
abbrev Building (β α : Type) := StateM (Heap β) α

namespace Building

variable {β : Type}

/-- Puts an object on the heap. -/
def object (o : Obj β) : Building β Nat :=
  fun h => h.alloc o

/-- Puts a pending result on the heap. -/
def promise (p : Promise β) : Building β Value :=
  fun h => let r := h.allocPromise p; (.promise r.1, r.2)

/-- Gives an object a property. -/
def define (id : Nat) (key : String) (p : Property) : Building β Unit :=
  fun h => ((), h.define id key p)

/-- Gives an object a prototype, or none. -/
def setPrototype (id : Nat) (p : Option Nat) : Building β Unit :=
  fun h => ((), h.setPrototype id p)

/-- An ordinary object with the given properties, all of which listings show. -/
def record (fields : List (String × Value)) : Building β Value := do
  let properties := Table.ofList (fields.map fun f => (f.1, Property.plain f.2))
  return .object (← object { kind := .ordinary, properties := properties })

/-- An array. -/
def array (items : List Value) : Building β Value := do
  return .object (← object { kind := .array items })

/-- The properties that an error object shows its name and message under. -/
def errorProperties (name : ErrorName) (message : String) : List (String × Property) :=
  [("message", .hidden (.string message)), ("name", .hidden (.string name.text))]

/-- An error object. -/
def error (name : ErrorName) (message : String) : Building β Nat :=
  object { kind := .error name message, properties := errorProperties name message }

/-- The name under which a function holds the object that its instances inherit from. -/
def prototypeKey : String :=
  "prototype"

/-- A function object. One that may construct gets a prototype for its instances. -/
def function (c : Callable β) : Building β Nat := do
  let id ← object { kind := .function c }
  if c.flavor ≠ .arrow then
    define id prototypeKey (.hidden (.object (← object { kind := .ordinary })))
  return id

/-- The function object of a method: it may only be called. -/
def method (name : String) (length : Nat) (body : β) : Building β Value := do
  return .object (← function { name, length, flavor := .arrow, body })

end Building

/-- A method or a static function of a class. -/
structure ClassMember (β : Type) where
  name : String
  /-- The number of declared parameters. -/
  length : Nat
  body : β

/-- What a class is made from. -/
structure ClassPlan (β : Type) where
  name : String
  /-- The number of declared parameters of the constructor. -/
  length : Nat
  body : β
  flavor : Flavor := .ofClass
  /-- The value that the class extends. -/
  parent : Option Value := none
  methods : List (ClassMember β) := []
  statics : List (ClassMember β) := []

namespace Building

variable {β : Type}

/-- The prototype for the instances of a function, made if there is none yet. -/
def instancePrototype (f : Nat) : Building β Nat := do
  match (← get).get (.object f) prototypeKey with
  | .object p => return p
  | _ =>
    let p ← object { kind := .ordinary }
    define f prototypeKey (.hidden (.object p))
    return p

/-- Lets a class and its prototype inherit from those of the parent. -/
def inheritFrom (f p : Nat) (parent : Value) : Building β Unit := do
  match (← get).get parent prototypeKey with
  | .object q => setPrototype p (some q)
  | _ => pure ()
  match parent with
  | .object c => setPrototype f (some c)
  | _ => pure ()

/-- Gives an object the functions of a class, hidden from listings. -/
def addMembers (id : Nat) (members : List (ClassMember β)) : Building β Unit :=
  members.forM fun m => do
    define id m.name (.hidden (← method m.name m.length m.body))

/-- A class, and the prototype for its instances. -/
def newClass (c : ClassPlan β) : Building β (Nat × Nat) := do
  let f ← function { name := c.name, length := c.length, flavor := c.flavor, body := c.body }
  let p ← instancePrototype f
  match c.parent with
  | some parent => inheritFrom f p parent
  | none => pure ()
  addMembers p c.methods
  addMembers f c.statics
  return (f, p)

end Building

namespace Action

variable {β σ α : Type}

/-- Throws a fresh error object. -/
def raise (name : ErrorName) (message : String) : Action β σ Value α := do
  throw (.object (← onHeap (Building.error name message)))

end Action

end ApiSurface.Live
