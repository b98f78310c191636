import ApiSurface.Reflect.Probe
import ApiSurface.Settings

/-!
Binding the entries of a schema to the live functions of a module. The exports are walked to a
limited depth; every function found becomes an endpoint, and one that turns out to be a constructor
brings the methods of its instances and its static functions with it. Functions that the schema does
not know are admitted with a signature of which nothing is known but the number of parameters,
unless the settings forbid it.
-/

namespace ApiSurface.Reflect

open Live

variable {β σ : Type}

/-- A method of the library whose entry has another convention. -/
structure Clash where
  name : String
  convention : Convention
  deriving Repr, DecidableEq

/-- The wording of a clash. -/
def Clash.message (c : Clash) : String :=
  "schema entry " ++ c.name ++ " is " ++ c.convention.name
    ++ " but the live value is a prototype method"

/-- The schema and the endpoints as they grow. -/
structure Binding where
  schema : Schema
  endpoints : Endpoints := []
  /-- How many entries were admitted. -/
  admitted : Nat := 0

/-- A step of binding. It may stop at a clash and may run library code. -/
abbrev Mapping (β σ α : Type) := StateT Binding (Action β σ Clash) α

namespace Mapping

/-- The heap as it stands. -/
def heap : Mapping β σ (Heap (Code β)) :=
  fun b w => (.ok (w.heap, b), w)

/-- The convention of an entry, if the schema has it. -/
def known? (name : String) : Mapping β σ (Option Convention) := do
  return ((← get).schema.find? name).map Entry.convention

/-- Binds an entry to a live value. -/
def bindTo (name : String) (v : Value) : Mapping β σ Unit :=
  modify fun b => { b with endpoints := Table.insert b.endpoints name v }

/-- Admits an entry that the schema does not have. -/
def addEntry (name : String) (e : Entry) : Mapping β σ Unit :=
  modify fun b => { b with schema := b.schema.insert name e, admitted := b.admitted + 1 }

/-- Whether a function turns out to be a constructor. -/
def isConstructor (lib : Library β σ) (f : Value) : Mapping β σ Bool :=
  fun b w => let r := classify lib f w; (.ok (r.1 == .constructor, b), r.2)

end Mapping

open Mapping

/-- The number of parameters that a value declares. -/
def arityOf (h : Heap β) (f : Value) : Nat :=
  match h.callable? f with
  | some c => c.length
  | none => 0

/-- The first pair of every name that is not among the given ones. -/
def firstOfEach {α : Type} (seen : List String) : List (String × α) → List (String × α)
  | [] => []
  | (k, a) :: r =>
    if seen.contains k then firstOfEach seen r else (k, a) :: firstOfEach (k :: seen) r

/-- The prototypes that instances of a function inherit from, the nearest first. -/
def instanceChain (h : Heap β) (f : Value) : List Nat :=
  match h.get f Building.prototypeKey with
  | .object p => p :: h.chain p
  | _ => []

/-- The methods that instances of a function have. A name that starts with an underscore is private,
and the nearest prototype that has a name wins. -/
def instanceMethods (h : Heap β) (f : Value) : List (String × Value) :=
  let all := (instanceChain h f).flatMap (ownMethods h)
  firstOfEach [] (all.filter fun m => !Text.startsWith m.1 "_")

/-- The entry of a method of which nothing is known but the number of parameters. -/
def unknownMethod (className : String) (arity : Nat) : Entry :=
  { args := .ofClass className :: List.replicate arity .any, ret := .any, convention := .method }

/-- The entry of a constructor of which nothing is known but the number of parameters. -/
def unknownConstructor (name : String) (arity : Nat) : Entry :=
  { args := List.replicate arity .any, ret := .ofClass name, convention := .constructor }

/-- Binds a method of a class. -/
def mapMethod (s : Settings) (className : String) (m : String × Value) : Mapping β σ Unit := do
  let name := className ++ "." ++ m.1
  if s.skipped.contains name then return
  match ← known? name with
  | some .method => bindTo name m.2
  | some c => throw ⟨name, c⟩
  | none =>
    if s.onlyKnown then return
    addEntry name (unknownMethod className (arityOf (← heap) m.2))
    bindTo name m.2

/-- Binds the methods of a class. -/
def mapMethods (s : Settings) (className : String) (f : Value) : Mapping β σ Unit := do
  (instanceMethods (← heap) f).forM (mapMethod s className)

/-- Binds a static function of a class. One that the schema knows as a method leaves the method in
place, and one that it knows as a constructor is bound by `nested`. -/
def mapStatic (nested : String → Value → Mapping β σ Unit) (s : Settings) (className : String)
    (m : String × Value) : Mapping β σ Unit := do
  let name := className ++ "." ++ m.1
  if m.1 = Building.prototypeKey || s.skipped.contains name then return
  match ← known? name with
  | some .method => return
  | some .constructor => nested name m.2
  | some .free => bindTo name m.2
  | none =>
    if s.onlyKnown then return
    addEntry name (.unknown (arityOf (← heap) m.2) .free)
    bindTo name m.2

/-- Binds the static functions of a class. -/
def mapStatics (nested : String → Value → Mapping β σ Unit) (s : Settings) (className : String)
    (f : Value) : Mapping β σ Unit := do
  match f with
  | .object id => (ownMethods (← heap) id).forM (mapStatic nested s className)
  | _ => return

/-- The entry that admits a function. -/
def admittedEntry (name : String) (arity : Nat) (constructs : Bool) : Entry :=
  if constructs then unknownConstructor name arity else .unknown arity .free

/-- Binds a function under a name, and what belongs to it if it is a constructor. Classes that are
static functions of one another are followed at most `fuel` deep. -/
def mapNamed (lib : Library β σ) (s : Settings) : Nat → String → Value → Mapping β σ Unit
  | 0, _, _ => return
  | fuel + 1, name, f => do
    if s.skipped.contains name then return
    let known ← known? name
    if known.isNone && s.onlyKnown then return
    let constructs ← if known = some .constructor then pure true else isConstructor lib f
    bindTo name f
    if known.isNone then addEntry name (admittedEntry name (arityOf (← heap) f) constructs)
    if constructs then
      mapMethods s name f
      mapStatics (mapNamed lib s fuel) s name f

/-- More levels of static classes than there can be: each level makes the name longer, and the names
come from the schema. -/
def staticFuel (s : Schema) : Nat :=
  (s.names.map String.length).foldl max 0 + 2

/-- Binds a live function under a name, or under its own name if none is given. -/
def mapFunction (lib : Library β σ) (s : Settings) (start : String) (f : Value)
    (key : Option String) : Mapping β σ Unit := do
  match (← heap).callable? f with
  | none => return
  | some c => mapNamed lib s (staticFuel (← get).schema) (start ++ key.getD c.name) f

/-- Binds the functions that an object shows, and those of the objects it shows, `depth` objects
deep. -/
def mapObject (lib : Library β σ) (s : Settings) : Nat → String → Nat → Mapping β σ Unit
  | 0, _, _ => return
  | depth + 1, start, id => do
    ((← heap).entries id).forM fun p => do
      if (← heap).isCallable p.2 then mapFunction lib s start p.2 (some p.1)
      else
        match p.2 with
        | .object nested => mapObject lib s depth (start ++ p.1 ++ ".") nested
        | _ => return

/-- The default export of a module that is no function. -/
def defaultExport? (h : Heap β) (exports : Value) : Option Value :=
  match exports with
  | .object id =>
    if !h.isCallable exports && h.hasOwn id "default" then some (h.get exports "default") else none
  | _ => none

/-- Binds a module that is a function, or whose default export is one, under its own name; then what
the exports show. -/
def mapExports (lib : Library β σ) (s : Settings) (exports : Value) : Mapping β σ Unit := do
  let h ← heap
  let main := (defaultExport? h exports).getD exports
  if h.isCallable main then mapFunction lib s "" main none
  match main with
  | .object id => mapObject lib s s.maxDepth "" id
  | _ => return

/-- Binds a class or function of the host, with its entry if the schema has none. -/
def mapHostValue (s : Settings) (p : String × Value) : Mapping β σ Unit := do
  if s.skipped.contains p.1 then return
  bindTo p.1 p.2
  modify fun b =>
    if b.schema.has p.1 then b
    else
      match Standard.entries.lookup p.1 with
      | some e => { b with schema := b.schema.insert p.1 e }
      | none => b

/-- Binds the classes and functions of the host. -/
def mapHost (s : Settings) : Mapping β σ Unit := do
  let values ← StateT.lift (Action.onHeap Building.host)
  values.forM (mapHostValue s)

end ApiSurface.Reflect
