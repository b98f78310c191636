/-
# `ApiSurface.Proofs.Reflect.Unbounded` — the walk over exports without any bound

Binding a module follows prototypes for at most as many steps as there are objects, and follows
classes that are static functions of one another to a depth that is read off the schema.  Neither
bound is part of what the walk is to do.  Here the same walk is written without them: prototypes are
followed until one has none, functions and static functions call each other for as long as there is
a class to follow, and objects are gone into by counting up to the depth that the settings allow.

Such a computation may never end, which is the result `none`; each of the recursive definitions is
the least one that satisfies its equation, so that following prototypes ends just where there is a
line of them (`line_eq_some_iff`).  Whatever involves no recursion is taken from the walk with
bounds (`Walk.of`), and so are the calls of library code, all of which end.
-/
import ApiSurface.Proofs.Live.Lines
import ApiSurface.Proofs.Run.Dispatch
import ApiSurface.Reflect.Loading

namespace ApiSurface

open Live

variable {β σ α γ : Type}

/-! ## Following prototypes -/

/-- The value of a name on an object or on the first of its prototypes that has one. -/
def Live.Heap.seek (h : Heap β) (key : String) (id : Nat) : Option Value :=
  match h.own? id key with
  | some p => some (p.value?.getD .undefined)
  | none =>
    match h.prototype? id with
    | some p => h |>.seek key p
    | none => some .undefined
partial_fixpoint

/-- An object and its prototypes in order. -/
def Live.Heap.line (h : Heap β) (id : Nat) : Option (List Nat) :=
  match h.prototype? id with
  | some p => do return id :: (← h |>.line p)
  | none => some [id]
partial_fixpoint

/-- What the walk goes by: the code of the library and the settings. -/
structure Reflect.Unbounded (β σ : Type) where
  lib : Library β σ
  settings : Settings

namespace Reflect.Unbounded

/-- The value of a name on an object or its prototypes. A value that is no object has none. -/
def get (h : Heap β) (v : Value) (key : String) : Option Value :=
  match v with
  | .object id => h.seek key id
  | _ => some .undefined

/-! ## Telling constructors from plain functions -/

/-- A step in the world that may not come to an end. -/
abbrev Try (β σ α : Type) := StateT (World β σ) Option α

/-- A step in the world that comes to an end. -/
def Try.of (m : StateM (World β σ) α) : Try β σ α :=
  fun w => some (m w)

/-- Runs the code of a constructor on a fresh object that inherits from the prototype for instances.
-/
def instantiate (lib : Library β σ) (f : Value) (c : Callable (Code β)) :
    Try β σ (Except Value Value) := do
  let prototype ← (get (← getThe (World β σ)).heap f Building.prototypeKey : Option Value)
  Try.of <| ExceptT.run do
    let fresh ← Action.onHeap
      (Building.object { kind := .ordinary, prototype := prototype.object? })
    match ← runCode lib c.body ⟨.object fresh, [], true⟩ with
    | .object id => return Value.object id
    | _ => return .object fresh

/-- Constructs an object without arguments, with a value as the constructor. -/
def construct (lib : Library β σ) (f : Value) : Try β σ (Except Value Value) := do
  let h := (← getThe (World β σ)).heap
  match h.callable? f with
  | none => Try.of (Action.raise .typeError (h.describe f ++ " is not a constructor")).run
  | some c =>
    match c.flavor with
    | .arrow => Try.of (Action.raise .typeError (shownName c.name ++ " is not a constructor")).run
    | .ordinary | .ofClass | .builtin => instantiate lib f c

/-- Whether the prototype for instances of a function has methods. -/
def hasMethods (h : Heap β) (f : Value) : Option Bool := do
  match ← get h f Building.prototypeKey with
  | .object p => return !(ownMethods h p).isEmpty
  | _ => return false

/-- What a function turns out to be when it is tried. -/
def classify (lib : Library β σ) (f : Value) : Try β σ CallableKind := do
  let called ← Try.of (call lib f .undefined []).run
  if refusedWith (← getThe (World β σ)).heap callRefusals called then return .constructor
  let constructed ← construct lib f
  let h := (← getThe (World β σ)).heap
  if refusedWith h constructRefusals constructed then return .function
  match f.object? with
  | none => return .function
  | some id =>
    if !h.hasOwn id Building.prototypeKey then return .function
    else if ← (hasMethods h f : Option Bool) then return .constructor
    else if ← Try.of (initializes lib f) then return .constructor
    else return .ambiguous

/-! ## Binding -/

/-- A step of binding that may not come to an end. -/
abbrev Walk (β σ α : Type) := StateT Binding (ExceptT Clash (StateT (World β σ) Option)) α

/-- A step of binding that comes to an end. -/
def Walk.of (m : Mapping β σ α) : Walk β σ α :=
  fun b w => some (m b w)

/-- Whether a function turns out to be a constructor. -/
def isConstructor (lib : Library β σ) (f : Value) : Walk β σ Bool :=
  fun b w => do
    let (kind, w') ← classify lib f w
    return (.ok (kind == .constructor, b), w')

/-- The methods that instances of a function have. -/
def instanceMethods (h : Heap β) (f : Value) : Option (List (String × Value)) := do
  let prototypes ←
    match ← get h f Building.prototypeKey with
    | .object p => h.line p
    | _ => some []
  let all := prototypes.flatMap (ownMethods h)
  return firstOfEach [] (all.filter fun m => !Text.startsWith m.1 "_")

/-- Binds the methods of a class. -/
def mapMethods (s : Settings) (className : String) (f : Value) : Walk β σ Unit := do
  let methods ← (instanceMethods (← Walk.of Mapping.heap) f : Option _)
  methods.forM fun m => Walk.of (mapMethod s className m)

mutual

/-- Binds a static function of a class. -/
def mapStatic (u : Unbounded β σ) (className : String) (m : String × Value) : Walk β σ Unit := do
  let name := className ++ "." ++ m.1
  if m.1 = Building.prototypeKey || u.settings.skipped.contains name then return
  match ← Walk.of (Mapping.known? name) with
  | some .method => return
  | some .constructor => u |>.mapNamed name m.2
  | some .free => Walk.of (Mapping.bindTo name m.2)
  | none =>
    if u.settings.onlyKnown then return
    Walk.of (do
      Mapping.addEntry name (.unknown (arityOf (← Mapping.heap) m.2) .free)
      Mapping.bindTo name m.2)
partial_fixpoint

/-- Binds the static functions of a class. -/
def mapStatics (u : Unbounded β σ) (className : String) (f : Value) : Walk β σ Unit := do
  match f with
  | .object id => (ownMethods (← Walk.of Mapping.heap) id).forM fun m => u |>.mapStatic className m
  | _ => return
partial_fixpoint

/-- Binds a function under a name, and what belongs to it if it is a constructor. -/
def mapNamed (u : Unbounded β σ) (name : String) (f : Value) : Walk β σ Unit := do
  if u.settings.skipped.contains name then return
  let known ← Walk.of (Mapping.known? name)
  if known.isNone && u.settings.onlyKnown then return
  let constructs ← if known = some .constructor then pure true else isConstructor u.lib f
  Walk.of (Mapping.bindTo name f)
  if known.isNone then
    let arity := arityOf (← Walk.of Mapping.heap) f
    Walk.of (Mapping.addEntry name (admittedEntry name arity constructs))
  if constructs then
    mapMethods u.settings name f
    u |>.mapStatics name f
partial_fixpoint

end

/-- Binds a live function under a name, or under its own name if none is given. -/
def mapFunction (u : Unbounded β σ) (start : String) (f : Value) (key : Option String) :
    Walk β σ Unit := do
  match (← Walk.of Mapping.heap).callable? f with
  | none => return
  | some c => u.mapNamed (start ++ key.getD c.name) f

/-- Binds the functions that an object shows, and those of the objects it shows. It is `depth`
objects away from the exports. -/
def mapObject (u : Unbounded β σ) (depth : Nat) (start : String) (id : Nat) : Walk β σ Unit := do
  if u.settings.maxDepth ≤ depth then return
  ((← Walk.of Mapping.heap).entries id).forM fun p => do
    if (← Walk.of Mapping.heap).isCallable p.2 then u.mapFunction start p.2 (some p.1)
    else
      match p.2 with
      | .object nested => u |>.mapObject (depth + 1) (start ++ p.1 ++ ".") nested
      | _ => return
partial_fixpoint

/-- The default export of a module that is no function. -/
def defaultExport (h : Heap β) (exports : Value) : Option (Option Value) :=
  match exports with
  | .object id =>
    if !h.isCallable exports && h.hasOwn id "default" then
      (get h exports "default").map some
    else some none
  | _ => some none

/-- Binds a module that is a function, or whose default export is one, under its own name; then what
the exports show. -/
def mapExports (u : Unbounded β σ) (exports : Value) : Walk β σ Unit := do
  let h ← Walk.of Mapping.heap
  let main := (← (defaultExport h exports : Option (Option Value))).getD exports
  if h.isCallable main then u.mapFunction "" main none
  match main with
  | .object id => u.mapObject 0 "" id
  | _ => return

/-- Reflects on the exports of a module, starting from a schema. -/
def reflect (lib : Library β σ) (s : Settings) (given : Schema) (exports : Value) :
    ExceptT Clash (StateT (World β σ) Option) Loaded := do
  let walk : Walk β σ Unit := do
    Walk.of (mapHost s)
    (⟨lib, s⟩ : Unbounded β σ).mapExports exports
  let (_, b) ← walk { schema := given }
  return b.finish

/-! ## Steps that come to an end -/

/-- The world is read. -/
theorem Try.bind_world (t : World β σ → Try β σ α) (w : World β σ) :
    (getThe (World β σ) >>= t) w = t w w :=
  rfl

/-- A search that comes to an end is over. -/
theorem Try.bind_lift {o : Option α} {a : α} (ho : o = some a) (t : α → Try β σ γ) :
    ((liftM o : Try β σ α) >>= t) = t a := by
  rw [ho]
  rfl

theorem Walk.bind_lift {o : Option α} {a : α} (ho : o = some a) (t : α → Walk β σ γ) :
    ((liftM o : Walk β σ α) >>= t) = t a := by
  rw [ho]
  rfl

/-- What follows a step that comes to an end goes on where that ends. -/
theorem Walk.bind_eq {t : Walk β σ α} {m : Mapping β σ α} {b : Binding} {w : World β σ}
    (ht : t b w = some (m b w)) (t' : α → Walk β σ γ) :
    (t >>= t') b w = match m b w with
      | (.ok (a, b'), w') => t' a b' w'
      | (.error c, w') => some (.error c, w') := by
  show (t b w).bind _ = _
  rw [ht]
  rcases m b w with ⟨c | ⟨a, b'⟩, w'⟩ <;> rfl

/-! ## Where prototypes come to an end -/

theorem seek_eq_along {h : Heap β} {id : Nat} {line : List Nat} (hl : h.Line id line)
    (key : String) : h.seek key id = some (h.along line key) := by
  induction hl with
  | last ends =>
      rw [Heap.seek, Heap.along, List.findSome?_cons]
      cases h.own? _ key with
      | some p => rfl
      | none =>
          rw [ends]
          rfl
  | next step rest ih =>
      rw [Heap.seek, Heap.along, List.findSome?_cons]
      cases h.own? _ key with
      | some p => rfl
      | none =>
          rw [step]
          exact ih

/-- **Following prototypes comes to an end just where there is a line.** -/
theorem line_eq_some_iff {h : Heap β} {id : Nat} {l : List Nat} :
    h.line id = some l ↔ h.Line id l := by
  constructor
  · refine Heap.line.partial_correctness h h.Line (fun follow ih id l hl => ?_) id l
    split at hl
    next p hp =>
      obtain ⟨l', hrest, hl⟩ := Option.bind_eq_some_iff.mp hl
      cases hl
      exact .next hp (ih p l' hrest)
    next hp =>
      cases hl
      exact .last hp
  · intro hl
    induction hl with
    | last ends => rw [Heap.line, ends]
    | next step rest ih =>
        rw [Heap.line, step]
        simp only [ih]
        rfl

section Grounded

variable {h : Heap (Code β)} (hh : h.Grounded)

include hh

theorem get_eq (v : Value) (key : String) : get h v key = some (h.get v key) := by
  cases v with
  | object id =>
      obtain ⟨line, hl⟩ := hh id
      rw [get, seek_eq_along hl, hl.get_eq]
  | _ => rfl

theorem instanceMethods_eq (f : Value) :
    instanceMethods h f = some (Reflect.instanceMethods h f) := by
  rw [instanceMethods, get_eq hh, Reflect.instanceMethods, instanceChain]
  cases h.get f Building.prototypeKey with
  | object p =>
      obtain ⟨l, hl⟩ := hh p
      simp [line_eq_some_iff.mpr hl, hl.chain_eq]
  | _ => rfl

theorem hasMethods_eq (f : Value) : hasMethods h f = some (Reflect.hasMethods h f) := by
  rw [hasMethods, get_eq hh, Reflect.hasMethods]
  cases h.get f Building.prototypeKey <;> rfl

theorem defaultExport_eq (exports : Value) :
    defaultExport h exports = some (defaultExport? h exports) := by
  cases exports with
  | object id =>
      rw [defaultExport, defaultExport?, get_eq hh]
      split <;> rfl
  | _ => rfl

end Grounded

theorem instantiate_eq (lib : Library β σ) (f : Value) (c : Callable (Code β)) {w : World β σ}
    (hw : w.heap.Grounded) : instantiate lib f c w = some (Live.instantiate lib f c [] w) := by
  rw [instantiate, Try.bind_world, Try.bind_lift (get_eq hw f _)]
  rfl

/-- **An object is constructed in the same way** where prototypes come to an end. -/
theorem construct_eq (lib : Library β σ) (f : Value) {w : World β σ} (hw : w.heap.Grounded) :
    construct lib f w = some (Live.construct lib f [] w) := by
  rw [construct, Try.bind_world, Live.construct, Run.action_bind_eq]
  dsimp only [Action.heap]
  cases w.heap.callable? f with
  | none => rfl
  | some c =>
      dsimp only
      cases c.flavor with
      | arrow => rfl
      | ordinary => exact instantiate_eq lib f c hw
      | ofClass => exact instantiate_eq lib f c hw
      | builtin => exact instantiate_eq lib f c hw

end Reflect.Unbounded

end ApiSurface
