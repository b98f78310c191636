import ApiSurface.Declaration.Depth
import ApiSurface.Declaration.StatementReader
import ApiSurface.Declaration.Surface
import ApiSurface.Text.Split

/-!
Derivation of a schema from declarations. The surface is found first, which gives the classes their
names; then the entries of its items are added one after the other, and last those of classes that
are referred to but not exported. A class brings the entries of its parent with it.
-/

namespace ApiSurface.Declaration

/-- What has been derived so far. -/
structure Deriver where
  schema : Schema
  /-- The names of the classes whose entries are there or on the way. -/
  emitted : List String
  /-- Classes that are referred to, the latest first. -/
  pending : List ClassRef

/-- A computation that derives entries; it has no answer when a bound is reached. -/
abbrev Derive (α : Type) := StateT Deriver Option α

namespace Derive

/-- Makes a conversion and notes the classes it refers to that have no entries yet. -/
def converted {α : Type} (w : World) (c : Conversion α) : Derive α := fun d =>
  match c with
  | none => none
  | some (a, refs) =>
    let new := refs.filter fun r => !d.emitted.contains (w.className r)
    some (a, { d with pending := new.reverse ++ d.pending })

/-- Adds an entry. -/
def insert (name : String) (e : Entry) : Derive Unit := fun d =>
  some ((), { d with schema := d.schema.insert name e })

/-- The schema so far. -/
def schema : Derive Schema := fun d => some (d.schema, d)

end Derive

/-! ## Signatures -/

/-- The guess for a parameter; the rest of the parameters counts as one of them. -/
def paramGuess (w : World) (conv : Converter) (env : Env) : Param → Conversion Guess
  | .mk _ none _ _ => pure .any
  | .mk _ (some ty) optional rest =>
    if rest then
      match itemType? ty with
      | some item => conv [] env item
      | none => pure .any
    else if optional then convertUnion w conv [] env ty true
    else conv [] env ty

/-- Binds the type parameters of a signature to the guesses for their bounds. -/
def bindBounds (conv : Converter) : Env → List TypeParam → Conversion Env
  | env, [] => pure env
  | env, p :: ps => do
    let g ← match p.bound with
      | some bound => conv [] env bound
      | none => pure .any
    bindBounds conv { env with bindings := Table.insert env.bindings p.name g } ps

/-- The guesses for the arguments and the result of one signature. -/
def convertSig (w : World) (conv : Converter) (ret? : Option Guess) (s : PlacedSig) :
    Conversion (List Guess × Guess) := do
  let env ← bindBounds conv s.2 s.1.typeParams
  let args ← s.1.params.mapM (paramGuess w conv env)
  let ret ← match ret?, s.1.ret with
    | some ret, _ => pure ret
    | none, some ty => conv [] env ty
    | none, none => pure .any
  return (args, ret)

/-- The guesses at one position of several argument lists; where a list is shorter it is undefined.
-/
def guessesAt (i : Nat) (lists : List (List Guess)) : List Guess :=
  lists.map fun args => args.getD i .undefined

/-- Several signatures as one. -/
def combined : List (List Guess × Guess) → List Guess × Guess
  | [one] => one
  | sigs =>
    let lists := sigs.map Prod.fst
    let arity := (lists.map List.length).foldl max 0
    ((List.range arity).map fun i => Guess.union (guessesAt i lists),
      Guess.union (sigs.map Prod.snd))

/-- The entry for the signatures of one name. A receiver comes before the arguments. -/
def entryOf (w : World) (conv : Converter) (sigs : List PlacedSig) (receiver : Option Guess)
    (convention : Convention) (ret? : Option Guess) : Conversion Entry := do
  let (args, ret) := combined (← sigs.mapM (convertSig w conv ret?))
  return { args := receiver.toList ++ args, ret := ret, convention := convention }

/-! ## Members -/

/-- Adds a signature to those of its name. -/
def addToGroup (groups : List (String × List PlacedSig)) (name : String) (s : PlacedSig) :
    List (String × List PlacedSig) :=
  match groups with
  | [] => [(name, [s])]
  | (n, sigs) :: r => if n == name then (n, sigs ++ [s]) :: r else (n, sigs) :: addToGroup r name s

/-- The name and signature of a member that can be called and is seen from outside: a method, or a
property that is a function. -/
def methodSig? (statics : Bool) : Member → Option (String × FnSig)
  | .method name _ sig m => if m.isStatic == statics && !m.hidden then some (name, sig) else none
  | .property name _ (some (.function sig)) m =>
    if m.isStatic == statics && !m.hidden then some (name, sig) else none
  | _ => none

/-- The members that can be called, grouped by name in the order of declaration. -/
def methodGroups (members : List PlacedMember) (statics : Bool) : List (String × List PlacedSig) :=
  members.foldl (fun groups m =>
    match methodSig? statics m.1 with
    | some (name, sig) => addToGroup groups name (sig, m.2)
    | none => groups) []

/-- The signatures of the constructor. -/
def constructorSigs (members : List PlacedMember) : List PlacedSig :=
  members.filterMap fun m =>
    match m.1 with
    | .constructor sig => some (sig, m.2)
    | _ => none

/-- The signatures of what can itself be called. -/
def callSigs (members : List PlacedMember) : List PlacedSig :=
  members.filterMap fun m =>
    match m.1 with
    | .call sig => some (sig, m.2)
    | _ => none

/-! ## Classes -/

/-- The class that a class extends. -/
def parentClass? (w : World) (c : ClassRef) : Option ClassRef :=
  match c.decl.parent with
  | some (.ref path _) =>
    match w.scopes.typeNamed? c.scope path with
    | some (.ofClass scope decl) => some ⟨scope, decl⟩
    | _ => none
  | _ => none

/-- The place of the members of a class. -/
def classEnv (w : World) (conv : Converter) (c : ClassRef) : Conversion Env := do
  let env ← envInside conv [] { scope := c.scope } c.scope c.decl.typeParams []
  return { env with thisClass := some (w.className c) }

/-- The arguments of the constructor of a class, if it has one. -/
def constructorArgs (s : Schema) (name : String) : List Guess :=
  match s.find? name with
  | some e => if e.convention == .constructor then e.args else []
  | none => []

/-- The entry of the constructor of a class. A class without one constructs like its parent. -/
def constructorEntry (w : World) (conv : Converter) (receiver : Guess) (parent : Option String)
    (sigs : List PlacedSig) : Derive Entry := do
  if sigs.isEmpty then
    let s ← Derive.schema
    let args := (parent.map (constructorArgs s)).getD []
    return { args := args, ret := receiver, convention := .constructor }
  else Derive.converted w (entryOf w conv sigs none .constructor (some receiver))

/-- Adds to the methods of a class those of an interface that it implements and does not define. -/
def addImplemented (defined : List String) (methods : List (String × List PlacedSig))
    (groups : List (String × List PlacedSig)) : List (String × List PlacedSig) :=
  methods ++ groups.filter fun g => !defined.contains g.1

/-- The methods of a class with those of the interfaces that it implements. -/
def instanceMethods (w : World) (conv : Converter) (env : Env) :
    List (String × List PlacedSig) → List TypeExpr → Conversion (List (String × List PlacedSig))
  | methods, [] => pure methods
  | methods, ty :: tys => do
    match ← membersOf w conv env ty with
    | none => instanceMethods w conv env methods tys
    | some members =>
      let groups := methodGroups members false
      instanceMethods w conv env (addImplemented (methods.map Prod.fst) methods groups) tys

/-- Adds the entries of methods. Members that every object has are passed over. -/
def emitMethods (w : World) (conv : Converter) (name : String) (receiver : Guess) :
    List (String × List PlacedSig) → Derive Unit
  | [] => pure ()
  | (member, sigs) :: r => do
    if !Standard.isMember member then
      let e ← Derive.converted w (entryOf w conv sigs (some receiver) .method none)
      Derive.insert (name ++ "." ++ member) e
    emitMethods w conv name receiver r

/-- Adds the entries of functions under the class or variable that they are members of. -/
def emitFunctions (w : World) (conv : Converter) (memberPrefix : String) :
    List (String × List PlacedSig) → Derive Unit
  | [] => pure ()
  | (member, sigs) :: r => do
    let e ← Derive.converted w (entryOf w conv sigs none .free none)
    Derive.insert (memberPrefix ++ member) e
    emitFunctions w conv memberPrefix r

/-- The name of a member directly under an owner. -/
def memberUnder? (owner entry : String) : Option String :=
  (Text.after? entry (owner ++ ".")).bind fun member =>
    if member.toList.contains '.' then none else some member

/-- The methods of a parent that a class does not define. -/
def inheritedMethods (s : Schema) (parent : String) (defined : List String) :
    List (String × Entry) :=
  s.entries.filterMap fun p =>
    if p.2.convention == .method then
      match memberUnder? parent p.1 with
      | some member => if defined.contains member then none else some (member, p.2)
      | none => none
    else none

/-- An entry with another receiver. -/
def withReceiver (receiver : Guess) (e : Entry) : Entry :=
  match e.args with
  | [] => e
  | _ :: args => { e with args := receiver :: args }

/-- Adds a method of the parent to a class, unless the class has a method of that name by now. -/
def inherit (name : String) (receiver : Guess) (s : Schema) (m : String × Entry) : Schema :=
  let entry := name ++ "." ++ m.1
  match s.find? entry with
  | some e => if e.convention == .method then s else s.insert entry (withReceiver receiver m.2)
  | none => s.insert entry (withReceiver receiver m.2)

/-- Adds the methods of the parent to a class. -/
def emitInherited (name : String) (receiver : Guess) (defined : List String) (parent : String) :
    Derive Unit := fun d =>
  let methods := inheritedMethods d.schema parent defined
  some ((), { d with schema := methods.foldl (inherit name receiver) d.schema })

/-- Adds the entries of the members of a class. -/
def emitMembers (w : World) (conv : Converter) (c : ClassRef) (parent : Option String) :
    Derive Unit := do
  let name := w.className c
  let receiver := Guess.ofClass name
  let env ← Derive.converted w (classEnv w conv c)
  let members := placed c.decl.members env
  let constructor ← constructorEntry w conv receiver parent (constructorSigs members)
  Derive.insert name constructor
  let own := methodGroups members false
  let methods ← Derive.converted w (instanceMethods w conv env own c.decl.interfaces)
  let defined := methods.map Prod.fst
  emitMethods w conv name receiver methods
  let statics := (methodGroups members true).filter fun g =>
    g.1 != "prototype" && !defined.contains g.1
  emitFunctions w conv (name ++ ".") statics
  match parent with
  | some p => emitInherited name receiver defined p
  | none => pure ()

/-- Notes that the entries of a class are on the way, and says whether that is new. -/
def claim (name : String) : Derive Bool := fun d =>
  if d.emitted.contains name then some (false, d)
  else some (true, { d with emitted := name :: d.emitted })

/-- Adds the entries of a class, those of its parent first. -/
def emitClass (w : World) (conv : Converter) : Nat → ClassRef → Derive Unit
  | 0, _ => fun _ => none
  | fuel + 1, c => do
    if ← claim (w.className c) then
      match parentClass? w c with
      | some p =>
        emitClass w conv fuel p
        emitMembers w conv c (some (w.className p))
      | none => emitMembers w conv c none

/-! ## Items -/

/-- Adds the entry of a function. -/
def emitFunction (w : World) (conv : Converter) (scope : Nat) (sigs : List FnSig) (name : String) :
    Derive Unit := do
  let placedSigs := sigs.map fun s => (s, { scope := scope : Env })
  let e ← Derive.converted w (entryOf w conv placedSigs none .free none)
  Derive.insert name e

/-- Adds the entries of a variable that can be called or has members that can. -/
def emitVariable (w : World) (conv : Converter) (scope : Nat) (type : TypeExpr)
    (name memberPrefix : String) : Derive Unit := do
  match type with
  | .function sig => emitFunction w conv scope [sig] name
  | .query path =>
    match w.scopes.valueNamed? scope path with
    | some v =>
      if v.ofClass.isNone && !v.functions.isEmpty then emitFunction w conv v.scope v.functions name
    | none => pure ()
  | type =>
    match ← Derive.converted w (membersOf w conv { scope := scope } type) with
    | none => pure ()
    | some members =>
      emitFunctions w conv memberPrefix (methodGroups members false)
      let calls := callSigs members
      if !calls.isEmpty then
        let e ← Derive.converted w (entryOf w conv calls none .free none)
        Derive.insert name e

/-- How many classes the scopes hold. -/
def World.classCount (w : World) : Nat :=
  w.scopes.count fun s => s.classes.length

/-- Adds the entries of an item of the surface. -/
def emitItem (w : World) (conv : Converter) : SurfaceItem → Derive Unit
  | .ofClass scope decl _ => emitClass w conv (w.classCount + 1) ⟨scope, decl⟩
  | .ofFunction scope sigs name => emitFunction w conv scope sigs name
  | .ofVariable scope type name memberPrefix => emitVariable w conv scope type name memberPrefix

/-- Adds the entries of items one after the other. -/
def emitItems (w : World) (conv : Converter) : List SurfaceItem → Derive Unit
  | [] => pure ()
  | item :: r => do
    emitItem w conv item
    emitItems w conv r

/-- Takes the latest class off the list that is referred to and has no entries yet. -/
def nextPending (w : World) : Derive (Option ClassRef) := fun d =>
  match d.pending.dropWhile fun c => d.emitted.contains (w.className c) with
  | [] => some (none, { d with pending := [] })
  | c :: r => some (some c, { d with pending := r })

/-- Adds the entries of the classes that are referred to, until none is left. -/
def emitPending (w : World) (conv : Converter) : Nat → Derive Unit
  | 0 => fun _ => none
  | fuel + 1 => do
    match ← nextPending w with
    | none => pure ()
    | some c =>
      emitClass w conv (w.classCount + 1) c
      emitPending w conv fuel

/-! ## Texts -/

/-- Why no schema is derived. -/
inductive DeriveError where
  | syntactic (e : SyntaxError)
  | surface (e : SurfaceError)
  /-- The conversion of a type leads back to itself. -/
  | unfinished

/-- The wording of an error. -/
def DeriveError.message : DeriveError → String
  | syntactic e => e.message
  | surface (.noSuchDeclaration path) =>
    "export = " ++ ".".intercalate path ++ ": no such declaration"
  | surface .endless => "exports without end"
  | unfinished => "declarations without end"

/-- Adds the entries of a surface and of the classes that these refer to. -/
def emitAll (w : World) (conv : Converter) (items : List SurfaceItem) : Derive Unit := do
  emitItems w conv items
  emitPending w conv (w.classCount + 1)

/-- Derives the schema of statements. -/
def deriveStatements (ss : List Statement) : Except DeriveError Schema :=
  let scopes := Scopes.ofStatements ss
  match surface scopes (scopes.all.length + 1) with
  | .error e => .error (.surface e)
  | .ok items =>
    let w : World := { scopes := scopes, classNames := classNames items }
    match emitAll w (convertFully w) items ⟨.empty, [], []⟩ with
    | none => .error .unfinished
    | some (_, d) => .ok d.schema.seeded

/-- Derives the schema of a declaration text. -/
def derive (text : String) : Except DeriveError Schema :=
  match parse text with
  | .error e => .error (.syntactic e)
  | .ok ss => deriveStatements ss

end ApiSurface.Declaration
