/-
# `ApiSurface.Proofs.Declaration.Sessions` — conversions that work on a state

A conversion is given the declarations that are being expanded around it and returns the classes it
refers to.  The same work can be done on a state that is passed along: a declaration is marked
before what it stands for is converted and the mark is taken away afterwards, a reference to a class
goes straight to the list of those that are pending, and any step could stop with an error.  A mark
that is left behind would show in every later conversion that comes to the same declaration.

These are those conversions, function by function as they are without a state.  A mark is set, steps
that may stop early come in between, and only `thenUnmark` takes the mark away again: it does so
however its step ends, but not if a step before it stops.
-/
import ApiSurface.Declaration.Derivation
import Mathlib.Data.Finset.Basic

namespace ApiSurface.Declaration

/-- What is done with the classes that conversions refer to: while classes get their names nothing,
while entries are added they are noted. -/
inductive Pass where
  | naming
  | emitting
  deriving DecidableEq

/-- What conversions find and leave: what has been derived so far, the scopes and the names of the
classes, and the declarations that are marked as being expanded. -/
structure Session extends Deriver where
  world : World
  pass : Pass
  active : Finset DeclKey

namespace Session

/-- A step on a session that ends with a result or an error, or has no answer because a bound is
reached. -/
abbrev Working (α : Type) := ExceptT DeriveError (StateT Session Option) α

/-- The conversion of types. -/
abbrev Worker := Env → TypeExpr → Working Guess

/-- The scopes and the names of the classes. -/
def getWorld : Working World := fun s => some (.ok s.world, s)

/-- No answer: the bound is reached. -/
def outOfDepth {α : Type} : Working α := fun _ => none

/-- Marks a declaration as being expanded and says whether that is new. -/
def mark (key : DeclKey) : Working Bool := fun s =>
  some (.ok (decide (key ∉ s.active)), { s with active := insert key s.active })

/-- Takes the mark of a declaration away. -/
def unmark (key : DeclKey) (s : Session) : Session :=
  { s with active := s.active.erase key }

/-- A step after which a declaration is no longer marked, whether or not the step fails. -/
def thenUnmark {α : Type} (key : DeclKey) (x : Working α) : Working α := fun s =>
  (x s).map fun r => (r.1, r.2.unmark key)

/-- Refers to a class, which is pending if it has no entries yet. -/
def refer (c : ClassRef) : Working Unit := fun s =>
  some (.ok (), if s.pass = .emitting ∧ s.world.className c ∉ s.emitted then
    { s with pending := c :: s.pending } else s)

/-! ## Type parameters -/

/-- The guesses for type parameters. -/
def bindParams (conv : Worker) (caller : Env) (declScope : Nat) :
    List TypeParam → List TypeExpr → Working (List (String × Guess))
  | [], _ => pure []
  | p :: ps, args => do
    let g ← match args.head?, p.bound with
      | some arg, _ => conv caller arg
      | none, some bound => conv { scope := declScope } bound
      | none, none => pure .any
    let rest ← bindParams conv caller declScope ps args.tail
    return (p.name, g) :: rest

/-- The place inside a declaration with type parameters, for the given arguments. -/
def envInside (conv : Worker) (caller : Env) (scope : Nat) (params : List TypeParam)
    (args : List TypeExpr) : Working Env := do
  let bindings ← bindParams conv caller scope params args
  return { scope := scope, bindings := Table.ofList bindings }

/-! ## Unions -/

mutual

/-- The members of a union, those of unions among them included. -/
def flattenWith (expand : List String → List TypeExpr → Working (Option (List PlacedType)))
    (env : Env) : TypeExpr → Working (List PlacedType)
  | .union members => flattenAll expand env members
  | .ref name args => do
    match ← expand name args with
    | some members => return members
    | none => return [(.ref name args, env)]
  | ty => pure [(ty, env)]

/-- The members of all the types. -/
def flattenAll (expand : List String → List TypeExpr → Working (Option (List PlacedType)))
    (env : Env) : List TypeExpr → Working (List PlacedType)
  | [] => pure []
  | ty :: tys => do
    let first ← flattenWith expand env ty
    let rest ← flattenAll expand env tys
    return first ++ rest

end

/-- The members of a union, where names for unions are followed at most `depth` times in a row. -/
def flatten (conv : Worker) : Nat → Env → TypeExpr → Working (List PlacedType)
  | 0, env, ty => flattenWith (fun _ _ => pure none) env ty
  | depth + 1, env, ty =>
    flattenWith (fun name args => do
      if isBound name env then return none
      let w ← getWorld
      match w.scopes.typeNamed? env.scope name with
      | some (.ofAlias scope decl) =>
        match decl.type with
        | .union members =>
          let inner ← envInside conv env scope decl.typeParams args
          return some (← flatten conv depth inner (.union members))
        | _ => return none
      | _ => return none) env ty

/-- The guesses for the other members of a union, in order. -/
def convertOthers (w : World) (conv : Worker) : List PlacedType → Working (List Guess)
  | [] => pure []
  | (ty, env) :: r => do
    if isNever ty || (w.primitiveKind? env ty).isSome then convertOthers w conv r
    else
      let g ← conv env ty
      let gs ← convertOthers w conv r
      return g :: gs

/-- The guess for a union. -/
def convertUnion (conv : Worker) (env : Env) (ty : TypeExpr) (orUndefined : Bool) :
    Working Guess := do
  let members ← flatten conv maxAliasDepth env ty
  let w ← getWorld
  let kinds := primitiveKinds w members ++ if orUndefined then [.undefined] else []
  let others ← convertOthers w conv members
  return merged (pooled kinds ++ others)

/-! ## Members -/

mutual

/-- The members of all declarations of an interface and of the interfaces that it extends, with the
visited interfaces. -/
def interfaceMembers (conv : Worker) (fuel : Nat) (scope : Nat) (decls : List InterfaceDecl)
    (args : List TypeExpr) (caller : Env) (visited : List DeclKey) :
    Working (List PlacedMember × List DeclKey) :=
  match fuel with
  | 0 => outOfDepth
  | fuel + 1 => do
    let params := (decls.head?.map InterfaceDecl.typeParams).getD []
    let env ← envInside conv caller scope params args
    let w ← getWorld
    let own := decls.flatMap fun d => placed d.members env
    let parents := decls.flatMap fun d => parentInterfaces w scope d.parents
    let (inherited, visited) ← parentMembers conv fuel env visited parents
    return (own ++ inherited, visited)

/-- The members of the interfaces in the list that are not visited yet. -/
def parentMembers (conv : Worker) (fuel : Nat) (env : Env) (visited : List DeclKey)
    (parents : List (Nat × List InterfaceDecl × List TypeExpr)) :
    Working (List PlacedMember × List DeclKey) :=
  match parents with
  | [] => pure ([], visited)
  | (scope, decls, args) :: rest => do
    let key := interfaceKey scope decls
    if visited.contains key then parentMembers conv fuel env visited rest
    else
      let (first, visited) ← interfaceMembers conv fuel scope decls args env (key :: visited)
      let (others, visited) ← parentMembers conv fuel env visited rest
      return (first ++ others, visited)

end

/-- The members of an interface with the given arguments. -/
def membersOfInterface (conv : Worker) (env : Env) (scope : Nat) (decls : List InterfaceDecl)
    (args : List TypeExpr) : Working (List PlacedMember) := do
  let key := interfaceKey scope decls
  let w ← getWorld
  return (← interfaceMembers conv (w.interfaceCount + 1) scope decls args env [key]).1

/-- The members of an object type or an interface, also under another name. -/
def membersOfType (conv : Worker) : Nat → Env → TypeExpr → Working (Option (List PlacedMember))
  | 0, _, _ => outOfDepth
  | fuel + 1, env, ty =>
    match ty with
    | .object members => pure (some (placed members env))
    | .ref name args => do
      let w ← getWorld
      match w.scopes.typeNamed? env.scope name with
      | some (.ofInterface scope decls) =>
        return some (← membersOfInterface conv env scope decls args)
      | some (.ofAlias scope decl) =>
        let key := (scope, decl.name)
        if !(← mark key) then return none
        let inner ← envInside conv env scope decl.typeParams args
        thenUnmark key (membersOfType conv fuel inner decl.type)
      | _ => return none
    | _ => pure none

/-- Adds the visible members to a shape. -/
def shapeOfMembers (conv : Worker) :
    List (String × Guess) → List PlacedMember → Working (List (String × Guess))
  | shape, [] => pure shape
  | shape, (.property name optional type modifiers, env) :: r => do
    if !modifiers.onInstance || Table.has shape name then shapeOfMembers conv shape r
    else
      let g ← match type with
        | none => pure .any
        | some ty => if optional then convertUnion conv env ty true else conv env ty
      shapeOfMembers conv (Table.insert shape name g) r
  | shape, (.method name _ _ modifiers, _) :: r =>
    if !modifiers.onInstance || Table.has shape name then shapeOfMembers conv shape r
    else shapeOfMembers conv (Table.insert shape name .undefined) r
  | shape, _ :: r => shapeOfMembers conv shape r

/-- The guess for an object with the given members. -/
def objectOfMembers (conv : Worker) (members : List PlacedMember) : Working Guess := do
  let shape ← shapeOfMembers conv [] members
  if members.any (fun m => m.1.isCallable) && shape.isEmpty then return .undefined
  else if maxProperties < shape.length then return .any
  else return .object shape

/-! ## Names -/

/-- A reference to a class. -/
def convertClass (c : ClassRef) : Working Guess := do
  refer c
  return .ofClass ((← getWorld).className c)

/-- The guess for an interface, which is marked meanwhile. -/
def convertInterface (conv : Worker) (env : Env) (scope : Nat) (decls : List InterfaceDecl)
    (args : List TypeExpr) : Working Guess := do
  let key := interfaceKey scope decls
  if !(← mark key) then return .object []
  thenUnmark key do
    let members ← membersOfInterface conv env scope decls args
    objectOfMembers conv members

/-- The guess for a name that stands for a type, which is marked meanwhile. -/
def convertAlias (conv : Worker) (env : Env) (scope : Nat) (decl : AliasDecl)
    (args : List TypeExpr) : Working Guess := do
  let key := (scope, decl.name)
  if !(← mark key) then return .any
  let inner ← envInside conv env scope decl.typeParams args
  thenUnmark key (conv inner decl.type)

/-- The class that a value of the given name is, as the type of its instances. -/
def instanceType (env : Env) (path : List String) : Working Guess := do
  let w ← getWorld
  match (w.scopes.valueNamed? env.scope path).bind fun v => v.ofClass.map (v.scope, ·) with
  | some (scope, decl) => convertClass ⟨scope, decl⟩
  | none =>
    match path with
    | [single] => return if Standard.isClass single then .ofClass single else .any
    | _ => return .any

/-- The guess for the first type argument, if there is one. -/
def firstArg (conv : Worker) (env : Env) (args : List TypeExpr) : Working Guess :=
  match args with
  | arg :: _ => conv env arg
  | [] => pure .any

/-- The guess for a name that the text does not declare. -/
def convertGlobal (conv : Worker) (env : Env) (name : List String) (args : List TypeExpr) :
    Working Guess :=
  let joined := ".".intercalate name
  match joined with
  | "Promise" | "PromiseLike" | "Awaited" | "Readonly" | "Required" | "Partial" | "NonNullable" =>
    firstArg conv env args
  | "Array" | "ReadonlyArray" | "ArrayLike" | "Iterable" => do
    return .array (← firstArg conv env args)
  | "Record" | "Object" => pure (.object [])
  | "Function" | "CallableFunction" | "NewableFunction" => pure .undefined
  | "String" => pure .string
  | "Number" => pure .number
  | "Boolean" => pure .boolean
  | "InstanceType" =>
    match args with
    | .query path :: _ => instanceType env path
    | _ => pure .any
  | _ => pure (if Standard.isClass joined then .ofClass joined else .any)

/-- The guess for a name with type arguments. -/
def convertRef (conv : Worker) (env : Env) (name : List String) (args : List TypeExpr) :
    Working Guess :=
  match binding? name env with
  | some g => pure g
  | none => do
    let w ← getWorld
    match w.scopes.typeNamed? env.scope name with
    | some (.ofClass scope decl) => convertClass ⟨scope, decl⟩
    | some (.ofInterface scope decls) => convertInterface conv env scope decls args
    | some (.ofAlias scope decl) => convertAlias conv env scope decl args
    | some (.ofEnum decl) => return enumGuess decl
    | some (.enumMember value) => return .ofKind value.kind
    | none => convertGlobal conv env name args

/-- The guess for the type of a value; a variable is marked meanwhile. -/
def convertQuery (conv : Worker) (env : Env) (path : List String) : Working Guess := do
  let w ← getWorld
  match w.scopes.valueNamed? env.scope path with
  | none => return .any
  | some v =>
    if v.ofClass.isSome || !v.functions.isEmpty then return .undefined
    else
      match v.variableType, path.getLast? with
      | some (some ty), some last =>
        let key := (v.scope, last)
        if !(← mark key) then return .any
        thenUnmark key (conv { scope := v.scope } ty)
      | _, _ => return .any

/-- The guess for an item of a tuple. -/
def convertItem (conv : Worker) (env : Env) : TupleItem → Working Guess
  | .mk ty _ rest =>
    if rest then
      match itemType? ty with
      | some item => conv env item
      | none => pure .any
    else conv env ty

/-! ## Types -/

/-- The guess for a type, with `conv` for the types nested in it and those that it leads to. -/
def convertWith (conv : Worker) : Worker := fun env ty =>
  match ty with
  | .keyword k => pure (keywordGuess env k)
  | .textLiteral _ | .template | .keyof _ => pure .string
  | .numberLiteral _ => pure .number
  | .boolLiteral _ | .predicate => pure .boolean
  | .ref name args => convertRef conv env name args
  | .array item => do return .array (← conv env item)
  | .tuple items => do return .array (Guess.union (← items.mapM (convertItem conv env)))
  | .union members => convertUnion conv env (.union members) false
  | .intersection parts => do return Guess.intersect (← parts.mapM (conv env))
  | .function _ => pure .undefined
  | .object members => objectOfMembers conv (placed members env)
  | .query path => convertQuery conv env path
  | .computed => pure .any

/-- The guess for a type, at most `depth` steps deep. -/
def convertTo : Nat → Worker
  | 0 => fun _ _ => outOfDepth
  | depth + 1 => convertWith (convertTo depth)

end Session

end ApiSurface.Declaration
