import ApiSurface.Declaration.Scope
import ApiSurface.Schema.Standard

/-!
Conversion of declared types to guesses.

A conversion returns a guess together with the classes that it refers to, in the order of reference.
It reads the scopes, the names of the classes, and the set of declarations that are being expanded
around it; it changes nothing. Declared types may refer to one another without end, so a conversion
has a bound on its depth and gives no answer when the bound is reached.
-/

namespace ApiSurface.Declaration

/-- A class by its scope and its declaration. -/
structure ClassRef where
  scope : Nat
  decl : ClassDecl

/-- What identifies a declaration: its scope and its name. -/
abbrev DeclKey := Nat × String

/-- A value and the classes referred to on the way to it, or nothing when the bound is reached. -/
def Conversion (α : Type) : Type :=
  Option (α × List ClassRef)

namespace Conversion

instance : Monad Conversion where
  pure a := some (a, [])
  bind x f :=
    match x with
    | none => none
    | some (a, refs) =>
      match f a with
      | none => none
      | some (b, more) => some (b, refs ++ more)

/-- No answer: the bound is reached. -/
def outOfDepth {α : Type} : Conversion α := none

/-- Refers to a class. -/
def refer (c : ClassRef) : Conversion Unit := some ((), [c])

end Conversion

/-- Where a type stands: its scope, the guesses for the type parameters around it, and the class
that `this` means. -/
structure Env where
  scope : Nat
  bindings : List (String × Guess) := []
  thisClass : Option String := none

/-- What every conversion reads. -/
structure World where
  scopes : Scopes
  classNames : List (DeclKey × String)

namespace World

/-- The name that the entries of a class are under; a class without an exported name has its own. -/
def className (w : World) (c : ClassRef) : String :=
  match w.classNames.find? fun p => p.1 == (c.scope, c.decl.name) with
  | some p => p.2
  | none => c.decl.name

end World

/-- The conversion of types, given the declarations being expanded and the place of the type. -/
abbrev Converter := List DeclKey → Env → TypeExpr → Conversion Guess

/-- A member and the place that its types are read at. -/
abbrev PlacedMember := Member × Env

/-- A signature and the place that its types are read at. -/
abbrev PlacedSig := FnSig × Env

/-- A type and the place that it is read at. -/
abbrev PlacedType := TypeExpr × Env

/-- How many names for unions are followed while the members of a union are gathered. -/
def maxAliasDepth : Nat := 8

/-- Object types with more properties than this are taken as unknown. -/
def maxProperties : Nat := 32

/-! ## Small facts about types -/

/-- Whether a name is one of a type parameter. -/
def isBound (name : List String) (env : Env) : Bool :=
  match name with
  | [single] => Table.has env.bindings single
  | _ => false

/-- The kind of the members of an enumeration. -/
def EnumValue.kind : EnumValue → Kind
  | number => .number
  | string => .string

/-- The type of the items of an array type. -/
def itemType? : TypeExpr → Option TypeExpr
  | .array item => some item
  | .ref [n] (arg :: _) => if n == "Array" || n == "ReadonlyArray" then some arg else none
  | _ => none

/-- The guesses for kinds without parts, each kind once, in the order of the kinds. -/
def pooled (kinds : List Kind) : List Guess :=
  (Kind.all.filter kinds.contains).map Guess.ofKind

/-- The only guess, or the union of several. -/
def merged : List Guess → Guess
  | [g] => g
  | gs => Guess.union gs

/-- Whether a type is the one without values. -/
def isNever : TypeExpr → Bool
  | .keyword .never => true
  | _ => false

namespace World

/-- The kind of a type that stands for one kind and has no parts. -/
def primitiveKind? (w : World) (env : Env) : TypeExpr → Option Kind
  | .keyword .number | .numberLiteral _ => some .number
  | .keyword .string | .textLiteral _ | .template => some .string
  | .keyword .boolean | .boolLiteral _ => some .boolean
  | .keyword .void | .keyword .undefined => some .undefined
  | .keyword .null => some .null
  | .ref name _ =>
    if isBound name env then none
    else
      match w.scopes.typeNamed? env.scope name with
      | some (.enumMember value) => some value.kind
      | _ => none
  | _ => none

end World

/-! ## Type parameters -/

/-- The guesses for type parameters: an argument is read where it stands, a bound without argument
where the declaration stands. -/
def bindParams (conv : Converter) (active : List DeclKey) (caller : Env) (declScope : Nat) :
    List TypeParam → List TypeExpr → Conversion (List (String × Guess))
  | [], _ => pure []
  | p :: ps, args => do
    let g ← match args.head?, p.bound with
      | some arg, _ => conv active caller arg
      | none, some bound => conv active { scope := declScope } bound
      | none, none => pure .any
    let rest ← bindParams conv active caller declScope ps args.tail
    return (p.name, g) :: rest

/-- The place inside a declaration with type parameters, for the given arguments. -/
def envInside (conv : Converter) (active : List DeclKey) (caller : Env) (scope : Nat)
    (params : List TypeParam) (args : List TypeExpr) : Conversion Env := do
  let bindings ← bindParams conv active caller scope params args
  return { scope := scope, bindings := Table.ofList bindings }

/-! ## Unions -/

mutual

/-- The members of a union, those of unions among them included; `expand` says what a name stands
for if that is a union. -/
def flattenWith (expand : List String → List TypeExpr → Conversion (Option (List PlacedType)))
    (env : Env) : TypeExpr → Conversion (List PlacedType)
  | .union members => flattenAll expand env members
  | .ref name args => do
    match ← expand name args with
    | some members => return members
    | none => return [(.ref name args, env)]
  | ty => pure [(ty, env)]

/-- The members of all the types. -/
def flattenAll (expand : List String → List TypeExpr → Conversion (Option (List PlacedType)))
    (env : Env) : List TypeExpr → Conversion (List PlacedType)
  | [] => pure []
  | ty :: tys => do
    let first ← flattenWith expand env ty
    let rest ← flattenAll expand env tys
    return first ++ rest

end

/-- The members of a union, where names for unions are followed at most `depth` times in a row. -/
def flatten (w : World) (conv : Converter) (active : List DeclKey) :
    Nat → Env → TypeExpr → Conversion (List PlacedType)
  | 0, env, ty => flattenWith (fun _ _ => pure none) env ty
  | depth + 1, env, ty =>
    flattenWith (fun name args => do
      if isBound name env then return none
      match w.scopes.typeNamed? env.scope name with
      | some (.ofAlias scope decl) =>
        match decl.type with
        | .union members =>
          let inner ← envInside conv active env scope decl.typeParams args
          return some (← flatten w conv active depth inner (.union members))
        | _ => return none
      | _ => return none) env ty

/-- The kinds that stand among the members of a union without parts. -/
def primitiveKinds (w : World) (members : List PlacedType) : List Kind :=
  members.filterMap fun m => w.primitiveKind? m.2 m.1

/-- The guesses for the other members of a union, in order. -/
def convertOthers (w : World) (conv : Converter) (active : List DeclKey) :
    List PlacedType → Conversion (List Guess)
  | [] => pure []
  | (ty, env) :: r => do
    if isNever ty || (w.primitiveKind? env ty).isSome then convertOthers w conv active r
    else
      let g ← conv active env ty
      let gs ← convertOthers w conv active r
      return g :: gs

/-- The guess for a union: its members without parts count once for each kind. With `orUndefined`
the undefined value is one of them. -/
def convertUnion (w : World) (conv : Converter) (active : List DeclKey) (env : Env) (ty : TypeExpr)
    (orUndefined : Bool) : Conversion Guess := do
  let members ← flatten w conv active maxAliasDepth env ty
  let kinds := primitiveKinds w members ++ if orUndefined then [.undefined] else []
  let others ← convertOthers w conv active members
  return merged (pooled kinds ++ others)

/-! ## Members -/

/-- The members with the place that all of them stand at. -/
def placed (members : List Member) (env : Env) : List PlacedMember :=
  members.map fun m => (m, env)

/-- The interfaces that a list of types names, with the type arguments. -/
def parentInterfaces (w : World) (scope : Nat) (parents : List TypeExpr) :
    List (Nat × List InterfaceDecl × List TypeExpr) :=
  parents.filterMap fun
    | .ref name args =>
      match w.scopes.typeNamed? scope name with
      | some (.ofInterface s decls) => some (s, decls, args)
      | _ => none
    | _ => none

/-- The key of the declarations of an interface. -/
def interfaceKey (scope : Nat) (decls : List InterfaceDecl) : DeclKey :=
  (scope, (decls.head?.map InterfaceDecl.name).getD "")

mutual

/-- The members of all declarations of an interface and of the interfaces that it extends, depth
first; no interface counts twice. The visited interfaces come with them. -/
def interfaceMembers (w : World) (conv : Converter) (active : List DeclKey) (fuel : Nat)
    (scope : Nat) (decls : List InterfaceDecl) (args : List TypeExpr) (caller : Env)
    (visited : List DeclKey) : Conversion (List PlacedMember × List DeclKey) :=
  match fuel with
  | 0 => Conversion.outOfDepth
  | fuel + 1 => do
    let params := (decls.head?.map InterfaceDecl.typeParams).getD []
    let env ← envInside conv active caller scope params args
    let own := decls.flatMap fun d => placed d.members env
    let parents := decls.flatMap fun d => parentInterfaces w scope d.parents
    let (inherited, visited) ← parentMembers w conv active fuel env visited parents
    return (own ++ inherited, visited)

/-- The members of the interfaces in the list that are not visited yet. -/
def parentMembers (w : World) (conv : Converter) (active : List DeclKey) (fuel : Nat) (env : Env)
    (visited : List DeclKey) (parents : List (Nat × List InterfaceDecl × List TypeExpr)) :
    Conversion (List PlacedMember × List DeclKey) :=
  match parents with
  | [] => pure ([], visited)
  | (scope, decls, args) :: rest => do
    let key := interfaceKey scope decls
    if visited.contains key then parentMembers w conv active fuel env visited rest
    else
      let (first, visited) ←
        interfaceMembers w conv active fuel scope decls args env (key :: visited)
      let (others, visited) ← parentMembers w conv active fuel env visited rest
      return (first ++ others, visited)

end

/-- How many interfaces the scopes hold, which bounds how deep they extend one another. -/
def World.interfaceCount (w : World) : Nat :=
  w.scopes.count fun s => s.interfaces.length

/-- How many names for types the scopes hold, which bounds how deep they stand for one another. -/
def World.aliasCount (w : World) : Nat :=
  w.scopes.count fun s => s.aliases.length

/-- The members of an interface with the given arguments. -/
def membersOfInterface (w : World) (conv : Converter) (active : List DeclKey) (env : Env)
    (scope : Nat) (decls : List InterfaceDecl) (args : List TypeExpr) :
    Conversion (List PlacedMember) := do
  let key := interfaceKey scope decls
  return (← interfaceMembers w conv active (w.interfaceCount + 1) scope decls args env [key]).1

/-- The members of an object type or an interface, also under another name; a type of another sort,
and a name that is being expanded, has none. -/
def membersOfType (w : World) (conv : Converter) :
    Nat → List DeclKey → Env → TypeExpr → Conversion (Option (List PlacedMember))
  | 0, _, _, _ => Conversion.outOfDepth
  | fuel + 1, active, env, ty =>
    match ty with
    | .object members => pure (some (placed members env))
    | .ref name args =>
      match w.scopes.typeNamed? env.scope name with
      | some (.ofInterface scope decls) => do
        return some (← membersOfInterface w conv active env scope decls args)
      | some (.ofAlias scope decl) => do
        let key := (scope, decl.name)
        if active.contains key then return none
        let active := key :: active
        let inner ← envInside conv active env scope decl.typeParams args
        membersOfType w conv fuel active inner decl.type
      | _ => pure none
    | _ => pure none

/-- The members of a type at the outermost level. -/
def membersOf (w : World) (conv : Converter) (env : Env) (ty : TypeExpr) :
    Conversion (Option (List PlacedMember)) :=
  membersOfType w conv (w.aliasCount + 2) [] env ty

/-- Whether a member can be seen on an instance. -/
def Modifiers.onInstance (m : Modifiers) : Bool :=
  !m.isStatic && !m.hidden

/-- Whether a member makes its object something that can be called. -/
def Member.isCallable : Member → Bool
  | call _ | constructor _ => true
  | _ => false

/-- Adds the visible members to a shape; the first declaration of a property counts. -/
def shapeOfMembers (w : World) (conv : Converter) (active : List DeclKey) :
    List (String × Guess) → List PlacedMember → Conversion (List (String × Guess))
  | shape, [] => pure shape
  | shape, (.property name optional type modifiers, env) :: r => do
    if !modifiers.onInstance || Table.has shape name then shapeOfMembers w conv active shape r
    else
      let g ← match type with
        | none => pure .any
        | some ty => if optional then convertUnion w conv active env ty true else conv active env ty
      shapeOfMembers w conv active (Table.insert shape name g) r
  | shape, (.method name _ _ modifiers, _) :: r =>
    if !modifiers.onInstance || Table.has shape name then shapeOfMembers w conv active shape r
    else shapeOfMembers w conv active (Table.insert shape name .undefined) r
  | shape, _ :: r => shapeOfMembers w conv active shape r

/-- The guess for an object with the given members; one that can only be called has no use as a
value, and one with too many properties is unknown. -/
def objectOfMembers (w : World) (conv : Converter) (active : List DeclKey)
    (members : List PlacedMember) : Conversion Guess := do
  let shape ← shapeOfMembers w conv active [] members
  if members.any (fun m => m.1.isCallable) && shape.isEmpty then return .undefined
  else if maxProperties < shape.length then return .any
  else return .object shape

/-! ## Names -/

/-- A reference to a class. -/
def convertClass (w : World) (c : ClassRef) : Conversion Guess := do
  Conversion.refer c
  return .ofClass (w.className c)

/-- The guess for an interface; inside itself it is an object of which nothing more is said. -/
def convertInterface (w : World) (conv : Converter) (active : List DeclKey) (env : Env)
    (scope : Nat) (decls : List InterfaceDecl) (args : List TypeExpr) : Conversion Guess := do
  let key := interfaceKey scope decls
  if active.contains key then return .object []
  let active := key :: active
  let members ← membersOfInterface w conv active env scope decls args
  objectOfMembers w conv active members

/-- The guess for a name that stands for a type; inside itself nothing is known. -/
def convertAlias (conv : Converter) (active : List DeclKey) (env : Env) (scope : Nat)
    (decl : AliasDecl) (args : List TypeExpr) : Conversion Guess := do
  let key := (scope, decl.name)
  if active.contains key then return .any
  let active := key :: active
  let inner ← envInside conv active env scope decl.typeParams args
  conv active inner decl.type

/-- The guess for an enumeration; one without members is one of numbers. -/
def enumGuess (e : EnumDecl) : Guess :=
  match pooled (e.members.map fun m => m.2.kind) with
  | [] => .number
  | gs => merged gs

/-- The class that a value of the given name is, as the type of its instances. -/
def instanceType (w : World) (env : Env) (path : List String) : Conversion Guess :=
  match (w.scopes.valueNamed? env.scope path).bind fun v => v.ofClass.map (v.scope, ·) with
  | some (scope, decl) => convertClass w ⟨scope, decl⟩
  | none =>
    match path with
    | [single] => pure (if Standard.isClass single then .ofClass single else .any)
    | _ => pure .any

/-- The guess for the first type argument, if there is one. -/
def firstArg (conv : Converter) (active : List DeclKey) (env : Env) (args : List TypeExpr) :
    Conversion Guess :=
  match args with
  | arg :: _ => conv active env arg
  | [] => pure .any

/-- The guess for a name that the text does not declare. -/
def convertGlobal (w : World) (conv : Converter) (active : List DeclKey) (env : Env)
    (name : List String) (args : List TypeExpr) : Conversion Guess :=
  let joined := ".".intercalate name
  match joined with
  | "Promise" | "PromiseLike" | "Awaited" | "Readonly" | "Required" | "Partial" | "NonNullable" =>
    firstArg conv active env args
  | "Array" | "ReadonlyArray" | "ArrayLike" | "Iterable" => do
    return .array (← firstArg conv active env args)
  | "Record" | "Object" => pure (.object [])
  | "Function" | "CallableFunction" | "NewableFunction" => pure .undefined
  | "String" => pure .string
  | "Number" => pure .number
  | "Boolean" => pure .boolean
  | "InstanceType" =>
    match args with
    | .query path :: _ => instanceType w env path
    | _ => pure .any
  | _ => pure (if Standard.isClass joined then .ofClass joined else .any)

/-- The binding of a name of one part. -/
def binding? (name : List String) (env : Env) : Option Guess :=
  match name with
  | [single] => Table.find? env.bindings single
  | _ => none

/-- The guess for a name with type arguments. -/
def convertRef (w : World) (conv : Converter) (active : List DeclKey) (env : Env)
    (name : List String) (args : List TypeExpr) : Conversion Guess :=
  match binding? name env with
  | some g => pure g
  | none =>
    match w.scopes.typeNamed? env.scope name with
    | some (.ofClass scope decl) => convertClass w ⟨scope, decl⟩
    | some (.ofInterface scope decls) => convertInterface w conv active env scope decls args
    | some (.ofAlias scope decl) => convertAlias conv active env scope decl args
    | some (.ofEnum decl) => pure (enumGuess decl)
    | some (.enumMember value) => pure (.ofKind value.kind)
    | none => convertGlobal w conv active env name args

/-- The guess for the type of a value: the declared type of a variable, which inside itself is
unknown. Functions and classes have no use as values. -/
def convertQuery (w : World) (conv : Converter) (active : List DeclKey) (env : Env)
    (path : List String) : Conversion Guess :=
  match w.scopes.valueNamed? env.scope path with
  | none => pure .any
  | some v =>
    if v.ofClass.isSome || !v.functions.isEmpty then pure .undefined
    else
      match v.variableType, path.getLast? with
      | some (some ty), some last =>
        let key := (v.scope, last)
        if active.contains key then pure .any
        else conv (key :: active) { scope := v.scope } ty
      | _, _ => pure .any

/-- The guess for a keyword. -/
def keywordGuess (env : Env) : Keyword → Guess
  | .number => .number
  | .string => .string
  | .boolean => .boolean
  | .void | .undefined => .undefined
  | .null => .null
  | .object => .object []
  | .this =>
    match env.thisClass with
    | some name => .ofClass name
    | none => .any
  | .any | .unknown | .never | .symbol | .bigint => .any

/-- The guess for an item of a tuple; the rest of a tuple counts as one item. -/
def convertItem (conv : Converter) (active : List DeclKey) (env : Env) :
    TupleItem → Conversion Guess
  | .mk ty _ rest =>
    if rest then
      match itemType? ty with
      | some item => conv active env item
      | none => pure .any
    else conv active env ty

/-! ## Types -/

/-- The guess for a type, with `conv` for the types nested in it and those that it leads to. -/
def convertWith (w : World) (conv : Converter) : Converter := fun active env ty =>
  match ty with
  | .keyword k => pure (keywordGuess env k)
  | .textLiteral _ | .template | .keyof _ => pure .string
  | .numberLiteral _ => pure .number
  | .boolLiteral _ | .predicate => pure .boolean
  | .ref name args => convertRef w conv active env name args
  | .array item => do return .array (← conv active env item)
  | .tuple items => do return .array (Guess.union (← items.mapM (convertItem conv active env)))
  | .union members => convertUnion w conv active env (.union members) false
  | .intersection parts => do return Guess.intersect (← parts.mapM (conv active env))
  | .function _ => pure .undefined
  | .object members => objectOfMembers w conv active (placed members env)
  | .query path => convertQuery w conv active env path
  | .computed => pure .any

/-- The guess for a type, at most `depth` steps deep. -/
def convertTo (w : World) : Nat → Converter
  | 0 => fun _ _ _ => Conversion.outOfDepth
  | depth + 1 => convertWith w (convertTo w depth)

end ApiSurface.Declaration
