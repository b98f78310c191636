import ApiSurface.Declaration.Scope

/-!
The surface of a text: the classes, functions and variables that its exports lead to, with the names
that their entries will have, in the order in which the exports name them.
-/

namespace ApiSurface.Declaration

/-- Something that an export leads to. -/
inductive SurfaceItem where
  | ofClass (scope : Nat) (decl : ClassDecl) (name : String)
  | ofFunction (scope : Nat) (sigs : List FnSig) (name : String)
  /-- A variable with the name of its own entry and what the names of its members start with. -/
  | ofVariable (scope : Nat) (type : TypeExpr) (name memberPrefix : String)

/-- Why a text has no surface. -/
inductive SurfaceError where
  | noSuchDeclaration (path : List String)
  /-- Namespaces lead back into themselves. -/
  | endless

/-- The parts of a dotted name. -/
def nameParts (s : String) : List String :=
  (s.toList.splitOn '.').map String.ofList

/-- The name that an export has in the surface: a default export keeps its own last name. -/
def ExportName.surfaceName (e : ExportName) : String :=
  if e.outer == "default" then ((nameParts e.inner).getLast?).getD e.inner else e.outer

/-- The item for the class, the functions or the variable that a name stands for, at most one of
them in this order. -/
def itemOf (v : ValueSymbol) (name memberPrefix : String) : List SurfaceItem :=
  match v.ofClass with
  | some c => [.ofClass v.scope c name]
  | none =>
    if !v.functions.isEmpty then [.ofFunction v.scope v.functions name]
    else
      match v.variableType with
      | some (some ty) => [.ofVariable v.scope ty name memberPrefix]
      | _ => []

/-- What the exports of a scope lead to, with `start` in front of their names. -/
def scopeSurface (s : Scopes) : Nat → Nat → String → Except SurfaceError (List SurfaceItem)
  | 0, _, _ => .error .endless
  | fuel + 1, id, start =>
    let exports := ((s.get? id).map Scope.exports).getD []
    exports.foldlM (fun items e => do
      match s.valueNamed? id (nameParts e.inner) with
      | none => return items
      | some v =>
        let name := start ++ e.surfaceName
        let inner ← match v.ofNamespace with
          | some ns => scopeSurface s fuel ns (name ++ ".")
          | none => pure []
        return items ++ itemOf v name (name ++ ".") ++ inner) []

/-- What a module leads to whose surface is the value of a name: the members are its own members. -/
def assignedSurface (s : Scopes) (fuel id : Nat) (path : List String) :
    Except SurfaceError (List SurfaceItem) := do
  match s.valueNamed? id path with
  | none => throw (.noSuchDeclaration path)
  | some v =>
    let inner ← match v.ofNamespace with
      | some ns => scopeSurface s fuel ns ""
      | none => pure []
    return itemOf v (path.getLast?.getD "") "" ++ inner

/-- What a module leads to. -/
def moduleSurface (s : Scopes) (fuel id : Nat) : Except SurfaceError (List SurfaceItem) :=
  match (s.get? id).bind Scope.assignment with
  | some path => assignedSurface s fuel id path
  | none => scopeSurface s fuel id ""

/-- What a text and the modules in it lead to. -/
def surface (s : Scopes) (fuel : Nat) : Except SurfaceError (List SurfaceItem) := do
  let modules := ((s.get? 0).map Scope.modules).getD []
  let parts ← (0 :: modules).mapM (moduleSurface s fuel)
  return parts.flatten

/-- The names of the classes of a surface; the first name that leads to a class counts. -/
def classNames (items : List SurfaceItem) : List ((Nat × String) × String) :=
  items.foldl (fun names item =>
    match item with
    | .ofClass scope decl name =>
      if names.any fun p => p.1 == (scope, decl.name) then names
      else names ++ [((scope, decl.name), name)]
    | _ => names) []

end ApiSurface.Declaration
