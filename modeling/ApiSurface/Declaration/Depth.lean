import ApiSurface.Declaration.Conversion

/-!
How deep a conversion goes that comes to an end. It leads from one place to another: to the types
inside a type, and from a name to what the scopes declare for it. While the same declarations are
being expanded it comes to no place twice, so the number of places bounds its depth.
-/

namespace ApiSurface.Declaration

/-! ## Types inside types -/

/-- The type of a property, if it is declared. -/
def Member.propertyType? : Member → Option TypeExpr
  | property _ _ type _ => type
  | _ => none

/-- The type arguments of a name. -/
def TypeExpr.arguments : TypeExpr → List TypeExpr
  | ref _ args => args
  | _ => []

mutual

/-- A type and the types inside it that its conversion may come to. -/
def TypeExpr.parts : TypeExpr → List TypeExpr
  | .ref name args => .ref name args :: partsOfAll args
  | .array item => .array item :: item.parts
  | .tuple items => .tuple items :: partsOfItems items
  | .union members => .union members :: partsOfAll members
  | .intersection members => .intersection members :: partsOfAll members
  | .object members => .object members :: partsOfMembers members
  | ty => [ty]

/-- The parts of all the types. -/
def partsOfAll : List TypeExpr → List TypeExpr
  | [] => []
  | ty :: tys => ty.parts ++ partsOfAll tys

/-- The parts of the types of the items. -/
def partsOfItems : List TupleItem → List TypeExpr
  | [] => []
  | .mk ty _ _ :: items => ty.parts ++ partsOfItems items

/-- The parts of the types of the properties. -/
def partsOfMembers : List Member → List TypeExpr
  | [] => []
  | .property _ _ (some ty) _ :: members => ty.parts ++ partsOfMembers members
  | _ :: members => partsOfMembers members

end

/-! ## Places -/

/-- A type, the scope that it is read in and the type parameters that are bound around it. -/
structure Place where
  scope : Nat
  bound : List String
  type : TypeExpr

/-- The names that type parameters bind. -/
def boundNames (params : List TypeParam) : List String :=
  Table.keys (Table.ofList (params.map fun p => (p.name, ())))

/-- The types and their parts, read at one place. -/
def placesOf (scope : Nat) (bound : List String) (types : List TypeExpr) : List Place :=
  (partsOfAll types).map fun ty => ⟨scope, bound, ty⟩

/-- The bounds of type parameters, where none of them is bound. -/
def boundPlaces (scope : Nat) (params : List TypeParam) : List Place :=
  placesOf scope [] (params.filterMap TypeParam.bound)

/-- What the conversion of a name for a type may come to. -/
def AliasDecl.places (scope : Nat) (a : AliasDecl) : List Place :=
  boundPlaces scope a.typeParams ++ placesOf scope (boundNames a.typeParams) [a.type]

/-- The type parameters of an interface, which are those of its first declaration. -/
def interfaceParams (decls : List InterfaceDecl) : List TypeParam :=
  (decls.head?.map InterfaceDecl.typeParams).getD []

/-- What the conversion of an interface may come to. -/
def interfacePlaces (scope : Nat) (decls : List InterfaceDecl) : List Place :=
  let params := interfaceParams decls
  boundPlaces scope params ++
    placesOf scope (boundNames params) (decls.flatMap fun d =>
      d.members.filterMap Member.propertyType? ++ d.parents.flatMap TypeExpr.arguments)

/-- What conversions may come to in a scope. -/
def Scope.places (id : Nat) (s : Scope) : List Place :=
  s.aliases.flatMap (fun p => p.2.places id) ++
    s.interfaces.flatMap (fun p => interfacePlaces id p.2) ++
    s.variableTypes.flatMap (fun p => placesOf id [] p.2.toList)

/-- What conversions may come to in any scope. -/
def Scopes.places (s : Scopes) : List Place :=
  s.all.zipIdx.flatMap fun p => p.1.places p.2

/-- The declarations of a scope that are marked while they are being expanded. -/
def Scope.expandable (id : Nat) (s : Scope) : List DeclKey :=
  s.aliases.map (fun p => (id, p.2.name)) ++ s.interfaces.map (fun p => interfaceKey id p.2) ++
    s.variableTypes.map (fun p => (id, p.1))

/-- The declarations of all scopes that are marked while they are being expanded. -/
def Scopes.expandable (s : Scopes) : List DeclKey :=
  s.all.zipIdx.flatMap fun p => p.1.expandable p.2

/-! ## Conversions that end -/

/-- A depth that the conversion of a type stays below if it comes to an end. -/
def World.depthFor (w : World) (ty : TypeExpr) : Nat :=
  (w.scopes.expandable.length + 1) * (w.scopes.places.length + ty.parts.length)

/-- The conversion of types, to the depth that is enough for each. -/
def convertFully (w : World) : Converter := fun active env ty =>
  convertTo w (w.depthFor ty) active env ty

end ApiSurface.Declaration
