/-!
The syntax of type declarations, as far as it says something about the surface of a library.
Computed types (conditional, mapped and indexed types) are kept without their contents.
-/

namespace ApiSurface.Declaration

/-- The types that have a name of their own in the language. -/
inductive Keyword where
  | any
  | unknown
  | never
  | number
  | string
  | boolean
  | void
  | undefined
  | null
  | object
  | symbol
  | bigint
  | this
  deriving Repr, DecidableEq

namespace Keyword

/-- Every keyword. -/
def all : List Keyword :=
  [any, unknown, never, number, string, boolean, void, undefined, null, object, symbol, bigint,
    this]

/-- The word that stands for a keyword. -/
def word : Keyword → String
  | any => "any"
  | unknown => "unknown"
  | never => "never"
  | number => "number"
  | string => "string"
  | boolean => "boolean"
  | void => "void"
  | undefined => "undefined"
  | null => "null"
  | object => "object"
  | symbol => "symbol"
  | bigint => "bigint"
  | this => "this"

/-- The keyword that a word stands for. -/
def ofWord? (w : String) : Option Keyword :=
  all.find? fun k => k.word == w

end Keyword

/-- What comes before the name of a member, as far as it matters. -/
structure Modifiers where
  isStatic : Bool := false
  /-- Marked as private or protected, or named with a leading `#`. -/
  hidden : Bool := false
  deriving Repr, DecidableEq

mutual

/-- A type expression. -/
inductive TypeExpr where
  | keyword (k : Keyword)
  | textLiteral (s : String)
  | numberLiteral (x : Float)
  | boolLiteral (b : Bool)
  | template
  /-- A name, possibly qualified, with type arguments. -/
  | ref (name : List String) (args : List TypeExpr)
  | array (item : TypeExpr)
  | tuple (items : List TupleItem)
  | union (members : List TypeExpr)
  | intersection (members : List TypeExpr)
  /-- The type of a function or a constructor. -/
  | function (sig : FnSig)
  | object (members : List Member)
  /-- The type of a value with the given name. -/
  | query (name : List String)
  | keyof (type : TypeExpr)
  /-- A statement about an argument, in the place of a result type. -/
  | predicate
  /-- A computed type. -/
  | computed

/-- An item of a tuple type. -/
inductive TupleItem where
  | mk (type : TypeExpr) (optional : Bool) (rest : Bool)

/-- A type parameter with its bound. -/
inductive TypeParam where
  | mk (name : String) (bound : Option TypeExpr)

/-- A parameter. -/
inductive Param where
  | mk (name : String) (type : Option TypeExpr) (optional : Bool) (rest : Bool)

/-- The signature of something that can be called. -/
inductive FnSig where
  | mk (typeParams : List TypeParam) (params : List Param) (ret : Option TypeExpr)

/-- A member of a class, an interface or an object type. -/
inductive Member where
  | property (name : String) (optional : Bool) (type : Option TypeExpr) (modifiers : Modifiers)
  | method (name : String) (optional : Bool) (sig : FnSig) (modifiers : Modifiers)
  /-- The constructor of a class, or a construct signature. -/
  | constructor (sig : FnSig)
  /-- The signature of an interface that can itself be called. -/
  | call (sig : FnSig)
  /-- The type of all properties that have no name of their own. -/
  | index (value : TypeExpr) (modifiers : Modifiers)

end

instance : Inhabited TypeExpr := ⟨.computed⟩

/-- The name of a type parameter. -/
def TypeParam.name : TypeParam → String
  | mk name _ => name

/-- The bound of a type parameter. -/
def TypeParam.bound : TypeParam → Option TypeExpr
  | mk _ bound => bound

/-- The type parameters of a signature. -/
def FnSig.typeParams : FnSig → List TypeParam
  | mk typeParams _ _ => typeParams

/-- The parameters of a signature. -/
def FnSig.params : FnSig → List Param
  | mk _ params _ => params

/-- The result type of a signature. -/
def FnSig.ret : FnSig → Option TypeExpr
  | mk _ _ ret => ret

/-- The signature without parameters and result type. -/
def FnSig.empty : FnSig := .mk [] [] none

/-- A class. -/
structure ClassDecl where
  name : String
  typeParams : List TypeParam
  parent : Option TypeExpr
  interfaces : List TypeExpr
  members : List Member

/-- An interface. -/
structure InterfaceDecl where
  name : String
  typeParams : List TypeParam
  parents : List TypeExpr
  members : List Member

/-- A name for a type. -/
structure AliasDecl where
  name : String
  typeParams : List TypeParam
  type : TypeExpr

/-- What the members of an enumeration are. -/
inductive EnumValue where
  | number
  | string
  deriving Repr, DecidableEq

/-- An enumeration. -/
structure EnumDecl where
  name : String
  members : List (String × EnumValue)

/-- A name that an export list gives away, and the name it is known by outside. -/
structure ExportName where
  inner : String
  outer : String
  deriving Repr, DecidableEq

mutual

/-- A declaration. -/
inductive Decl where
  | functionDecl (name : String) (sig : FnSig)
  | classDecl (c : ClassDecl)
  | interfaceDecl (i : InterfaceDecl)
  | aliasDecl (a : AliasDecl)
  | enumDecl (e : EnumDecl)
  | variableDecl (name : String) (type : Option TypeExpr)
  | namespaceDecl (name : String) (body : List Statement)
  /-- The declarations of a module that is known by its path. -/
  | moduleDecl (path : String) (body : List Statement)

/-- A statement. -/
inductive Statement where
  | decl (d : Decl) (exported : Bool)
  /-- The whole surface is what a name stands for. -/
  | exportAssignment (name : List String)
  /-- A list of exported names; names of another file carry its path. -/
  | exportList (names : List ExportName) (source : Option String)
  /-- A statement that declares nothing here. -/
  | other

end

instance : Inhabited Statement := ⟨.other⟩

/-- The name that a declaration introduces. -/
def Decl.name : Decl → String
  | functionDecl name _ => name
  | classDecl c => c.name
  | interfaceDecl i => i.name
  | aliasDecl a => a.name
  | enumDecl e => e.name
  | variableDecl name _ => name
  | namespaceDecl name _ => name
  | moduleDecl path _ => path

/-- Whether a statement uses explicit export syntax. -/
def Statement.isExport : Statement → Bool
  | decl _ exported => exported
  | exportAssignment _ => true
  | exportList .. => true
  | other => false

end ApiSurface.Declaration
