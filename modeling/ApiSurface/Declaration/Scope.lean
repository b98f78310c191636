import ApiSurface.Declaration.Syntax
import ApiSurface.Table

/-!
Scopes: what each body of a declaration text declares and exports, and what a name stands for. The
text itself is scope zero; every namespace and every module body has a scope of its own, whose
number is larger than the one of the scope that it stands in. Declarations of one name merge:
functions and interfaces accumulate, and a namespace may share its name with a class or a function.
-/

namespace ApiSurface.Declaration

/-- What one body declares. -/
structure Scope where
  parent : Option Nat
  classes : List (String × ClassDecl) := []
  interfaces : List (String × List InterfaceDecl) := []
  aliases : List (String × AliasDecl) := []
  enums : List (String × EnumDecl) := []
  functions : List (String × List FnSig) := []
  variableTypes : List (String × Option TypeExpr) := []
  namespaces : List (String × Nat) := []
  /-- The exported names in the order of their declaration. -/
  exports : List ExportName := []
  /-- The name whose value is the whole surface. -/
  assignment : Option (List String) := none
  modules : List Nat := []

/-- The scope of the text itself, without declarations. -/
def Scope.root : Scope := { parent := none }

/-- The scopes of a text by number. -/
structure Scopes where
  all : List Scope

/-- What a name stands for where a type is expected. -/
inductive TypeSymbol where
  | ofClass (scope : Nat) (decl : ClassDecl)
  | ofInterface (scope : Nat) (decls : List InterfaceDecl)
  | ofAlias (scope : Nat) (decl : AliasDecl)
  | ofEnum (decl : EnumDecl)
  | enumMember (value : EnumValue)

/-- All that a name stands for where a value is expected. -/
structure ValueSymbol where
  scope : Nat
  ofClass : Option ClassDecl
  functions : List FnSig
  variableType : Option (Option TypeExpr)
  ofNamespace : Option Nat

/-- Whether a name stands for nothing. -/
def ValueSymbol.isEmpty (s : ValueSymbol) : Bool :=
  s.ofClass.isNone && s.functions.isEmpty && s.variableType.isNone && s.ofNamespace.isNone

namespace Scope

/-- Adds an exported name, unless the name is exported already. -/
def addExport (s : Scope) (e : ExportName) : Scope :=
  if s.exports.any fun x => x.outer == e.outer then s else { s with exports := s.exports ++ [e] }

/-- Adds to the declarations of a name. -/
def appended {α : Type} (t : List (String × List α)) (name : String) (a : α) :
    List (String × List α) :=
  Table.insert t name ((Table.find? t name).getD [] ++ [a])

/-- Declares something that has no body of its own. -/
def declare (s : Scope) : Decl → Scope
  | .functionDecl name sig => { s with functions := appended s.functions name sig }
  | .classDecl c => { s with classes := Table.insert s.classes c.name c }
  | .interfaceDecl i => { s with interfaces := appended s.interfaces i.name i }
  | .aliasDecl a => { s with aliases := Table.insert s.aliases a.name a }
  | .enumDecl e => { s with enums := Table.insert s.enums e.name e }
  | .variableDecl name type => { s with variableTypes := Table.insert s.variableTypes name type }
  | .namespaceDecl .. | .moduleDecl .. => s

/-- What a name stands for as a type in this scope alone. -/
def typeNamed? (s : Scope) (id : Nat) (name : String) : Option TypeSymbol :=
  match Table.find? s.classes name with
  | some c => some (.ofClass id c)
  | none =>
    match Table.find? s.interfaces name with
    | some is => some (.ofInterface id is)
    | none =>
      match Table.find? s.aliases name with
      | some a => some (.ofAlias id a)
      | none => (Table.find? s.enums name).map .ofEnum

/-- What a name stands for as a value in this scope alone. -/
def valueNamed? (s : Scope) (id : Nat) (name : String) : Option ValueSymbol :=
  let v : ValueSymbol :=
    { scope := id
      ofClass := Table.find? s.classes name
      functions := (Table.find? s.functions name).getD []
      variableType := Table.find? s.variableTypes name
      ofNamespace := Table.find? s.namespaces name }
  if v.isEmpty then none else some v

end Scope

namespace Scopes

/-- The scope with a number. -/
def get? (s : Scopes) (id : Nat) : Option Scope :=
  s.all[id]?

/-- How many declarations of a sort there are in all scopes. -/
def count (s : Scopes) (declared : Scope → Nat) : Nat :=
  s.all.foldr (fun d n => declared d + n) 0

/-- Changes the scope with a number. -/
def modify (s : Scopes) (id : Nat) (f : Scope → Scope) : Scopes :=
  ⟨s.all.modify id f⟩

/-- Adds a scope inside another one; its number is the count of the scopes before it. -/
def addChild (s : Scopes) (parent : Nat) : Nat × Scopes :=
  (s.all.length, ⟨s.all ++ [{ parent := some parent }]⟩)

/-- The scope of a namespace, which is added if the name has none. -/
def namespaceIn (s : Scopes) (id : Nat) (name : String) : Nat × Scopes :=
  match (s.get? id).bind fun sc => Table.find? sc.namespaces name with
  | some ns => (ns, s)
  | none =>
    let (ns, s) := s.addChild id
    (ns, s.modify id fun sc => { sc with namespaces := Table.insert sc.namespaces name ns })

/-- A scope for the body of a module. -/
def moduleIn (s : Scopes) (id : Nat) : Nat × Scopes :=
  let (m, s) := s.addChild id
  (m, s.modify id fun sc => { sc with modules := sc.modules ++ [m] })

/-- Whether a body without explicit export syntax exports all that it declares. -/
def exportsAll (body : List Statement) : Bool :=
  !body.any Statement.isExport

/-- Whether a declaration is one of a module body, which has no name to export. -/
def isModule : Decl → Bool
  | .moduleDecl .. => true
  | _ => false

/-- Adds an exported name to a scope. -/
def addExport (s : Scopes) (id : Nat) (inner outer : String) : Scopes :=
  s.modify id fun sc => sc.addExport ⟨inner, outer⟩

/-- Adds the names of an export list to a scope. -/
def addExports (s : Scopes) (id : Nat) (names : List ExportName) : Scopes :=
  names.foldl (fun s n => s.addExport id n.inner n.outer) s

mutual

/-- Adds the statements of a body to its scope. -/
def addStatements (id : Nat) (all : Bool) : List Statement → Scopes → Scopes
  | [], s => s
  | st :: r, s => addStatements id all r (addStatement id all st s)

/-- Adds a statement to the scope of its body; `all` says whether the body exports everything. -/
def addStatement (id : Nat) (all : Bool) : Statement → Scopes → Scopes
  | .decl d exported, s =>
    let s := addDecl id d s
    if !isModule d && (exported || all) then s.addExport id d.name d.name else s
  | .exportAssignment name, s => s.modify id fun sc => { sc with assignment := some name }
  | .exportList names none, s => s.addExports id names
  | .exportList _ (some _), s => s
  | .other, s => s

/-- Adds a declaration to a scope, and what its body declares to the scope of the body. -/
def addDecl (id : Nat) : Decl → Scopes → Scopes
  | .namespaceDecl name body, s =>
    let (ns, s) := s.namespaceIn id name
    addStatements ns (exportsAll body) body s
  | .moduleDecl _ body, s =>
    let (m, s) := s.moduleIn id
    addStatements m (exportsAll body) body s
  | .functionDecl name sig, s => s.modify id (·.declare (.functionDecl name sig))
  | .classDecl c, s => s.modify id (·.declare (.classDecl c))
  | .interfaceDecl i, s => s.modify id (·.declare (.interfaceDecl i))
  | .aliasDecl a, s => s.modify id (·.declare (.aliasDecl a))
  | .enumDecl e, s => s.modify id (·.declare (.enumDecl e))
  | .variableDecl name type, s => s.modify id (·.declare (.variableDecl name type))

end

/-- The scopes of a text. -/
def ofStatements (ss : List Statement) : Scopes :=
  addStatements 0 (exportsAll ss) ss ⟨[.root]⟩

/-! ## Looking names up -/

/-- The first answer that `f` has for a scope or the ones around it, from the inside out. -/
def outward {α : Type} (s : Scopes) (f : Nat → Scope → Option α) (id : Nat) : Option α :=
  match s.get? id with
  | none => none
  | some sc =>
    match f id sc with
    | some a => some a
    | none =>
      match sc.parent with
      | some p => if p < id then outward s f p else none
      | none => none
termination_by id

/-- The namespace inside a scope that the names lead to, one after the other. -/
def descend (s : Scopes) (id : Nat) : List String → Option Nat
  | [] => some id
  | n :: ns =>
    match (s.get? id).bind fun sc => Table.find? sc.namespaces n with
    | some inner => descend s inner ns
    | none => none

/-- The scope of the namespace with a qualified name, the first part looked up from the inside out.
-/
def namespaceNamed? (s : Scopes) (start : Nat) : List String → Option Nat
  | [] => some start
  | n :: ns =>
    match s.outward (fun _ sc => Table.find? sc.namespaces n) start with
    | some id => s.descend id ns
    | none => none

/-- The answer of `f` for a name whose parts are given from the last one on: a name of one part is
looked up from the inside out, others in the namespace that the parts before lead to. -/
def lookup {α : Type} (s : Scopes) (start : Nat) (f : Nat → Scope → String → Option α) :
    List String → Option α
  | [] => none
  | [last] => s.outward (fun id sc => f id sc last) start
  | last :: owner =>
    match s.namespaceNamed? start owner.reverse with
    | some id => (s.get? id).bind fun sc => f id sc last
    | none => none

/-- What a name stands for as a type, its parts given from the last one on. A member of an
enumeration goes before anything else. -/
def typeOfParts? (s : Scopes) (start : Nat) : List String → Option TypeSymbol
  | [] => none
  | last :: owner =>
    match typeOfParts? s start owner with
    | some (.ofEnum e) => (e.members.find? fun m => m.1 == last).map fun m => .enumMember m.2
    | _ => s.lookup start (fun id sc n => sc.typeNamed? id n) (last :: owner)

/-- What a qualified name stands for as a type. -/
def typeNamed? (s : Scopes) (start : Nat) (path : List String) : Option TypeSymbol :=
  s.typeOfParts? start path.reverse

/-- What a qualified name stands for as a value. -/
def valueNamed? (s : Scopes) (start : Nat) (path : List String) : Option ValueSymbol :=
  s.lookup start (fun id sc n => sc.valueNamed? id n) path.reverse

end Scopes

end ApiSurface.Declaration
