import ApiSurface.Declaration.TypeReader

/-!
Reading declarations and statements. The readers take the reader of a body in braces as a parameter;
`statementsTo` ties the knot with the number of tokens as bound, and `parse` reads a whole text.
-/

namespace ApiSurface.Declaration.Reader

/-- The name of a function; one without a name is known as the default export. -/
def functionName : Reader String := do
  let t ← peek
  if t.isPunct .openParen || t.isPunct .less then return "default" else name

/-- A function. -/
def functionDecl : Reader Decl := do
  let _ ← bump
  let _ ← eat .star
  let name ← functionName
  let sig ← fnSig typeExpr
  semicolons
  return .functionDecl name sig

/-- The name of a class; one without a name is known as the default export. -/
def className : Reader String := do
  match (← peek).word? with
  | some w => if w != "extends" && w != "implements" then name else return "default"
  | none => return "default"

/-- Types after a word, separated by commas, if the word is next. -/
def heritage (word : String) : Reader (List TypeExpr) := do
  if ← eatWord word then separated .comma operatorType else return []

/-- A class. -/
def classDecl : Reader Decl := do
  let _ ← bump
  let name ← className
  let tps ← typeParams typeExpr
  let parent ← if ← eatWord "extends" then some <$> operatorType else pure none
  let interfaces ← heritage "implements"
  expect .openBrace
  let ms ← members typeExpr true
  return .classDecl ⟨name, tps, parent, interfaces, ms⟩

/-- An interface. -/
def interfaceDecl : Reader Decl := do
  let _ ← bump
  let name ← name
  let tps ← typeParams typeExpr
  let parents ← heritage "extends"
  expect .openBrace
  let ms ← members typeExpr false
  return .interfaceDecl ⟨name, tps, parents, ms⟩

/-- A name for a type. -/
def aliasDecl : Reader Decl := do
  let _ ← bump
  let name ← name
  let tps ← typeParams typeExpr
  expect .equals
  let ty ← typeExpr
  semicolons
  return .aliasDecl ⟨name, tps, ty⟩

/-- What a member of an enumeration is, by the token that its value starts with. -/
def enumValueOf (t : Token) : EnumValue :=
  match t.kind with
  | .text _ | .template => .string
  | _ => .number

/-- A member of an enumeration. -/
def enumMember : Reader (String × EnumValue) := do
  let name ← propertyName
  if ← eat .equals then
    let value := enumValueOf (← peek)
    skipValue
    return (name, value)
  else return (name, .number)

/-- An enumeration. -/
def enumDecl : Reader Decl := do
  let _ ← bump
  let name ← name
  expect .openBrace
  let ms ← listed .enumeration enumMember
  return .enumDecl ⟨name, ms⟩

/-- The name of a variable; a pattern introduces none. -/
def variableName : Reader (Option String) := do
  if ← atPunct .openBrace then
    skipGroup .openBrace .closeBrace
    return none
  else if ← atPunct .openBracket then
    skipGroup .openBracket .closeBracket
    return none
  else some <$> name

/-- One variable of a declaration. -/
def variableItem : Reader (Option Decl) := do
  let name ← variableName
  let _ ← eat .bang
  let ty ← annotated .colon typeExpr
  if ← eat .equals then skipValue
  return name.map fun n => .variableDecl n ty

/-- The variables of a declaration. -/
def variableDecls : Reader (List Decl) := do
  let ds ← separated .comma variableItem
  semicolons
  return ds.filterMap id

/-- One namespace for every part of the name, the body in the innermost one. -/
def nested : List String → List Statement → Decl
  | [], body => .namespaceDecl "" body
  | [n], body => .namespaceDecl n body
  | n :: ns, body => .namespaceDecl n [.decl (nested ns body) true]

/-- A namespace, or a module known by its path; a module without a body declares nothing. -/
def namespaceDecl (body : Reader (List Statement)) : Reader (List Decl) := do
  let _ ← bump
  match (← peek).kind with
  | .text path =>
    let _ ← bump
    if ← eat .openBrace then return [.moduleDecl path (← body)]
    else
      semicolons
      return []
  | _ =>
    let path ← qualifiedName
    expect .openBrace
    return [nested path (← body)]

/-- A declaration that starts with the given word. -/
def declarationOf (body : Reader (List Statement)) (word : String) : Reader (List Decl) := do
  match word with
  | "function" => return [← functionDecl]
  | "class" => return [← classDecl]
  | "interface" => return [← interfaceDecl]
  | "type" => return [← aliasDecl]
  | "enum" => return [← enumDecl]
  | "const" =>
    let u ← peekAt 1
    let _ ← bump
    if u.isTheWord "enum" then return [← enumDecl] else variableDecls
  | "let" | "var" =>
    let _ ← bump
    variableDecls
  | "namespace" | "module" => namespaceDecl body
  | "global" =>
    let _ ← bump
    skipGroup .openBrace .closeBrace
    return []
  | _ => expected .declaration

/-- Takes the word if the other one comes after it. -/
def skipBefore (word other : String) : Reader Unit := do
  if (← atWord word) && (← peekAt 1).isTheWord other then
    let _ ← bump

/-- A declaration; a list of variables makes several. -/
def declaration (body : Reader (List Statement)) : Reader (List Decl) := do
  let _ ← eatWord "declare"
  skipBefore "abstract" "class"
  skipBefore "async" "function"
  match (← peek).word? with
  | some w => declarationOf body w
  | none => expected .declaration

/-- A name of an export list. -/
def exportName : Reader ExportName := do
  let _ ← eatWord "type"
  let inner ← propertyName
  let outer ← if ← eatWord "as" then propertyName else pure inner
  return ⟨inner, outer⟩

/-- The path of the file that names of an export list come from, if one is given. -/
def exportSource : Reader (Option String) := do
  if ← eatWord "from" then
    match (← bump).kind with
    | .text s => return some s
    | _ => expected .source
  else return none

/-- Whether a token starts a declaration that may be the default export. -/
def startsDefault (t : Token) : Bool :=
  t.isOneOf ["function", "class", "abstract", "interface", "declare", "enum"]

/-- What follows the word that makes a declaration the default export. -/
def defaultExport (body : Reader (List Statement)) : Reader (List Statement) := do
  if startsDefault (← peek) then
    return (← declaration body).map fun d => .decl d true
  else
    let name ← qualifiedName
    skipStatement
    return [.exportList [⟨".".intercalate name, "default"⟩] none]

/-- What follows the word that starts an export. -/
def exported (body : Reader (List Statement)) : Reader (List Statement) := do
  if ← eat .equals then
    let name ← qualifiedName
    semicolons
    return [.exportAssignment name]
  let t ← peek
  if t.isTheWord "as" || t.isTheWord "import" || t.isPunct .star then
    skipStatement
    return [.other]
  if t.isTheWord "type" && (← peekAt 1).isPunct .openBrace then
    let _ ← bump
  if ← eat .openBrace then
    let names ← listed .exportList exportName
    let source ← exportSource
    semicolons
    return [.exportList names source]
  if ← eatWord "default" then defaultExport body
  else return (← declaration body).map fun d => .decl d true

/-- A statement; a list of variables makes several. -/
def statement (body : Reader (List Statement)) : Reader (List Statement) := do
  if ← atWord "import" then
    skipStatement
    return [.other]
  else if ← eatWord "export" then exported body
  else return (← declaration body).map fun d => .decl d false

/-- Statements up to the end of the text, or up to and with a closing brace; with at most `fuel`
steps. -/
def statementsWith (body : Reader (List Statement)) (inBraces : Bool) :
    Nat → Reader (List Statement)
  | 0 => exhausted
  | fuel + 1 => do
    if ← atEnd then
      if inBraces then expected (.punct .closeBrace) else return []
    if inBraces && (← atPunct .closeBrace) then
      let _ ← bump
      return []
    if ← eat .semicolon then return ← statementsWith body inBraces fuel
    let first ← statement body
    return first ++ (← statementsWith body inBraces fuel)

/-- Statements in braces nested at most `depth` deep, after the opening brace. -/
def bodyTo : Nat → Reader (List Statement)
  | 0 => exhausted
  | depth + 1 => do statementsWith (bodyTo depth) true ((← left) + 1)

/-- The statements of a text. -/
def statements : Reader (List Statement) := do
  let n ← left
  statementsWith (bodyTo n) false (n + 1)

end ApiSurface.Declaration.Reader

namespace ApiSurface.Declaration

/-- Reads the statements of a declaration text. -/
def parse (text : String) : Except SyntaxError (List Statement) :=
  match tokens text.toList with
  | .error e => .error (.lexical e)
  | .ok (ts, last) => (Reader.statements.run' ⟨ts, ⟨.finish, last, true⟩⟩)

end ApiSurface.Declaration
