import ApiSurface.Declaration.Cursor
import ApiSurface.Declaration.Syntax

/-!
Reading type expressions. The readers here take the reader of nested types as a parameter; every one
of them takes a token before it calls it, and `typeExpr` ties the knot with the number of tokens as
bound.
-/

namespace ApiSurface.Declaration.Reader

/-- A type parameter: its name, its bound, and a default that is passed over. -/
def typeParam (type : Reader TypeExpr) : Reader TypeParam := do
  let _ ← takeWords ["const", "in", "out"] Token.isWord
  let paramName ← name
  let bound ← if ← eatWord "extends" then some <$> type else pure none
  if ← eat .equals then
    let _ ← type
  return .mk paramName bound

/-- Type parameters in angles, or none. -/
def typeParams (type : Reader TypeExpr) : Reader (List TypeParam) := do
  if ← eat .less then listed .typeParams (typeParam type) else return []

/-- The name of a parameter; a pattern has a stand-in. -/
def paramName : Reader String := do
  if ← atPunct .openBrace then
    skipGroup .openBrace .closeBrace
    return "options"
  else if ← atPunct .openBracket then
    skipGroup .openBracket .closeBracket
    return "items"
  else name

/-- A parameter; one named `this` says something about the receiver and is no parameter. -/
def param (type : Reader TypeExpr) : Reader (Option Param) := do
  let _ ← takeWords ["public", "private", "protected", "readonly", "override"] Token.isWord
  let rest ← eat .ellipsis
  let name ← paramName
  let optional ← eat .question
  let ty ← annotated .colon type
  if ← eat .equals then skipValue
  return if name == "this" then none else some (.mk name ty optional rest)

/-- Parameters in parentheses. -/
def params (type : Reader TypeExpr) : Reader (List Param) := do
  expect .openParen
  let ps ← listed .params (param type)
  return ps.filterMap id

/-- A result type, which may be a statement about an argument. -/
def returnType (type : Reader TypeExpr) : Reader TypeExpr := do
  let t ← peek
  let u ← peekAt 1
  if t.isTheWord "asserts" && u.isWord then
    let _ ← bump
    let _ ← bump
    if ← eatWord "is" then
      let _ ← type
    return .keyword .void
  else if t.isWord && u.isTheWord "is" && !u.onNewLine then
    let _ ← bump
    let _ ← bump
    let _ ← type
    return .predicate
  else type

/-- A signature, with or without a result type. -/
def fnSig (type : Reader TypeExpr) : Reader FnSig := do
  let tps ← typeParams type
  let ps ← params type
  let ret ← annotated .colon (returnType type)
  return .mk tps ps ret

/-- The type of a function: a signature whose result type follows an arrow. -/
def fnType (type : Reader TypeExpr) : Reader TypeExpr := do
  let tps ← typeParams type
  let ps ← params type
  expect .arrow
  let ret ← returnType type
  return .function (.mk tps ps (some ret))

/-- Type arguments in angles, or none; the opening angle stands on the line of the name. -/
def typeArgs (type : Reader TypeExpr) : Reader (List TypeExpr) := do
  let t ← peek
  if t.isPunct .less && !t.onNewLine then
    let _ ← bump
    listed .typeArgs type
  else return []

/-! ## Members -/

/-- The words that say something about a member when the name of one follows. -/
def memberModifiers : List String :=
  ["public", "private", "protected", "static", "readonly", "abstract", "declare", "override",
    "accessor", "async", "get", "set"]

/-- Whether a token may start what a modifier belongs to. -/
def startsMember (t : Token) : Bool :=
  match t.kind with
  | .word _ | .text _ | .number _ | .punct .openBracket | .punct .star => true
  | _ => false

/-- The last of the words that says that a member is read or written by a function. -/
def accessor? (words : List String) : Option String :=
  (words.filter fun w => w == "get" || w == "set").getLast?

/-- The modifiers that the words in front of a member give. -/
def modifiersOf (words : List String) : Modifiers :=
  { isStatic := words.contains "static"
    hidden := words.contains "private" || words.contains "protected" }

/-- A group in braces, if one opens here. -/
def skipBody : Reader Unit := do
  if ← atPunct .openBrace then skipGroup .openBrace .closeBrace

/-- A member whose key is in brackets: an index signature, or a computed key, which is dropped. -/
def bracketMember (type : Reader TypeExpr) (modifiers : Modifiers) : Reader (Option Member) := do
  if (← peekAt 1).isWord && (← peekAt 2).isPunct .colon then
    let _ ← bump
    let _ ← bump
    let _ ← bump
    let _ ← type
    expect .closeBracket
    let _ ← eat .question
    let value ← annotated .colon type
    return some (.index (value.getD (.keyword .any)) modifiers)
  else
    skipGroup .openBracket .closeBracket
    let _ ← eat .question
    let t ← peek
    if t.isPunct .openParen || t.isPunct .less then
      let _ ← fnSig type
    else
      let _ ← annotated .colon type
    return none

/-- A member with a name, after its modifiers. -/
def namedMember (type : Reader TypeExpr) (words : List String) : Reader (Option Member) := do
  let name ← propertyName
  let modifiers := modifiersOf words
  let modifiers := { modifiers with hidden := modifiers.hidden || name.toList.head? == some '#' }
  let optional ← eat .question
  let _ ← eat .bang
  let t ← peek
  if t.isPunct .openParen || t.isPunct .less then
    let sig ← fnSig type
    skipBody
    match accessor? words with
    | some "get" => return some (.property name optional sig.ret modifiers)
    | some _ => return none
    | none => return some (.method name optional sig modifiers)
  else
    let ty ← annotated .colon type
    if ← eat .equals then skipValue
    return some (.property name optional ty modifiers)

/-- A member of a class, an interface or an object type; some say nothing. -/
def member (type : Reader TypeExpr) (inClass : Bool) : Reader (Option Member) := do
  let words ← takeWords memberModifiers startsMember
  let _ ← eat .star
  let t ← peek
  let u ← peekAt 1
  let sigNext := u.isPunct .openParen || u.isPunct .less
  if t.isPunct .openBracket then bracketMember type (modifiersOf words)
  else if t.isPunct .openParen || t.isPunct .less then return some (.call (← fnSig type))
  else if t.isTheWord "new" && sigNext then
    let _ ← bump
    return some (.constructor (← fnSig type))
  else if inClass && t.isTheWord "constructor" && u.isPunct .openParen then
    let _ ← bump
    let sig ← fnSig type
    skipBody
    return some (.constructor sig)
  else namedMember type words

/-- Members up to and with the closing brace, with at most `fuel` steps. -/
def membersTo (type : Reader TypeExpr) (inClass : Bool) : Nat → Reader (List Member)
  | 0 => exhausted
  | fuel + 1 => do
    if ← eat .closeBrace then return []
    if ← atEnd then expected (.punct .closeBrace)
    if ← eat .semicolon then return ← membersTo type inClass fuel
    if ← eat .comma then return ← membersTo type inClass fuel
    let first ← member type inClass
    let others ← membersTo type inClass fuel
    return first.toList ++ others

/-- Members up to and with the closing brace. -/
def members (type : Reader TypeExpr) (inClass : Bool) : Reader (List Member) := do
  membersTo type inClass ((← left) + 1)

/-! ## Types -/

/-- The tokens from the first on that is no modifier of a mapped key. -/
def afterKeyModifiers (ts : List Token) : List Token :=
  ts.dropWhile fun t => t.isTheWord "readonly" || t.isPunct .plus || t.isPunct .minus

/-- Whether the object type that opens here maps over keys. -/
def mappedAhead : Reader Bool := fun c =>
  let r : Bool := match afterKeyModifiers c.rest.tail with
    | t :: u :: v :: _ => t.isPunct .openBracket && u.isWord && v.isTheWord "in"
    | _ => false
  .ok (r, c)

/-- An item of a tuple type, with or without a label. -/
def tupleItem (type : Reader TypeExpr) : Reader TupleItem := do
  let rest ← eat .ellipsis
  let t ← peek
  let u ← peekAt 1
  let v ← peekAt 2
  let labelled := t.isWord && (u.isPunct .colon || (u.isPunct .question && v.isPunct .colon))
  let optional ←
    if labelled then do
      let _ ← bump
      let optional ← eat .question
      expect .colon
      pure optional
    else pure false
  let ty ← type
  let marked ← eat .question
  return .mk ty (optional || marked) rest

/-- Names each after a dot, with at most `fuel` steps. -/
def dotNames : Nat → Reader Unit
  | 0 => exhausted
  | fuel + 1 => do
    if ← eat .dot then
      let _ ← name
      dotNames fuel

/-- The type of an imported module or of a part of it, which is passed over. -/
def importType (type : Reader TypeExpr) : Reader Unit := do
  let _ ← bump
  skipGroup .openParen .closeParen
  dotNames ((← left) + 1)
  let _ ← typeArgs type

/-- A name with type arguments. -/
def refType (type : Reader TypeExpr) : Reader TypeExpr := do
  let name ← qualifiedName
  let args ← typeArgs type
  return .ref name args

/-- A type that starts with the given word. -/
def wordType (type : Reader TypeExpr) (word : String) : Reader TypeExpr := do
  let u ← peekAt 1
  if word == "true" || word == "false" then
    let _ ← bump
    return .boolLiteral (word == "true")
  else if word == "typeof" then
    let _ ← bump
    if ← atWord "import" then
      importType type
      return .computed
    else
      let name ← qualifiedName
      let _ ← typeArgs type
      return .query name
  else if word == "import" && u.isPunct .openParen then
    importType type
    return .computed
  else
    match Keyword.ofWord? word with
    | some k =>
      if u.isPunct .dot then refType type
      else
        let _ ← bump
        return .keyword k
    | none => refType type

/-- A type without operators around it. -/
def primaryType (type : Reader TypeExpr) : Reader TypeExpr := do
  match (← peek).kind with
  | .punct .openParen =>
    let _ ← bump
    let ty ← type
    expect .closeParen
    return ty
  | .punct .openBrace =>
    if ← mappedAhead then
      skipGroup .openBrace .closeBrace
      return .computed
    else
      let _ ← bump
      return .object (← members type false)
  | .punct .openBracket =>
    let _ ← bump
    return .tuple (← listed .tuple (tupleItem type))
  | .punct .minus =>
    let _ ← bump
    match (← bump).kind with
    | .number x => return .numberLiteral (-x)
    | _ => expected .number
  | .text s =>
    let _ ← bump
    return .textLiteral s
  | .number x =>
    let _ ← bump
    return .numberLiteral x
  | .template =>
    let _ ← bump
    return .template
  | .word w => wordType type w
  | _ => expected .type

/-- The brackets after a type on its line: empty ones make it an array, others look into it. -/
def brackets (type : Reader TypeExpr) : Nat → TypeExpr → Reader TypeExpr
  | 0, _ => exhausted
  | fuel + 1, ty => do
    let t ← peek
    if t.isPunct .openBracket && !t.onNewLine then
      let _ ← bump
      if ← eat .closeBracket then brackets type fuel (.array ty)
      else
        let _ ← type
        expect .closeBracket
        brackets type fuel .computed
    else return ty

/-- A type with the brackets after it. -/
def postfixType (type : Reader TypeExpr) : Reader TypeExpr := do
  let ty ← primaryType type
  brackets type ((← left) + 1) ty

/-- Whether a token cannot start a type, so that a word before it is a name and no operator. -/
def endsOperand (t : Token) : Bool :=
  t.isPunct .comma || t.isPunct .closeParen || t.isPunct .greater || t.isPunct .closeBracket
    || t.isPunct .semicolon || t.isPunct .bar || t.isPunct .ampersand

/-- A type with the words in front that act on it, with at most `fuel` of them. -/
def operatorTo (type : Reader TypeExpr) : Nat → Reader TypeExpr
  | 0 => exhausted
  | fuel + 1 => do
    let t ← peek
    if endsOperand (← peekAt 1) then postfixType type
    else if t.isTheWord "keyof" then
      let _ ← bump
      return .keyof (← operatorTo type fuel)
    else if t.isTheWord "unique" || t.isTheWord "readonly" then
      let _ ← bump
      operatorTo type fuel
    else if t.isTheWord "infer" then
      let _ ← bump
      let _ ← name
      if ← eatWord "extends" then
        let _ ← operatorTo type fuel
      return .computed
    else postfixType type

/-- A type with the words in front that act on it. -/
def operatorWith (type : Reader TypeExpr) : Reader TypeExpr := do
  operatorTo type ((← left) + 1)

/-- The only one of the types, or all of them joined. -/
def joined (join : List TypeExpr → TypeExpr) : List TypeExpr → TypeExpr
  | [ty] => ty
  | tys => join tys

/-- Types joined by ampersands. -/
def intersectionType (type : Reader TypeExpr) : Reader TypeExpr := do
  let _ ← eat .ampersand
  return joined .intersection (← separated .ampersand (operatorWith type))

/-- Types joined by bars. -/
def unionType (type : Reader TypeExpr) : Reader TypeExpr := do
  let _ ← eat .bar
  return joined .union (← separated .bar (intersectionType type))

/-- A type, with `type` for those nested in it. -/
def typeWith (type : Reader TypeExpr) : Reader TypeExpr := do
  if (← atWord "abstract") && (← peekAt 1).isTheWord "new" then
    let _ ← bump
  let t ← peek
  let u ← peekAt 1
  if t.isTheWord "new" && (u.isPunct .openParen || u.isPunct .less) then
    let _ ← bump
    fnType type
  else if t.isPunct .less || (t.isPunct .openParen && (← arrowAhead)) then fnType type
  else
    let ty ← unionType type
    let t ← peek
    if t.isTheWord "extends" && !t.onNewLine then
      let _ ← bump
      let _ ← unionType type
      expect .question
      let _ ← type
      expect .colon
      let _ ← type
      return .computed
    else return ty

/-- A type nested at most `depth` deep. -/
def typeTo : Nat → Reader TypeExpr
  | 0 => exhausted
  | depth + 1 => typeWith (typeTo depth)

/-- A type. -/
def typeExpr : Reader TypeExpr := do
  typeTo ((← left) + 1)

/-- A type with the words in front that act on it, but not joined with others. -/
def operatorType : Reader TypeExpr := do
  operatorWith (typeTo (← left))

end ApiSurface.Declaration.Reader
