import ApiSurface.Declaration.Tokens

/-!
Reading from a list of tokens. A `Reader` looks at the tokens that are left, takes some from the
front, and returns a value or says what it expected instead of the token it found.
-/

namespace ApiSurface.Declaration

/-- The lists whose items are separated by commas. -/
inductive ListKind where
  | exportList
  | enumeration
  | typeParams
  | params
  | typeArgs
  | tuple
  deriving Repr, DecidableEq

/-- The punctuator that ends a list. -/
def ListKind.close : ListKind → Punct
  | exportList => .closeBrace
  | enumeration => .closeBrace
  | typeParams => .greater
  | params => .closeParen
  | typeArgs => .greater
  | tuple => .closeBracket

/-- What a list is called in error messages. -/
def ListKind.name : ListKind → String
  | exportList => "export list"
  | enumeration => "enum"
  | typeParams => "type parameters"
  | params => "parameter list"
  | typeArgs => "type arguments"
  | tuple => "tuple type"

/-- What is expected at a place. -/
inductive Expected where
  | punct (p : Punct)
  | name
  | propertyName
  | declaration
  | type
  | source
  | number
  | commaOrClose (list : ListKind)
  deriving Repr, DecidableEq

/-- The wording of what is expected. -/
def Expected.message : Expected → String
  | punct p => "expected `" ++ p.text ++ "`"
  | name => "expected identifier"
  | propertyName => "expected property name"
  | declaration => "expected declaration"
  | type => "expected type"
  | source => "expected module specifier"
  | number => "expected numeric literal after `-`"
  | commaOrClose list => "expected `,` or `" ++ list.close.text ++ "` in " ++ list.name

/-- Why a text is no list of statements. -/
inductive SyntaxError where
  | lexical (e : LexicalError)
  | unexpected (place : Position) (expected : Expected) (found : TokenKind)
  /-- The bound on the steps of a loop was reached, which takes more steps than there are tokens. -/
  | exhausted

/-- The wording of an error, after its place. -/
def SyntaxError.message : SyntaxError → String
  | lexical e => e.place.text ++ e.problem.message
  | unexpected place expected found =>
    place.text ++ expected.message ++ " (found " ++ found.describe ++ ")"
  | exhausted => "out of steps"

/-- The tokens that are left, and the token that stands for the end of the text. -/
structure Cursor where
  rest : List Token
  finish : Token

/-- A function that takes tokens from the front. -/
abbrev Reader (α : Type) := StateT Cursor (Except SyntaxError) α

namespace Cursor

/-- The token `n` places ahead; from the end of the text on, the token that stands for the end. -/
def ahead (c : Cursor) (n : Nat) : Token :=
  c.rest.getD n c.finish

/-- The next token. -/
def next (c : Cursor) : Token :=
  c.ahead 0

/-- The cursor after the next token; at the end it stays. -/
def skip (c : Cursor) : Cursor :=
  { c with rest := c.rest.tail }

end Cursor

namespace Reader

/-- The next token. -/
def peek : Reader Token := fun c => .ok (c.next, c)

/-- The token `n` places ahead. -/
def peekAt (n : Nat) : Reader Token := fun c => .ok (c.ahead n, c)

/-- Takes the next token. -/
def bump : Reader Token := fun c => .ok (c.next, c.skip)

/-- The number of tokens that are left. -/
def left : Reader Nat := fun c => .ok (c.rest.length, c)

/-- Fails at the next token. -/
def expected {α : Type} (e : Expected) : Reader α := fun c =>
  .error (.unexpected c.next.place e c.next.kind)

/-- Fails because the bound on steps is reached. -/
def exhausted {α : Type} : Reader α := fun _ => .error .exhausted

/-- Replaces the tokens that are left. -/
def setRest (ts : List Token) : Reader Unit := fun c => .ok ((), { c with rest := ts })

/-- Whether the next token is the punctuator. -/
def atPunct (p : Punct) : Reader Bool := return (← peek).isPunct p

/-- Whether the next token is the word. -/
def atWord (w : String) : Reader Bool := return (← peek).isTheWord w

/-- Whether the text is at its end. -/
def atEnd : Reader Bool := fun c => .ok (c.rest.isEmpty, c)

/-- Takes the punctuator if it is next, and says whether it was. -/
def eat (p : Punct) : Reader Bool := fun c =>
  if c.next.isPunct p then .ok (true, c.skip) else .ok (false, c)

/-- Takes the word if it is next, and says whether it was. -/
def eatWord (w : String) : Reader Bool := fun c =>
  if c.next.isTheWord w then .ok (true, c.skip) else .ok (false, c)

/-- Takes the punctuator, which has to be next. -/
def expect (p : Punct) : Reader Unit := fun c =>
  if c.next.isPunct p then .ok ((), c.skip) else expected (.punct p) c

/-- Takes a word, which has to be next. -/
def name : Reader String := fun c =>
  match c.next.kind with
  | .word w => .ok (w, c.skip)
  | _ => expected .name c

/-- Takes the name of a property: a word, a text or a number. -/
def propertyName : Reader String := fun c =>
  match c.next.kind with
  | .word w => .ok (w, c.skip)
  | .text s => .ok (s, c.skip)
  | .number x => .ok (Decimal.Layout.plain.render x, c.skip)
  | _ => expected .propertyName c

/-- Takes all semicolons that are next. -/
def semicolons : Reader Unit := fun c =>
  .ok ((), { c with rest := c.rest.dropWhile fun t => t.isPunct .semicolon })

/-- Takes a type annotation's colon and what follows, if the colon is next. -/
def annotated {α : Type} (p : Punct) (r : Reader α) : Reader (Option α) := do
  if ← eat p then return some (← r) else return none

/-- Takes names joined by dots; a dot that no name follows is left. -/
def dottedRest : List Token → List String × List Token
  | t :: u :: r =>
    match t.isPunct .dot, u.word? with
    | true, some w => let (ws, r) := dottedRest r; (w :: ws, r)
    | _, _ => ([], t :: u :: r)
  | ts => ([], ts)

/-- Takes a name that may be qualified. -/
def qualifiedName : Reader (List String) := do
  let first ← name
  fun c =>
    let (ws, ts) := dottedRest c.rest
    .ok (first :: ws, { c with rest := ts })

/-- The items of a list up to and with its closing punctuator, each read by `item`. -/
def itemsUntil {α : Type} (list : ListKind) (item : Reader α) : Nat → Reader (List α)
  | 0 => exhausted
  | fuel + 1 => do
    if ← eat list.close then return []
    let first ← item
    if !(← eat .comma) && !(← atPunct list.close) then expected (.commaOrClose list)
    return first :: (← itemsUntil list item fuel)

/-- The items of a list up to and with its closing punctuator. -/
def listed {α : Type} (list : ListKind) (item : Reader α) : Reader (List α) := do
  itemsUntil list item ((← left) + 1)

/-- An item and the ones after it, each after `sep`. -/
def itemsAfter {α : Type} (sep : Punct) (item : Reader α) : Nat → Reader (List α)
  | 0 => exhausted
  | fuel + 1 => do
    let first ← item
    if ← eat sep then return first :: (← itemsAfter sep item fuel) else return [first]

/-- One item or more, with `sep` between neighbours. -/
def separated {α : Type} (sep : Punct) (item : Reader α) : Reader (List α) := do
  itemsAfter sep item ((← left) + 1)

/-- The words of the list that are next, up to one that no token of the given sort follows. -/
def leadingWords (words : List String) (followed : Token → Bool) :
    List Token → List String × List Token
  | t :: u :: r =>
    match t.word? with
    | some w =>
      if words.contains w && followed u then
        let (ws, ts) := leadingWords words followed (u :: r)
        (w :: ws, ts)
      else ([], t :: u :: r)
    | none => ([], t :: u :: r)
  | ts => ([], ts)

/-- Takes the words of the list that are next, each followed by a token of the given sort. -/
def takeWords (words : List String) (followed : Token → Bool) : Reader (List String) := fun c =>
  let (ws, ts) := leadingWords words followed c.rest
  .ok (ws, { c with rest := ts })

/-! ## Skipping -/

/-- The tokens after the punctuator `closing` that ends `depth` groups. -/
def afterGroups (opening closing : Punct) : Nat → List Token → Option (List Token)
  | 0, ts => some ts
  | _ + 1, [] => none
  | depth + 1, t :: ts =>
    if t.isPunct opening then afterGroups opening closing (depth + 2) ts
    else if t.isPunct closing then afterGroups opening closing depth ts
    else afterGroups opening closing (depth + 1) ts

/-- Takes a group from its opening to its closing punctuator. -/
def skipGroup (opening closing : Punct) : Reader Unit := do
  expect opening
  fun c =>
    match afterGroups opening closing 1 c.rest with
    | some ts => .ok ((), { c with rest := ts })
    | none => .error (.unexpected c.finish.place (.punct closing) c.finish.kind)

/-- Whether a token ends an initial value that stands in no group. -/
def endsValue (t : Token) : Bool :=
  t.isPunct .comma || t.isPunct .semicolon || t.closes

/-- The tokens after an initial value, inside `depth` groups of it. -/
def afterValue : Nat → List Token → List Token
  | _, [] => []
  | 0, t :: ts =>
    if endsValue t then t :: ts else if t.opens then afterValue 1 ts else afterValue 0 ts
  | depth + 1, t :: ts =>
    if t.opens then afterValue (depth + 2) ts
    else if t.closes then afterValue depth ts
    else afterValue (depth + 1) ts

/-- Takes an initial value, up to the punctuator that ends it. -/
def skipValue : Reader Unit := fun c =>
  .ok ((), { c with rest := afterValue 0 c.rest })

/-- The words that may start a statement. -/
def statementStarts : List String :=
  ["export", "import", "declare", "function", "class", "interface", "type", "enum", "const", "let",
    "var", "namespace", "module", "abstract", "async", "global"]

/-- The tokens after a statement, inside `depth` groups of it: after a semicolon, before a closing
brace, or before a word on a new line that starts the next statement. -/
def afterStatement (first : Bool) : Nat → List Token → List Token
  | _, [] => []
  | 0, t :: ts =>
    if t.isPunct .semicolon then ts
    else if t.isPunct .closeBrace then t :: ts
    else if !first && t.onNewLine && t.isOneOf statementStarts then t :: ts
    else if t.opens then afterStatement false 1 ts
    else afterStatement false 0 ts
  | depth + 1, t :: ts =>
    if t.opens then afterStatement false (depth + 2) ts
    else if t.closes then afterStatement false depth ts
    else afterStatement false (depth + 1) ts

/-- Takes the rest of a statement. -/
def skipStatement : Reader Unit := fun c =>
  .ok ((), { c with rest := afterStatement true 0 c.rest })

/-- Whether the group that is open `depth` levels deep is followed by an arrow when it is closed. -/
def arrowAfter : Nat → List Token → Bool
  | _, [] => false
  | depth, t :: ts =>
    if t.opens then arrowAfter (depth + 1) ts
    else if t.closes then
      if depth ≤ 1 then (ts.head?.map fun u => u.isPunct .arrow).getD false
      else arrowAfter (depth - 1) ts
    else arrowAfter depth ts

/-- Whether the group that opens here is followed by an arrow. -/
def arrowAhead : Reader Bool := fun c => .ok (arrowAfter 0 c.rest, c)

end Reader

end ApiSurface.Declaration
