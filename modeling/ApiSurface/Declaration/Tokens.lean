import ApiSurface.Decimal.Read
import ApiSurface.Declaration.Token

/-!
Cutting a declaration text into tokens. `scan` looks at the first character and says what stands
there and how many more characters belong to it; `tokensFrom` walks over the text and keeps the
places.
-/

namespace ApiSurface.Declaration

open Decimal

/-- Why a text has no tokens. -/
inductive LexicalProblem where
  | openComment
  | openText
  | openTemplate
  | badNumber (text : String)
  | badCharacter (c : Char)
  deriving Repr, DecidableEq

/-- The wording of a problem. -/
def LexicalProblem.message : LexicalProblem → String
  | openComment => "unterminated block comment"
  | openText => "unterminated string literal"
  | openTemplate => "unterminated template literal"
  | badNumber text => "invalid numeric literal " ++ text
  | badCharacter c => "unexpected character " ++ Text.quotedChar c

/-- What stands at a place of a text. -/
inductive Piece where
  /-- A blank or a comment. -/
  | gap
  | token (kind : TokenKind)

/-- The length of a block comment after its opening, with its closing. -/
def commentLength : List Char → Option Nat
  | [] => none
  | '*' :: '/' :: _ => some 2
  | _ :: r => (commentLength r).map (· + 1)

/-- The character that an escape in a text stands for. -/
def unescaped : Char → Char
  | 'n' => '\n'
  | 't' => '\t'
  | c => c

/-- The length of a text after its opening quote, with its closing quote, and its characters. -/
def textBody (quote : Char) : List Char → Option (Nat × List Char)
  | [] => none
  | [c] => if c = quote then some (1, []) else none
  | c :: d :: r =>
    if c = '\n' then none
    else if c = quote then some (1, [])
    else if c = '\\' then (textBody quote r).map fun (n, cs) => (n + 2, unescaped d :: cs)
    else (textBody quote (d :: r)).map fun (n, cs) => (n + 1, c :: cs)

/-- The length of a template text after its opening quote, with its closing quote, inside `depth`
pairs of braces. -/
def templateLength (depth : Nat) : List Char → Option Nat
  | [] => none
  | '\\' :: [] => none
  | '\\' :: _ :: r => (templateLength depth r).map (· + 2)
  | '$' :: '{' :: r => (templateLength (depth + 1) r).map (· + 2)
  | c :: r =>
    if c = '\x60' && depth == 0 then some 1
    else if c = '}' && depth != 0 then (templateLength (depth - 1) r).map (· + 1)
    else (templateLength depth r).map (· + 1)

/-- Whether a character may stand in a number after its first character. -/
def inNumber (c : Char) : Bool :=
  c.isAlphanum || c = '.' || c = '_'

/-- Whether a character may start a word. -/
def startsWord (c : Char) : Bool :=
  Text.isAlphabetic c || c = '_' || c = '$' || c = '#'

/-- Whether a character may stand in a word after its first character. -/
def inWord (c : Char) : Bool :=
  Text.isAlphanumeric c || c = '_' || c = '$'

/-- The value of a digit in a base up to sixteen, lower case. -/
def digitIn? (base : Nat) (c : Char) : Option Nat :=
  let n := if c.isDigit then c.toNat - '0'.toNat
    else if 'a' ≤ c ∧ c ≤ 'f' then c.toNat - 'a'.toNat + 10
    else 16
  if n < base then some n else none

/-- The characters without those of the given kind at the end. -/
def withoutLast (c : Char) (cs : List Char) : List Char :=
  (cs.reverse.dropWhile (· = c)).reverse

/-- A whole number of 64 bits in the given base. -/
def wholeIn? (base : Nat) (cs : List Char) : Option Float := do
  if cs.isEmpty then none
  let ds ← cs.mapM (digitIn? base)
  let n := ds.foldl (fun n d => n * base + d) 0
  if n ≤ maxWord then some (ofNat n) else none

/-- The value of a numeric literal: a base other than ten may be marked in front, an `n` at the end
says that the number is whole. -/
def numberValue? (cs : List Char) : Option Float :=
  let cs := cs.map Char.toLower
  let digits := withoutLast 'n'
  match cs with
  | '0' :: 'x' :: r => wholeIn? 16 (digits r)
  | '0' :: 'b' :: r => wholeIn? 2 (digits r)
  | '0' :: 'o' :: r => wholeIn? 8 (digits r)
  | cs => literal? (digits cs)

/-- A number and the count of its characters after the first one. -/
def scanNumber (c : Char) (r : List Char) : Except LexicalProblem (Piece × Nat) :=
  let tail := r.takeWhile inNumber
  let cs := (c :: tail).filter (· ≠ '_')
  match numberValue? cs with
  | some x => .ok (.token (.number x), tail.length)
  | none => .error (.badNumber (String.ofList cs))

/-- Whether the characters start with a digit. -/
def digitAhead : List Char → Bool
  | c :: _ => c.isDigit
  | [] => false

/-- What stands at the first character of a text, and how many of the following ones belong to it.
-/
def scan (c : Char) (r : List Char) : Except LexicalProblem (Piece × Nat) :=
  if Text.isBlank c then .ok (.gap, 0)
  else if c = '/' && r.head? == some '/' then .ok (.gap, (r.takeWhile (· ≠ '\n')).length)
  else if c = '/' && r.head? == some '*' then
    match commentLength (r.drop 1) with
    | some n => .ok (.gap, n + 1)
    | none => .error .openComment
  else if c = '"' || c = '\'' then
    match textBody c r with
    | some (n, cs) => .ok (.token (.text (String.ofList cs)), n)
    | none => .error .openText
  else if c = '\x60' then
    match templateLength 0 r with
    | some n => .ok (.token .template, n)
    | none => .error .openTemplate
  else if c.isDigit || (c = '.' && digitAhead r) then scanNumber c r
  else if startsWord c then
    let tail := r.takeWhile inWord
    .ok (.token (.word (String.ofList (c :: tail))), tail.length)
  else
    match Punct.all.find? fun p => p.chars.isPrefixOf (c :: r) with
    | some p => .ok (.token (.punct p), p.chars.length - 1)
    | none => .error (.badCharacter c)

/-- A lexical problem with its place. -/
structure LexicalError where
  place : Position
  problem : LexicalProblem
  deriving Repr, DecidableEq

/-- The tokens of the rest of a text that begins at `place`. `newLine` says whether there was a line
break since the last token. The place after the text comes with them. -/
def tokensFrom (place : Position) (newLine : Bool) :
    List Char → Except LexicalError (List Token × Position)
  | [] => .ok ([], place)
  | c :: r =>
    match scan c r with
    | .error problem => .error ⟨place, problem⟩
    | .ok (piece, n) =>
      let lexeme := c :: r.take n
      let after := place.over lexeme
      match piece with
      | .gap => tokensFrom after (newLine || lexeme.contains '\n') (r.drop n)
      | .token kind =>
        match tokensFrom after false (r.drop n) with
        | .ok (ts, last) => .ok (⟨kind, place, newLine⟩ :: ts, last)
        | .error e => .error e
termination_by cs => cs.length
decreasing_by all_goals simp only [List.length_drop, List.length_cons]; omega

/-- The tokens of a text, and the place after it. -/
def tokens (cs : List Char) : Except LexicalError (List Token × Position) :=
  tokensFrom .start false cs

end ApiSurface.Declaration
