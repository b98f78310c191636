import ApiSurface.Decimal.Read
import ApiSurface.Json.Basic

/-!
Reading JSON texts. The functions here take the characters that are left and return a value with the
characters after it. Whatever the grammar forbids is a failure; what the grammar allows and no value
stands for becomes `Json.refused`. Keys that are numbers are written in digits, so a reader of a
table with such keys names the level on which keys may have no escapes: the keys of the outermost
object are on level 1, those of the objects in it on level 2.
-/

namespace ApiSurface.Json

open Decimal

/-- The characters of the list after its blanks. -/
def skipBlanks (cs : List Char) : List Char :=
  cs.dropWhile fun c => c = ' ' || c = '\n' || c = '\t' || c = '\r'

/-- The digits that the characters start with, and the rest. -/
def digits (cs : List Char) : List Char × List Char :=
  (cs.takeWhile Char.isDigit, cs.dropWhile Char.isDigit)

/-- A fraction: a point and at least one digit, or nothing. -/
def fraction : List Char → Option (Option (List Char) × List Char)
  | '.' :: r =>
    match digits r with
    | ([], _) => none
    | (ds, r) => some (some ds, r)
  | r => some (none, r)

/-- The digits of an exponent, after its sign. -/
def exponentDigits (negative : Bool) (cs : List Char) : Option (Option Int × List Char) :=
  match digits cs with
  | ([], _) => none
  | (ds, r) =>
    let e : Int := natOfDigits ds
    some (some (if negative then -e else e), r)

/-- An exponent: a letter, a sign or none, at least one digit; or nothing. -/
def exponent : List Char → Option (Option Int × List Char)
  | 'e' :: '+' :: r | 'E' :: '+' :: r => exponentDigits false r
  | 'e' :: '-' :: r | 'E' :: '-' :: r => exponentDigits true r
  | 'e' :: r | 'E' :: r => exponentDigits false r
  | r => some (none, r)

/-- The value of a number without fraction and exponent. -/
def wholeNumber (negative : Bool) (ds : List Char) : Json :=
  let n := natOfDigits ds
  if negative then
    if 0 < n ∧ n ≤ maxWord / 2 + 1 then .integer (-n)
    else if n ≤ maxWord then .real (-ofNat n)
    else match ofParts? ds [] 0 with
      | some x => .real (-x)
      | none => .refused
  else if n ≤ maxWord then .integer n
  else match ofParts? ds [] 0 with
    | some x => .real x
    | none => .refused

/-- The value of a number. -/
def numberValue (negative : Bool) (whole : List Char) : Option (List Char) → Option Int → Json
  | none, none => wholeNumber negative whole
  | fraction, exponent =>
    match ofParts? whole (fraction.getD []) (exponent.getD 0) with
    | some x => .real (if negative then -x else x)
    | none => .refused

/-- The digits before the point: a zero alone, or digits of which the first is no zero. -/
def wholeDigits : List Char → Option (List Char × List Char)
  | '0' :: r => if (r.head?.map Char.isDigit).getD false then none else some (['0'], r)
  | r =>
    match digits r with
    | ([], _) => none
    | (ds, r) => some (ds, r)

/-- A number without its sign. -/
def unsigned (negative : Bool) (cs : List Char) : Option (Json × List Char) := do
  let (whole, cs) ← wholeDigits cs
  let (frac, cs) ← fraction cs
  let (exp, cs) ← exponent cs
  return (numberValue negative whole frac exp, cs)

/-- A number. -/
def number : List Char → Option (Json × List Char)
  | '-' :: r => unsigned true r
  | r => unsigned false r

/-- The value of a digit in base sixteen. -/
def hexValue (c : Char) : Option Nat :=
  if c.isDigit then some (c.toNat - '0'.toNat)
  else if 'a' ≤ c ∧ c ≤ 'f' then some (c.toNat - 'a'.toNat + 10)
  else if 'A' ≤ c ∧ c ≤ 'F' then some (c.toNat - 'A'.toNat + 10)
  else none

/-- Four digits in base sixteen. -/
def hexUnit (a b c d : Char) : Option Nat := do
  return (((← hexValue a) * 16 + (← hexValue b)) * 16 + (← hexValue c)) * 16 + (← hexValue d)

/-- A piece of a text as it stands between the quotes. -/
inductive Piece where
  | char (c : Char)
  /-- A unit of sixteen bits given by its number. -/
  | unit (n : Nat)

/-- The character of an escape of two characters. -/
def shortEscape : Char → Option Char
  | '"' => some '"'
  | '\\' => some '\\'
  | '/' => some '/'
  | 'b' => some '\x08'
  | 'f' => some '\x0c'
  | 'n' => some '\n'
  | 'r' => some '\r'
  | 't' => some '\t'
  | _ => none

/-- The pieces of a text up to its closing quote, and what follows the quote. -/
def pieces : List Char → Option (List Piece × List Char)
  | [] => none
  | '"' :: r => some ([], r)
  | '\\' :: 'u' :: a :: b :: c :: d :: r => do
    let n ← hexUnit a b c d
    let (ps, r) ← pieces r
    return (.unit n :: ps, r)
  | '\\' :: c :: r => do
    let c ← shortEscape c
    let (ps, r) ← pieces r
    return (.char c :: ps, r)
  | c :: r => do
    if c.toNat < 32 || c = '\\' then none
    let (ps, r) ← pieces r
    return (.char c :: ps, r)

theorem pieces_quote (r : List Char) : pieces ('"' :: r) = some ([], r) := by
  rw [pieces]

/-- Whether a unit opens a surrogate pair. -/
def isHigh (n : Nat) : Bool :=
  0xD800 ≤ n && n ≤ 0xDBFF

/-- Whether a unit closes a surrogate pair. -/
def isLow (n : Nat) : Bool :=
  0xDC00 ≤ n && n ≤ 0xDFFF

/-- The characters of the pieces; units that are half a pair spell nothing. -/
def spelled : List Piece → Option (List Char)
  | [] => some []
  | .char c :: r => (spelled r).map (c :: ·)
  | .unit n :: .unit m :: r =>
    if isHigh n then
      if isLow m then
        (spelled r).map (Char.ofNat ((n - 0xD800) * 1024 + (m - 0xDC00) + 0x10000) :: ·)
      else none
    else if isLow n then none
    else (spelled (.unit m :: r)).map (Char.ofNat n :: ·)
  | .unit n :: r => if isHigh n || isLow n then none else (spelled r).map (Char.ofNat n :: ·)

theorem spelled_nil : spelled [] = some [] := by
  rw [spelled]

/-- A text after its opening quote: its characters, if it spells any, and what follows. -/
def textBody (cs : List Char) : Option (Option String × List Char) := do
  let (ps, r) ← pieces cs
  return ((spelled ps).map String.ofList, r)

/-- Whether a text, after its opening quote, has an escape before its closing quote. -/
def hasEscape (cs : List Char) : Bool :=
  (cs.takeWhile (· ≠ '"')).contains '\\'

/-- A key after its opening quote. Where a key has to be plain, one with an escape spells nothing.
-/
def keyBody (plain : Bool) (cs : List Char) : Option (Option String × List Char) := do
  let (s, r) ← textBody cs
  return (if plain && hasEscape cs then none else s, r)

/-- How many arrays and objects may enclose one another. -/
def maxNesting : Nat := 127

/-- An array or object inside `depth` others. -/
def container (depth : Nat) (j : Json) : Json :=
  if depth < maxNesting then j else .refused

/-- An object with keys of which some may spell nothing. -/
def objectOf (fields : List (Option String × Json)) : Json :=
  match fields.mapM fun f => f.1.map (·, f.2) with
  | some fs => .object fs
  | none => .refused

mutual

/-- A value inside `depth` arrays and objects. Keys on the level `plain` have to be plain. The fuel
bounds the characters that are left. -/
def value (plain : Option Nat) (fuel depth : Nat) (cs : List Char) : Option (Json × List Char) :=
  match fuel with
  | 0 => none
  | fuel + 1 =>
    match skipBlanks cs with
    | 'n' :: 'u' :: 'l' :: 'l' :: r => some (.null, r)
    | 't' :: 'r' :: 'u' :: 'e' :: r => some (.bool true, r)
    | 'f' :: 'a' :: 'l' :: 's' :: 'e' :: r => some (.bool false, r)
    | '"' :: r => do
      let (s, r) ← textBody r
      return (match s with | some s => .text s | none => .refused, r)
    | '[' :: r =>
      match skipBlanks r with
      | ']' :: r => some (container depth (.array []), r)
      | r => do
        let (items, r) ← elements plain fuel (depth + 1) r
        return (container depth (.array items), r)
    | '{' :: r =>
      match skipBlanks r with
      | '}' :: r => some (container depth (.object []), r)
      | r => do
        let (fields, r) ← members plain fuel (depth + 1) r
        return (container depth (objectOf fields), r)
    | r => number r

/-- The elements of an array, up to and with its closing bracket. -/
def elements (plain : Option Nat) (fuel depth : Nat) (cs : List Char) :
    Option (List Json × List Char) :=
  match fuel with
  | 0 => none
  | fuel + 1 => do
    let (item, r) ← value plain fuel depth cs
    match skipBlanks r with
    | ']' :: r => return ([item], r)
    | ',' :: r =>
      let (items, r) ← elements plain fuel depth r
      return (item :: items, r)
    | _ => none

/-- The fields of an object, up to and with its closing brace. -/
def members (plain : Option Nat) (fuel depth : Nat) (cs : List Char) :
    Option (List (Option String × Json) × List Char) :=
  match fuel with
  | 0 => none
  | fuel + 1 =>
    match skipBlanks cs with
    | '"' :: r => do
      let (key, r) ← keyBody (plain == some depth) r
      match skipBlanks r with
      | ':' :: r =>
        let (item, r) ← value plain fuel depth r
        match skipBlanks r with
        | '}' :: r => return ([(key, item)], r)
        | ',' :: r =>
          let (fields, r) ← members plain fuel depth r
          return ((key, item) :: fields, r)
        | _ => none
      | _ => none
    | _ => none

end

/-- The value that a text holds, with nothing but blanks around it. Keys on the level `plain`, if
there is one, have to be plain. -/
def readPlain? (plain : Option Nat) (s : String) : Option Json :=
  let cs := s.toList
  match value plain (2 * cs.length + 2) 0 cs with
  | some (j, r) => if (skipBlanks r).isEmpty then some j else none
  | none => none

/-- The value that a text holds, whatever its keys are. -/
def read? (s : String) : Option Json :=
  readPlain? none s

end ApiSurface.Json
