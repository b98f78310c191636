import ApiSurface.Decimal.Layout
import ApiSurface.Json.Basic

/-!
Writing JSON texts: on one line, or indented by two blanks a level. Numbers are written in the wire
layout; numbers that are not finite have no written form and become `null`.
-/

namespace ApiSurface.Json

open Decimal

/-- A character inside a text. -/
def escapedChar (c : Char) : List Char :=
  match c with
  | '"' => ['\\', '"']
  | '\\' => ['\\', '\\']
  | '\x08' => ['\\', 'b']
  | '\x0c' => ['\\', 'f']
  | '\n' => ['\\', 'n']
  | '\r' => ['\\', 'r']
  | '\t' => ['\\', 't']
  | c =>
    if c.toNat < 32 then
      ['\\', 'u', '0', '0', Nat.digitChar (c.toNat / 16), Nat.digitChar (c.toNat % 16)]
    else [c]

/-- A text between quotes. -/
def quotedText (s : String) : String :=
  String.ofList ('"' :: s.toList.flatMap escapedChar ++ ['"'])

/-- A double as a JSON number. -/
def realText (x : Float) : String :=
  match classify x with
  | .finite .. => Layout.wire.render x
  | _ => "null"

/-- The line break and blanks before an item of the given level. -/
def lineBreak (level : Nat) : String :=
  String.ofList ('\n' :: List.replicate (2 * level) ' ')

mutual

/-- A value in the indented form, as an item of the given level. -/
def pretty (level : Nat) : Json → String
  | .null | .refused => "null"
  | .bool b => if b then "true" else "false"
  | .integer n => toString n
  | .real x => realText x
  | .text s => quotedText s
  | .array [] => "[]"
  | .array (j :: r) =>
    "[" ++ lineBreak (level + 1) ++ pretty (level + 1) j ++ prettyItems (level + 1) r
      ++ lineBreak level ++ "]"
  | .object [] => "\x7b\x7d"
  | .object ((k, j) :: r) =>
    "\x7b" ++ lineBreak (level + 1) ++ quotedText k ++ ": " ++ pretty (level + 1) j
      ++ prettyFields (level + 1) r ++ lineBreak level ++ "\x7d"

/-- The items of an array after its first. -/
def prettyItems (level : Nat) : List Json → String
  | [] => ""
  | j :: r => "," ++ lineBreak level ++ pretty level j ++ prettyItems level r

/-- The fields of an object after its first. -/
def prettyFields (level : Nat) : List (String × Json) → String
  | [] => ""
  | (k, j) :: r =>
    "," ++ lineBreak level ++ quotedText k ++ ": " ++ pretty level j ++ prettyFields level r

end

theorem toList_pretty_array (level : Nat) (j : Json) (items : List Json) :
    (pretty level (.array (j :: items))).toList = '[' :: ((lineBreak (level + 1)).toList ++
      ((pretty (level + 1) j).toList ++ ((prettyItems (level + 1) items).toList ++
        ((lineBreak level).toList ++ [']'])))) := by
  rw [pretty]
  simp [String.toList_append]

theorem toList_prettyItems_cons (level : Nat) (j : Json) (items : List Json) :
    (prettyItems level (j :: items)).toList = ',' :: ((lineBreak level).toList ++
      ((pretty level j).toList ++ (prettyItems level items).toList)) := by
  rw [prettyItems]
  simp [String.toList_append]

theorem toList_pretty_object (level : Nat) (p : String × Json) (fields : List (String × Json)) :
    (pretty level (.object (p :: fields))).toList = '\x7b' :: ((lineBreak (level + 1)).toList ++
      ((quotedText p.1).toList ++ (':' :: ' ' :: ((pretty (level + 1) p.2).toList ++
        ((prettyFields (level + 1) fields).toList ++
          ((lineBreak level).toList ++ ['\x7d'])))))) := by
  obtain ⟨k, j⟩ := p
  rw [pretty]
  simp [String.toList_append]

theorem toList_prettyFields_cons (level : Nat) (p : String × Json) (fields : List (String × Json)) :
    (prettyFields level (p :: fields)).toList = ',' :: ((lineBreak level).toList ++
      ((quotedText p.1).toList ++ (':' :: ' ' :: ((pretty level p.2).toList ++
        (prettyFields level fields).toList)))) := by
  obtain ⟨k, j⟩ := p
  rw [prettyFields]
  simp [String.toList_append]

mutual

/-- A value on one line. -/
def compact : Json → String
  | .null | .refused => "null"
  | .bool b => if b then "true" else "false"
  | .integer n => toString n
  | .real x => realText x
  | .text s => quotedText s
  | .array [] => "[]"
  | .array (j :: r) => "[" ++ compact j ++ compactItems r ++ "]"
  | .object [] => "\x7b\x7d"
  | .object ((k, j) :: r) => "\x7b" ++ quotedText k ++ ":" ++ compact j ++ compactFields r ++ "\x7d"

/-- The items of an array after its first, on one line. -/
def compactItems : List Json → String
  | [] => ""
  | j :: r => "," ++ compact j ++ compactItems r

/-- The fields of an object after its first, on one line. -/
def compactFields : List (String × Json) → String
  | [] => ""
  | (k, j) :: r => "," ++ quotedText k ++ ":" ++ compact j ++ compactFields r

end

end ApiSurface.Json
