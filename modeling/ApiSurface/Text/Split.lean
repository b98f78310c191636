/-!
Searches in texts, as functions on lists of characters: prefixes, occurrences, the last dot of a
name.
-/

namespace ApiSurface.Text

/-- Whether `part` occurs in the list as a contiguous piece. -/
def occurs (part : List Char) : List Char → Bool
  | [] => part.isEmpty
  | c :: r => part.isPrefixOf (c :: r) || occurs part r

/-- Whether `part` occurs in `s`. -/
def contains (s part : String) : Bool :=
  occurs part.toList s.toList

/-- Whether `s` starts with `start`. -/
def startsWith (s start : String) : Bool :=
  start.toList.isPrefixOf s.toList

/-- What follows `start` in `s`, if `s` starts with it. -/
def after? (s start : String) : Option String :=
  if startsWith s start then some (String.ofList (s.toList.drop start.toList.length)) else none

/-- The pieces before and after the last occurrence of `sep`. -/
def splitLast (sep : Char) : List Char → Option (List Char × List Char)
  | [] => none
  | c :: r =>
    match splitLast sep r with
    | some (a, b) => some (c :: a, b)
    | none => if c = sep then some ([], r) else none

/-- The part of a dotted name before its last dot: the name of the class that owns a member. -/
def owner? (name : String) : Option String :=
  (splitLast '.' name.toList).map fun p => String.ofList p.1

end ApiSurface.Text
