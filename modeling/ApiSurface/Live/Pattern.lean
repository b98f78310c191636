/-!
The structure of regular expressions: groups and character classes are closed, and no escape stands
at the end. Nothing else is asked of a pattern. Flags are letters of a fixed set, none of them
twice.
-/

namespace ApiSurface.Live.Pattern

/-- What is wrong with the structure of a pattern. -/
inductive Fault where
  | trailingEscape
  | unmatchedClose
  | unclosedClass
  | unclosedGroup
  deriving Repr, DecidableEq

/-- The wording of a fault. -/
def Fault.message : Fault → String
  | trailingEscape => "\\ at end of pattern"
  | unmatchedClose => "Unmatched ')'"
  | unclosedClass => "Unterminated character class"
  | unclosedGroup => "Unterminated group"

mutual

/-- The first fault of a pattern of which `depth` groups are open. -/
def fault? (depth : Nat) : List Char → Option Fault
  | [] => if depth = 0 then none else some .unclosedGroup
  | '\\' :: [] => some .trailingEscape
  | '\\' :: _ :: r => fault? depth r
  | '[' :: r => classFault? depth r
  | '(' :: r => fault? (depth + 1) r
  | ')' :: r => if depth = 0 then some .unmatchedClose else fault? (depth - 1) r
  | _ :: r => fault? depth r

/-- The first fault of a pattern of which a character class and `depth` groups are open. -/
def classFault? (depth : Nat) : List Char → Option Fault
  | [] => some .unclosedClass
  | '\\' :: [] => some .trailingEscape
  | '\\' :: _ :: r => classFault? depth r
  | ']' :: r => fault? depth r
  | _ :: r => classFault? depth r

end

/-- The letters that may stand as flags. -/
def flagLetters : List Char :=
  ['d', 'g', 'i', 'm', 's', 'u', 'v', 'y']

/-- Whether the flags are known letters, none of them twice. -/
def validFlags : List Char → Bool
  | [] => true
  | c :: r => flagLetters.contains c && !r.contains c && validFlags r

end ApiSurface.Live.Pattern
