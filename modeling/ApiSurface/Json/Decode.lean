import ApiSurface.Decimal.Read
import ApiSurface.Json.Basic
import ApiSurface.Table

/-!
Typed reading of JSON values. A decoder is a function to `Option`; records may be given as objects
or as arrays of their fields, variants as a name or as an object with the name as its only key.
-/

namespace ApiSurface.Json

/-- A truth value. -/
def bool? : Json → Option Bool
  | .bool b => some b
  | _ => none

/-- A text. -/
def text? : Json → Option String
  | .text s => some s
  | _ => none

/-- The double nearest to a whole number. -/
def realOfInt (n : Int) : Float :=
  if n < 0 then -Decimal.ofNat n.natAbs else Decimal.ofNat n.natAbs

/-- A number, whole or not, as a double. -/
def real? : Json → Option Float
  | .integer n => some (realOfInt n)
  | .real x => some x
  | _ => none

/-- A natural number below `bound`. -/
def natBelow? (bound : Nat) : Json → Option Nat
  | .integer n => if 0 ≤ n ∧ n < bound then some n.toNat else none
  | _ => none

/-- A natural number of 64 bits. -/
def nat? : Json → Option Nat :=
  natBelow? (Decimal.maxWord + 1)

/-- The items of an array. -/
def items? : Json → Option (List Json)
  | .array items => some items
  | _ => none

/-- The fields of an object. -/
def fields? : Json → Option (List (String × Json))
  | .object fields => some fields
  | _ => none

/-- An array of which every item decodes. -/
def list? {α : Type} (decode : Json → Option α) (j : Json) : Option (List α) :=
  j.items?.bind (·.mapM decode)

/-- An object of which every key and value decodes; a repeated key keeps its last value. -/
def table? {κ α : Type} [Ord κ] (key : String → Option κ) (decode : Json → Option α) (j : Json) :
    Option (Table κ α) :=
  j.fields?.bind fun fs =>
    (fs.mapM fun (f : String × Json) => do return (← key f.1, ← decode f.2)).map Table.ofList

/-- The values of the fields with one of the given names. -/
def valuesOf (names : List String) (fields : List (String × Json)) : List Json :=
  (fields.filter fun f => names.contains f.1).map Prod.snd

/-- The value of a field that may be written at most once. -/
def fieldOf (fields : List (String × Json)) (names : List String) : Option (Option Json) :=
  match valuesOf names fields with
  | [] => some none
  | [j] => some (some j)
  | _ => none

/-- The fields of a record, each under the names it may have: from an object, or from an array in
order of declaration. A field that is not there is `none`. -/
def record? (names : List (List String)) : Json → Option (List (Option Json))
  | .object fields => names.mapM (fieldOf fields)
  | .array items =>
    if items.length ≤ names.length then
      some (items.map some ++ List.replicate (names.length - items.length) none)
    else none
  | _ => none

/-- A field that has to be there. -/
def required? {α : Type} (decode : Json → Option α) (field : Option Json) : Option α :=
  field.bind decode

/-- A field with a value that stands in when it is not there. -/
def defaulted? {α : Type} (dflt : α) (decode : Json → Option α) : Option Json → Option α
  | none => some dflt
  | some j => decode j

/-- A value that may be `null`. -/
def nullable? {α : Type} (decode : Json → Option α) : Json → Option (Option α)
  | .null => some none
  | j => (decode j).map some

/-- The name of a variant and what is written with it. -/
def variant? : Json → Option (String × Option Json)
  | .text name => some (name, none)
  | .object [(name, payload)] => some (name, some payload)
  | _ => none

/-- Whether nothing, or `null`, is written with a variant that carries nothing. -/
def isBare : Option Json → Bool
  | none | some .null => true
  | _ => false

end ApiSurface.Json
