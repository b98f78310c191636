import ApiSurface.Decimal.Shortest

/-!
How a double is written: which exponents are written out in places, whether a whole number keeps a
fraction digit, how an exponent is marked. Each output of the library has one `Layout`.
-/

namespace ApiSurface.Decimal

/-- The decisions of one written form of doubles. -/
structure Layout where
  /-- Exponents of the leading digit that are written out in places; `none` for all of them. -/
  places : Option (Int × Int)
  /-- Whether a whole number ends in `.0`. -/
  wholePoint : Bool
  /-- Whether an exponent that is not negative has a sign. -/
  plus : Bool
  /-- Whether a tie between two shortest decimals goes up, not to the even one. -/
  tieUp : Bool

/-- The form of numbers in JSON texts. -/
def Layout.wire : Layout :=
  { places := some (-5, 15), wholePoint := true, plus := true, tieUp := false }

/-- The plain form: every number in places, whole numbers without a point. -/
def Layout.plain : Layout :=
  { places := none, wholePoint := false, plus := false, tieUp := true }

/-- The form in diagnostics: a fraction digit or an exponent is always there. -/
def Layout.diagnostic : Layout :=
  { places := some (-4, 15), wholePoint := true, plus := false, tieUp := true }

/-- `count` zeros. -/
def zeros (count : Nat) : String :=
  String.ofList (List.replicate count '0')

/-- The digits in places: `lead` is the exponent of the first of them. -/
def Layout.inPlaces (l : Layout) (digits : List Char) (lead : Int) : String :=
  if lead < 0 then "0." ++ zeros (-lead - 1).toNat ++ String.ofList digits
  else
    let whole := lead.toNat + 1
    if digits.length ≤ whole then
      String.ofList digits ++ zeros (whole - digits.length) ++ (if l.wholePoint then ".0" else "")
    else String.ofList (digits.take whole) ++ "." ++ String.ofList (digits.drop whole)

/-- The digits with an exponent: one digit before the point. -/
def Layout.withExponent (l : Layout) (digits : List Char) (lead : Int) : String :=
  let mantissa := match digits with
    | [] => ""
    | [d] => String.ofList [d]
    | d :: r => String.ofList (d :: '.' :: r)
  let sign := if lead < 0 then "-" else if l.plus then "+" else ""
  mantissa ++ "e" ++ sign ++ toString lead.natAbs

/-- A positive number with the given digits and exponent of the first digit. -/
def Layout.digits (l : Layout) (digits : List Char) (lead : Int) : String :=
  match l.places with
  | none => l.inPlaces digits lead
  | some (low, high) =>
    if low ≤ lead && lead ≤ high then l.inPlaces digits lead else l.withExponent digits lead

/-- A double in the given form. -/
def Layout.render (l : Layout) (x : Float) : String :=
  match classify x with
  | .notANumber => "NaN"
  | .infinite negative => if negative then "-inf" else "inf"
  | .finite negative m q =>
    let sign := if negative then "-" else ""
    if m = 0 then sign ++ "0" ++ (if l.wholePoint then ".0" else "")
    else
      let (n, k) := shortest l.tieUp m q
      let ds := Nat.toDigits 10 n
      sign ++ l.digits ds (k + ds.length - 1)

/-- The bits of a double as sixteen digits in base sixteen. -/
def bitsText (x : Float) : String :=
  let ds := Nat.toDigits 16 x.toBits.toNat
  zeros (16 - ds.length) ++ String.ofList ds

end ApiSurface.Decimal
