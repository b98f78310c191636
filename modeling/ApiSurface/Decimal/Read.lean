/-!
Decimals read as doubles. A text's digits are first gathered into a whole number that fits in 64
bits, then scaled by a power of ten; both steps round.
-/

namespace ApiSurface.Decimal

/-- The double nearest to `10 ^ e`. -/
def powerOfTen (e : Nat) : Float :=
  Float.ofScientific 1 false e

/-- The double nearest to a natural number. -/
def ofNat (n : Nat) : Float :=
  Float.ofScientific n false 0

/-- `x / 10 ^ e`, with at most 308 places at a time. -/
def scaleDown (x : Float) (e : Nat) : Float :=
  if e ≤ 308 then x / powerOfTen e
  else if x == 0 then x
  else scaleDown (x / powerOfTen 308) (e - 308)
termination_by e

/-- `n · 10 ^ e`, or nothing when that is beyond the largest double. -/
def scaled? (n : Nat) (e : Int) : Option Float :=
  let x := ofNat n
  if e < 0 then some (scaleDown x (-e).toNat)
  else if e ≤ 308 then
    let y := x * powerOfTen e.toNat
    if y.isInf then none else some y
  else if n = 0 then some x
  else none

/-- The value of a digit. -/
def digitValue (c : Char) : Nat :=
  c.toNat - '0'.toNat

/-- The whole number that the digits spell. -/
def natOfDigits (ds : List Char) : Nat :=
  ds.foldl (fun n c => 10 * n + digitValue c) 0

/-- The greatest natural number of 64 bits. -/
def maxWord : Nat := 18446744073709551615

/-- Appends digits to `n` as long as the number fits in 64 bits: the number reached and the digits
that were not taken in. -/
def gather (n : Nat) : List Char → Nat × List Char
  | [] => (n, [])
  | c :: r =>
    if 10 * n + digitValue c ≤ maxWord then gather (10 * n + digitValue c) r else (n, c :: r)

/-- The decimal `whole.fraction · 10 ^ exponent`: digits of the whole part that do not fit count as
zeros, digits of the fraction that do not fit are dropped. -/
def ofParts? (whole fraction : List Char) (exponent : Int) : Option Float :=
  let (n, rest) := gather 0 whole
  let (m, unread) := gather n fraction
  scaled? m (rest.length - (fraction.length - unread.length : Nat) + exponent)

/-- The double nearest to `n · 10 ^ e`; beyond the largest double it is infinite. Exponents far
outside the doubles are decided by the number of digits. -/
def nearest (n : Nat) (e : Int) : Float :=
  let lead := e + (Nat.toDigits 10 n).length
  if n = 0 then 0
  else if 400 < lead then Float.ofBits 0x7FF0000000000000
  else if lead < -400 then 0
  else Float.ofScientific n (e < 0) e.natAbs

/-- A decimal literal: digits with an optional point among or beside them and an optional exponent
without a sign. -/
def literal? (cs : List Char) : Option Float :=
  let whole := cs.takeWhile Char.isDigit
  let r := cs.dropWhile Char.isDigit
  let (fraction, r) := match r with
    | '.' :: r => (r.takeWhile Char.isDigit, r.dropWhile Char.isDigit)
    | r => ([], r)
  let ds := whole ++ fraction
  if ds.isEmpty then none
  else
    let n := natOfDigits ds
    let places : Int := fraction.length
    match r with
    | [] => some (nearest n (-places))
    | 'e' :: es =>
      if es.isEmpty || !es.all Char.isDigit then none
      else some (nearest n (natOfDigits es - places))
    | _ => none

end ApiSurface.Decimal
