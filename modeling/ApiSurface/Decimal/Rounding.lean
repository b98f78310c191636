import ApiSurface.Decimal.Shortest

/-!
Doubles rounded to whole numbers and to three decimal places.
-/

namespace ApiSurface.Decimal

/-- The whole number nearest to `m · 2 ^ -d`, a half going away from zero. -/
def halfUp (m d : Nat) : Nat :=
  (2 * m + Nat.pow 2 d) / Nat.pow 2 (d + 1)

/-- The whole number nearest to a double, a half going away from zero; the sign is kept. -/
def roundWhole (x : Float) : Float :=
  match classify x with
  | .finite negative m q =>
    if 0 ≤ q then x
    else
      let n := (halfUp m (-q).toNat).toUInt64.toFloat
      if negative then -n else n
  | _ => x

/-- A double rounded to three decimal places, the precision of every stored mass. -/
def roundMass (x : Float) : Float :=
  roundWhole (x * 1e3) / 1e3

end ApiSurface.Decimal
