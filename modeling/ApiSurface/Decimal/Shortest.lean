/-!
The shortest decimal that reads back as a given double, in exact arithmetic on natural numbers.

A finite double is `m · 2 ^ q`. The reals that round to it form an interval around it; for one
digit, two digits and so on the two neighbours of the value on that decimal grid are tested, the
first grid with a neighbour inside the interval wins, and of two such neighbours the nearer one.
-/

namespace ApiSurface.Decimal

/-- What the bits of a double stand for. -/
inductive Class where
  | notANumber
  | infinite (negative : Bool)
  | finite (negative : Bool) (mantissa : Nat) (exponent : Int)
  deriving Repr, DecidableEq

/-- The least mantissa of a double that is not subnormal, two to the power of 52. -/
def leastNormal : Nat := 4503599627370496

/-- Reads the bits of a double: sign, eleven bits of exponent, 52 bits of fraction. -/
def classify (x : Float) : Class :=
  let bits := x.toBits.toNat
  let negative := decide (2048 * leastNormal ≤ bits)
  let exponent : Nat := bits / leastNormal % 2048
  let fraction := bits % leastNormal
  if exponent = 2047 then
    if fraction = 0 then .infinite negative else .notANumber
  else if exponent = 0 then .finite negative fraction (-1074)
  else .finite negative (fraction + leastNormal) ((exponent : Int) - 1075)

/-- A positive rational as numerator over denominator. -/
structure Ratio where
  num : Nat
  den : Nat

/-- `n · 2 ^ q`. -/
def Ratio.dyadic (n : Nat) (q : Int) : Ratio :=
  ⟨n * Nat.pow 2 q.toNat, Nat.pow 2 (-q).toNat⟩

/-- The quotient of a ratio by `10 ^ k`. -/
def Ratio.scaled (r : Ratio) (k : Int) : Ratio :=
  ⟨r.num * Nat.pow 10 (-k).toNat, r.den * Nat.pow 10 k.toNat⟩

/-- Whether the natural number `n` is below the ratio. -/
def Ratio.above (r : Ratio) (n : Nat) : Bool :=
  n * r.den < r.num

/-- Whether the natural number `n` is above the ratio. -/
def Ratio.below (r : Ratio) (n : Nat) : Bool :=
  r.num < n * r.den

/-- The reals that round to `m · 2 ^ q`, each end four times as fine as the mantissa. The gap below
a power of two is half as wide as the one above it. -/
structure Interval where
  value : Ratio
  low : Ratio
  high : Ratio
  closed : Bool

/-- The interval of the double with the given mantissa and exponent. -/
def Interval.of (m : Nat) (q : Int) : Interval :=
  let down := if m = leastNormal && decide (-1074 < q) then 1 else 2
  { value := .dyadic (4 * m) (q - 2)
    low := .dyadic (4 * m - down) (q - 2)
    high := .dyadic (4 * m + 2) (q - 2)
    closed := m % 2 = 0 }

/-- The interval in units of `10 ^ k`. -/
def Interval.scaled (i : Interval) (k : Int) : Interval :=
  { i with value := i.value.scaled k, low := i.low.scaled k, high := i.high.scaled k }

/-- Whether the grid point `n` lies in the interval. -/
def Interval.holds (i : Interval) (n : Nat) : Bool :=
  if i.closed then !i.low.above n && !i.high.below n else i.low.below n && i.high.above n

/-- Which of the grid points `n` and `n + 1` is nearer to the value; `tieUp` decides a tie, which
otherwise goes to the even one. -/
def nearer (tieUp : Bool) (v : Ratio) (n : Nat) : Nat :=
  match compare (2 * v.num) ((2 * n + 1) * v.den) with
  | .lt => n
  | .gt => n + 1
  | .eq => if tieUp || n % 2 = 1 then n + 1 else n

/-- The neighbour of the value on the grid of natural numbers that reads back, if there is one. -/
def Interval.hit? (tieUp : Bool) (i : Interval) : Option Nat :=
  let n := i.value.num / i.value.den
  match 0 < n && i.holds n, i.holds (n + 1) with
  | true, true => some (nearer tieUp i.value n)
  | true, false => some n
  | false, true => some (n + 1)
  | false, false => none

/-- The largest `k` with `10 ^ k` not above the ratio, searched downward from `k`. -/
def Ratio.exponentFrom (r : Ratio) : Nat → Int → Int
  | 0, k => k
  | fuel + 1, k => if (r.scaled k).below 1 then r.exponentFrom fuel (k - 1) else k

/-- The decimal exponent of the leading digit of `m · 2 ^ q`. The exponent of two, times the
logarithm of two, is less than one away from it, so the search starts there and takes at most two
steps. -/
def leadingExponent (m : Nat) (q : Int) : Int :=
  (Ratio.dyadic m q).exponentFrom 4 ((m.log2 + q) * 30103 / 100000 + 1)

/-- Drops the zeros at the end of a number: `(n, k)` with `n · 10 ^ k` unchanged. -/
def withoutZeros : Nat → Nat → Int → Nat × Int
  | 0, n, k => (n, k)
  | fuel + 1, n, k => if n % 10 = 0 then withoutZeros fuel (n / 10) (k + 1) else (n, k)

/-- The first of the grids with `digits`, `digits + 1`, … digits that has a point in the interval.
-/
def Interval.search (tieUp : Bool) (i : Interval) (lead : Int) : Nat → Nat → Nat × Int
  | 0, digits => (i.value.num / i.value.den, lead - digits)
  | fuel + 1, digits =>
    let k := lead + 1 - digits
    match (i.scaled k).hit? tieUp with
    | some n => withoutZeros 20 n k
    | none => i.search tieUp lead fuel (digits + 1)

/-- The shortest decimal `n · 10 ^ k` that reads back as the positive double `m · 2 ^ q`. -/
def shortest (tieUp : Bool) (m : Nat) (q : Int) : Nat × Int :=
  let i := Interval.of m q
  i.search tieUp (leadingExponent m q) 18 1

end ApiSurface.Decimal
