import ApiSurface.Decimal.Read
import ApiSurface.Decimal.Rounding
import ApiSurface.Guess.Basic

/-!
Merging guesses. The union averages what is known kind by kind and part by part; the intersection
merges the shapes of objects, where of two guesses for one property the wider one stays.
-/

namespace ApiSurface.Guess

open Decimal

/-- The parts of a guess about which something is known. -/
structure Known where
  mass : List (Kind × Float)
  shape : Option (List (String × Guess))
  items : Option Guess
  classes : Option (List (String × Float))

/-- The parts of a guess, if anything is known. -/
def known? : Guess → Option Known
  | any => none
  | known mass shape items classes => some ⟨mass, shape, items, classes⟩

/-- The sum of masses, from the left. -/
def total (masses : List Float) : Float :=
  masses.foldl (· + ·) 0

/-- The rounded mean of masses over `count` operands. -/
def mean (count : Nat) (masses : List Float) : Float :=
  roundMass (total masses / ofNat count)

/-- The mean mass of every kind; a kind whose mean is zero is left out. -/
def meanMass (operands : List (List (Kind × Float))) : List (Kind × Float) :=
  Kind.all.filterMap fun k =>
    let m := mean operands.length (operands.map (massIn · k))
    if m == 0 then none else some (k, m)

/-- All keys of the tables, each once, in order. -/
def allKeys {α : Type} (tables : List (List (String × α))) : List String :=
  Table.keys (Table.ofList (tables.flatMap fun t => t.map fun p => (p.1, ())))

/-- The mean mass of every class over the distributions; a class whose mean is zero is left out. -/
def meanClasses (operands : List (List (String × Float))) : List (String × Float) :=
  (allKeys operands).filterMap fun name =>
    let m := mean operands.length (operands.filterMap (Table.find? · name))
    if m == 0 then none else some (name, m)

/-- The guesses for a property in the shapes; where it is missing it is undefined. -/
def propertyGuesses (shapes : List (List (String × Guess))) (key : String) : List Guess :=
  shapes.map fun s => (Table.find? s key).getD undefined

/-- What the operands give where the merged kinds keep mass on `k`; nothing when none gives any. -/
def keptIf {α β : Type} (mass : List (Kind × Float)) (k : Kind) (given : List α)
    (merge : List α → β) : Option β :=
  if given.isEmpty || !Table.has mass k then none else some (merge given)

/-- The union of what is known in the operands, with `merge` for guesses nested in them. -/
def unionKnown (merge : List Guess → Guess) (operands : List Known) : Guess :=
  let mass := meanMass (operands.map Known.mass)
  known mass
    (keptIf mass .object (operands.filterMap Known.shape) fun shapes =>
      (allKeys shapes).map fun key => (key, merge (propertyGuesses shapes key)))
    (keptIf mass .array (operands.filterMap Known.items) merge)
    (keptIf mass .ofClass (operands.filterMap Known.classes) meanClasses)

/-- The union of guesses nested at most `depth` deep: nothing is known as soon as nothing is known
in one operand, or when there are none. -/
def unionTo : Nat → List Guess → Guess
  | 0, _ => any
  | depth + 1, gs =>
    match gs.mapM known? with
    | none | some [] => any
    | some operands => unionKnown (unionTo depth) operands

/-- The depth of the deepest of the guesses. -/
def maxDepth (gs : List Guess) : Nat :=
  (gs.map depth).foldl max 1

/-- The union of guesses: the mean over the operands, kind by kind. -/
def union (gs : List Guess) : Guess :=
  unionTo (maxDepth gs + 1) gs

/-- A value of the described type, or undefined. -/
def optional (t : ValueType) : Guess :=
  union [exact t, undefined]

/-- Whether every kind of the first list is in the second one and not the other way round. -/
def strictlyWithin (a b : List Kind) : Bool :=
  a.all b.contains && !b.all a.contains

/-- The guess whose kinds strictly contain the other's, else the first; one about which nothing is
known always wins. -/
def wider (a b : Guess) : Guess :=
  match a, b with
  | any, _ => a
  | _, any => b
  | known m .., known m' .. => if strictlyWithin (positiveKinds m) (positiveKinds m') then b else a

/-- Merges the properties of an object into a shape. -/
def mergeShape (shape object : List (String × Guess)) : List (String × Guess) :=
  object.foldl (fun s p =>
    match Table.find? s p.1 with
    | some old => Table.insert s p.1 (wider old p.2)
    | none => Table.insert s p.1 p.2) shape

/-- The shape of a guess that is certainly an object. -/
def certainShape? : Guess → Option (List (String × Guess))
  | known mass (some shape) _ _ => if massIn mass .object == 1 then some shape else none
  | _ => none

/-- Merges the operands that are certainly objects into one object; without any, the union of the
operands about which something is known. -/
def intersect (gs : List Guess) : Guess :=
  let operands := gs.filter fun g => !g.isAny
  if operands.isEmpty then any
  else
    match operands.filterMap certainShape? with
    | [] => union operands
    | shapes => object (shapes.foldl mergeShape [])

end ApiSurface.Guess
