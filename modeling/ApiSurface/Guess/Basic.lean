import ApiSurface.Guess.Kind

/-!
Guesses: what is known about the type of a value. A guess is either nothing at all or a distribution
of mass over kinds, with what is known about the parts of the value if it is an object, an array or
an instance of a class.
-/

namespace ApiSurface

/-- Partial knowledge about the type of a value. -/
inductive Guess where
  /-- Nothing is known. -/
  | any
  /-- Mass by kind; guesses for the properties of an object, the items of an array, and the
  distribution over classes of an instance. -/
  | known (mass : List (Kind × Float)) (shape : Option (List (String × Guess)))
      (items : Option Guess) (classes : Option (List (String × Float)))

instance : Inhabited Guess := ⟨.any⟩

namespace Guess

/-- Whether nothing is known. -/
def isAny : Guess → Bool
  | any => true
  | known .. => false

/-- The mass of a kind in a distribution, zero when the kind is absent. -/
def massIn (mass : List (Kind × Float)) (k : Kind) : Float :=
  (Table.find? mass k).getD 0

/-- The kinds of a distribution whose mass is positive. -/
def positiveKinds (mass : List (Kind × Float)) : List Kind :=
  (mass.filter fun p => p.2 > 0).map Prod.fst

/-- The kinds that carry mass; none are listed when nothing is known. -/
def kinds : Guess → List Kind
  | any => []
  | known mass .. => positiveKinds mass

/-- Whether a value of the kind is possible. -/
def canBe (g : Guess) (k : Kind) : Bool :=
  match g with
  | any => true
  | known mass .. => massIn mass k > 0

/-- All mass on one kind that has no parts. -/
def ofKind (k : Kind) : Guess :=
  known [(k, 1)] none none none

/-- A number. -/
def number : Guess := ofKind .number

/-- A string. -/
def string : Guess := ofKind .string

/-- A truth value. -/
def boolean : Guess := ofKind .boolean

/-- The undefined value. -/
def undefined : Guess := ofKind .undefined

/-- The null value. -/
def null : Guess := ofKind .null

/-- Something that can be called. -/
def function : Guess := ofKind .function

/-- An instance of the class with the given constructor name. -/
def ofClass (name : String) : Guess :=
  known [(.ofClass, 1)] none none (some [(name, 1)])

/-- An object with the given guesses for its properties. -/
def object (shape : List (String × Guess)) : Guess :=
  known [(.object, 1)] (some shape) none none

/-- An array with the given guess for its items. -/
def array (items : Guess) : Guess :=
  known [(.array, 1)] none (some items) none

mutual

/-- The guess that a value is exactly as described. -/
def exact : ValueType → Guess
  | .number => number
  | .string => string
  | .boolean => boolean
  | .object shape => object (exactShape shape)
  | .ofClass name => ofClass name
  | .array item => array (exact item)
  | .undefined => undefined
  | .null => null
  | .function => function

/-- The exact guesses for the properties of an object. -/
def exactShape : List (String × ValueType) → List (String × Guess)
  | [] => []
  | (k, t) :: r => (k, exact t) :: exactShape r

end

mutual

/-- How deep guesses are nested in a guess. -/
def depth : Guess → Nat
  | any => 1
  | known _ shape items _ => max (shapeDepth shape) (itemsDepth items) + 1

/-- The depth of the deepest property, if there is a shape. -/
def shapeDepth : Option (List (String × Guess)) → Nat
  | none => 0
  | some shape => fieldsDepth shape

/-- The depth of the deepest of the properties. -/
def fieldsDepth : List (String × Guess) → Nat
  | [] => 0
  | (_, g) :: r => max (depth g) (fieldsDepth r)

/-- The depth of the items, if there is a guess for them. -/
def itemsDepth : Option Guess → Nat
  | none => 0
  | some g => depth g

end

/-- Whether two distributions hold equal masses under equal keys. -/
def sameMasses {κ : Type} [BEq κ] (a b : List (κ × Float)) : Bool :=
  a == b

mutual

/-- Equality of guesses, with masses compared as numbers. -/
def same : Guess → Guess → Bool
  | any, any => true
  | known m s i c, known m' s' i' c' => m == m' && sameShape s s' && sameItems i i' && c == c'
  | _, _ => false

/-- Equality of shapes. -/
def sameShape : Option (List (String × Guess)) → Option (List (String × Guess)) → Bool
  | none, none => true
  | some s, some s' => sameFields s s'
  | _, _ => false

/-- Equality of properties, in order. -/
def sameFields : List (String × Guess) → List (String × Guess) → Bool
  | [], [] => true
  | (k, g) :: r, (k', g') :: r' => k == k' && same g g' && sameFields r r'
  | _, _ => false

/-- Equality of guesses for items. -/
def sameItems : Option Guess → Option Guess → Bool
  | none, none => true
  | some g, some g' => same g g'
  | _, _ => false

end

instance : BEq Guess := ⟨same⟩

end Guess

end ApiSurface
