import ApiSurface.Table

/-!
Kinds of values and exact descriptions of values. A description says what a value is made of; its
kind is the outermost part of that.
-/

namespace ApiSurface

/-- The kinds that a value may be of. -/
inductive Kind where
  | number
  | string
  | boolean
  | object
  | ofClass
  | array
  | undefined
  | null
  | function
  deriving Repr, DecidableEq

namespace Kind

/-- Every kind, in order. -/
def all : List Kind :=
  [number, string, boolean, object, ofClass, array, undefined, null, function]

/-- The place of a kind in the order. -/
def rank : Kind → Nat
  | number => 0
  | string => 1
  | boolean => 2
  | object => 3
  | ofClass => 4
  | array => 5
  | undefined => 6
  | null => 7
  | function => 8

instance : Ord Kind := ⟨fun a b => compare a.rank b.rank⟩

theorem rank_inj {a b : Kind} (h : a.rank = b.rank) : a = b := by
  cases a <;> cases b <;> first | rfl | cases h

theorem compare_eq (a b : Kind) : compare a b = compare a.rank b.rank := rfl

instance : Std.TransOrd Kind where
  eq_swap {_ _} := by
    rw [compare_eq, compare_eq]
    exact Std.OrientedCmp.eq_swap
  isLE_trans {_ _ _} h₁ h₂ := by
    rw [compare_eq] at *
    exact Std.TransCmp.isLE_trans h₁ h₂

instance : Std.LawfulEqOrd Kind where
  compare_self {_} := by
    rw [compare_eq]
    exact Std.ReflCmp.compare_self
  eq_of_compare {_ _} h := by
    rw [compare_eq] at h
    exact rank_inj (Std.LawfulEqCmp.eq_of_compare h)

/-- The written name of a kind. -/
def name : Kind → String
  | number => "Number"
  | string => "String"
  | boolean => "Boolean"
  | object => "Object"
  | ofClass => "Class"
  | array => "Array"
  | undefined => "Undefined"
  | null => "Null"
  | function => "Function"

/-- The kind with a written name. -/
def ofName? (s : String) : Option Kind :=
  all.find? fun k => k.name = s

theorem ofName?_name (k : Kind) : ofName? k.name = some k := by
  cases k <;> decide

end Kind

/-- An exact description of a value. -/
inductive ValueType where
  | number
  | string
  | boolean
  | object (shape : List (String × ValueType))
  /-- An instance of the class whose constructor has this name. -/
  | ofClass (name : String)
  | array (item : ValueType)
  | undefined
  | null
  /-- Something that can be called. -/
  | function

namespace ValueType

/-- The kind of the values with this description. -/
def kind : ValueType → Kind
  | number => .number
  | string => .string
  | boolean => .boolean
  | object _ => .object
  | ofClass _ => .ofClass
  | array _ => .array
  | undefined => .undefined
  | null => .null
  | function => .function

end ValueType

end ApiSurface
