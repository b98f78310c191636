import ApiSurface.Live.Host
import ApiSurface.Plan.Basic

/-!
Live values of the constants of a plan. Objects, arrays and functions are made afresh each time.
-/

namespace ApiSurface.Constant

open Live

variable {β : Type}

mutual

/-- A live value for a constant. -/
def materialize : Constant → Building (Code β) Value
  | number x => return .number x
  | string s => return .string s
  | boolean b => return .boolean b
  | undefined => return .undefined
  | null => return .null
  | function => Building.nothing
  | object fields => do Building.record (← materializeFields fields)
  | array items => do Building.array (← materializeItems items)

/-- Live values for the properties of an object. -/
def materializeFields : List (String × Constant) → Building (Code β) (List (String × Value))
  | [] => return []
  | (k, c) :: r => do
    let v ← materialize c
    return (k, v) :: (← materializeFields r)

/-- Live values for the items of an array. -/
def materializeItems : List Constant → Building (Code β) (List Value)
  | [] => return []
  | c :: r => do
    let v ← materialize c
    return v :: (← materializeItems r)

end

end ApiSurface.Constant
