import ApiSurface.Guess.Basic
import ApiSurface.Json.Decode

/-!
The written form of exact descriptions and of guesses. A guess is an object with a flag that says
whether anything is known; parts about which nothing is known are left out.
-/

namespace ApiSurface

open Json

/-- A variant that carries nothing. -/
def Json.bare (name : String) : Json := .text name

/-- A variant with what it carries. -/
def Json.tagged (name : String) (payload : Json) : Json := .object [(name, payload)]

/-- A kind written as a variant. -/
def Kind.decode? (j : Json) : Option Kind := do
  let (name, payload) ← j.variant?
  if isBare payload then Kind.ofName? name else none

mutual

/-- The written form of a description. -/
def ValueType.encode : ValueType → Json
  | .object shape => tagged "Object" (.object (ValueType.encodeShape shape))
  | .ofClass name => tagged "Class" (.text name)
  | .array item => tagged "Array" item.encode
  | .number => bare "Number"
  | .string => bare "String"
  | .boolean => bare "Boolean"
  | .undefined => bare "Undefined"
  | .null => bare "Null"
  | .function => bare "Function"

/-- The written form of the properties of an object. -/
def ValueType.encodeShape : List (String × ValueType) → List (String × Json)
  | [] => []
  | (k, t) :: r => (k, t.encode) :: ValueType.encodeShape r

end

/-- The description of a kind that has no parts. -/
def ValueType.ofBareName? : String → Option ValueType
  | "Number" => some .number
  | "String" => some .string
  | "Boolean" => some .boolean
  | "Undefined" => some .undefined
  | "Null" => some .null
  | "Function" => some .function
  | _ => none

mutual

/-- Reads a description. -/
def ValueType.decode? : Json → Option ValueType
  | .text name => ValueType.ofBareName? name
  | .object [("Object", .object fields)] =>
    (ValueType.decodeShape? fields).map fun fs => .object (Table.ofList fs)
  | .object [("Class", .text name)] => some (.ofClass name)
  | .object [("Array", item)] => (ValueType.decode? item).map .array
  | .object [(name, .null)] => ValueType.ofBareName? name
  | _ => none

/-- Reads the properties of an object. -/
def ValueType.decodeShape? : List (String × Json) → Option (List (String × ValueType))
  | [] => some []
  | (k, j) :: r => do
    let t ← ValueType.decode? j
    let fs ← ValueType.decodeShape? r
    return (k, t) :: fs

end

namespace Guess

/-- The written form of a distribution over kinds. -/
def encodeMass (mass : List (Kind × Float)) : Json :=
  .object (mass.map fun p => (p.1.name, .real p.2))

/-- The written form of a distribution over classes. -/
def encodeClasses : Option (List (String × Float)) → List (String × Json)
  | none => []
  | some classes => [("classType", .object (classes.map fun p => (p.1, .real p.2)))]

mutual

/-- The written form of a guess. -/
def encode : Guess → Json
  | .any => .object [("isAny", .bool true), ("kind", .object [])]
  | .known mass shape items classes =>
    .object ([("isAny", .bool false), ("kind", encodeMass mass)]
      ++ encodeShape shape ++ encodeItems items ++ encodeClasses classes)

/-- The field for the shape of an object. -/
def encodeShape : Option (List (String × Guess)) → List (String × Json)
  | none => []
  | some fields => [("objectShape", .object (encodeFields fields))]

/-- The written form of the properties of an object. -/
def encodeFields : List (String × Guess) → List (String × Json)
  | [] => []
  | (k, g) :: r => (k, encode g) :: encodeFields r

/-- The field for the items of an array. -/
def encodeItems : Option Guess → List (String × Json)
  | none => []
  | some g => [("arrayValueType", encode g)]

end

/-- Reads a distribution over kinds. -/
def decodeMass? (j : Json) : Option (List (Kind × Float)) :=
  table? Kind.ofName? real? j

/-- Reads a distribution over classes. -/
def decodeClasses? (j : Json) : Option (Option (List (String × Float))) :=
  nullable? (table? some real?) j

/-- The fields of a written guess. -/
def fieldNames : List (List String) :=
  [["isAny"], ["kind"], ["objectShape"], ["arrayValueType"], ["classType"]]

/-- Reads a guess whose parts are nested at most `depth` deep, the guess itself counted. -/
def decodeTo? : Nat → Json → Option Guess
  | 0, _ => none
  | depth + 1, j => do
    let [isAny, kind, shape, items, classes] ← record? fieldNames j | none
    let isAny ← required? bool? isAny
    let mass ← defaulted? [] decodeMass? kind
    let shape ← defaulted? none (nullable? (table? some (decodeTo? depth))) shape
    let items ← defaulted? none (nullable? (decodeTo? depth)) items
    let classes ← defaulted? none decodeClasses? classes
    return if isAny then .any else .known mass shape items classes

end Guess

mutual

/-- How deep arrays and objects are nested in a value. -/
def Json.depth : Json → Nat
  | .array items => Json.itemsDepth items + 1
  | .object fields => Json.fieldsDepth fields + 1
  | _ => 0

/-- The depth of the deepest item. -/
def Json.itemsDepth : List Json → Nat
  | [] => 0
  | j :: r => max j.depth (Json.itemsDepth r)

/-- The depth of the deepest field. -/
def Json.fieldsDepth : List (String × Json) → Nat
  | [] => 0
  | (_, j) :: r => max j.depth (Json.fieldsDepth r)

end

/-- Reads a guess. -/
def Guess.decode? (j : Json) : Option Guess :=
  Guess.decodeTo? (j.depth + 1) j

end ApiSurface
