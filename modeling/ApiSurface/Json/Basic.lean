/-!
JSON values. Numbers without fraction and exponent that fit in 64 bits stay whole; all others are
doubles. A part of a text that follows the grammar of JSON but stands for no value is kept as
`refused`, so that a reader of a larger value may skip it.
-/

namespace ApiSurface

/-- A JSON value. -/
inductive Json where
  | null
  | bool (b : Bool)
  | integer (n : Int)
  | real (x : Float)
  | text (s : String)
  | array (items : List Json)
  | object (fields : List (String × Json))
  /-- A number beyond the doubles, a text with half a surrogate pair, or nesting that is too deep.
  -/
  | refused

instance : Inhabited Json := ⟨.null⟩

end ApiSurface
