import ApiSurface.Guess.Codec
import ApiSurface.Json.Printer
import ApiSurface.Json.Reader
import ApiSurface.Schema.Basic

/-!
The written form of schemas: an object with one field for each entry. The flag of an entry that the
host brings with it is left out where it is not set.
-/

namespace ApiSurface

open Json

/-- Reads a convention written as a variant. -/
def Convention.decode? (j : Json) : Option Convention := do
  let (name, payload) ← j.variant?
  if isBare payload then
    match name with
    | "Free" => some .free
    | "Method" => some .method
    | "Constructor" => some .constructor
    | _ => none
  else none

/-- The written form of a convention. -/
def Convention.encode (c : Convention) : Json := bare c.name

namespace Entry

/-- The written form of a signature. -/
def encode (e : Entry) : Json :=
  .object ([("args", .array (e.args.map Guess.encode)), ("ret", e.ret.encode),
    ("callconv", e.convention.encode)] ++ if e.builtin then [("builtin", .bool true)] else [])

/-- Reads a signature. -/
def decode? (j : Json) : Option Entry := do
  let [args, ret, convention, builtin] ← record? [["args"], ["ret"], ["callconv"], ["builtin"]] j
    | none
  let args ← required? (list? Guess.decode?) args
  let ret ← required? Guess.decode? ret
  let convention ← required? Convention.decode? convention
  let builtin ← defaulted? false bool? builtin
  return { args := args, ret := ret, convention := convention, builtin := builtin }

end Entry

namespace Schema

/-- The written form of a schema. -/
def encode (s : Schema) : Json :=
  .object (s.entries.map fun p => (p.1, p.2.encode))

/-- Reads a schema; a repeated name keeps its last signature. -/
def decode? (j : Json) : Option Schema := do
  let fields ← j.fields?
  let entries ← fields.mapM fun (f : String × Json) => do return (f.1, ← Entry.decode? f.2)
  return ofList entries

/-- The text of a schema, indented. -/
def toText (s : Schema) : String :=
  s.encode.pretty 0

/-- Reads the text of a schema. -/
def ofText? (text : String) : Option Schema :=
  (Json.read? text).bind decode?

end Schema

end ApiSurface
