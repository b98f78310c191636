import ApiSurface.Guess.Union
import ApiSurface.Schema.Basic

/-!
The classes that the host brings with it. Every schema that is derived has entries for them, so that
declared types which name them denote something that can be constructed.
-/

namespace ApiSurface

namespace Standard

/-- The names of the classes. -/
def classNames : List String :=
  ["Uint8Array", "ArrayBuffer", "RegExp", "Buffer", "SharedArrayBuffer", "Error", "Duplex"]

/-- The names of the members that every object has, which are never methods of a library. -/
def memberNames : List String :=
  ["constructor", "__defineGetter__", "__defineSetter__", "hasOwnProperty", "__lookupGetter__",
    "__lookupSetter__", "isPrototypeOf", "propertyIsEnumerable", "valueOf", "toLocaleString",
    "toString"]

/-- Whether the name is one of a class of the host. -/
def isClass (name : String) : Bool := classNames.contains name

/-- Whether the name is one of a member that every object has. -/
def isMember (name : String) : Bool := memberNames.contains name

/-- The entry of a constructor of the host. -/
def constructorEntry (name : String) (args : List Guess) : String × Entry :=
  (name, { args := args, ret := .ofClass name, convention := .constructor, builtin := true })

/-- The entries of the host. -/
def entries : List (String × Entry) :=
  [constructorEntry "Uint8Array" [],
    constructorEntry "ArrayBuffer" [.number],
    constructorEntry "RegExp" [],
    constructorEntry "Buffer" [.number],
    constructorEntry "SharedArrayBuffer" [.number],
    constructorEntry "Error" [.optional .string],
    constructorEntry "Duplex" [],
    ("Buffer.from",
      { args := [.string], ret := .ofClass "Buffer", convention := .free, builtin := true })]

end Standard

/-- The schema with the entries of the host that it lacks. -/
def Schema.seeded (s : Schema) : Schema :=
  Standard.entries.foldl (fun s p => if s.has p.1 then s else s.insert p.1 p.2) s

end ApiSurface
