import ApiSurface.Guess.Basic

/-!
Schemas: for every entry of a library (function, method or constructor) its name and a guess of its
signature. Members are named `owner.member`.
-/

namespace ApiSurface

/-- How an entry is invoked. -/
inductive Convention where
  /-- A positional call without a receiver. -/
  | free
  /-- The first argument is the receiver, the others are positional. -/
  | method
  /-- Construction with all arguments. -/
  | constructor
  deriving Repr, DecidableEq

/-- The written name of a convention. -/
def Convention.name : Convention → String
  | free => "Free"
  | method => "Method"
  | constructor => "Constructor"

/-- The guessed signature of an entry. -/
structure Entry where
  args : List Guess
  ret : Guess
  convention : Convention
  /-- Whether the entry is one that the host brings with it. -/
  builtin : Bool := false

/-- A signature of which nothing but the number of arguments is known. -/
def Entry.unknown (arity : Nat) (convention : Convention) : Entry :=
  { args := List.replicate arity .any, ret := .any, convention := convention }

instance : BEq Entry :=
  ⟨fun a b => a.args == b.args && a.ret == b.ret && a.convention == b.convention
    && a.builtin == b.builtin⟩

/-- A table of signatures by entry name. -/
structure Schema where
  entries : List (String × Entry)
  ascending : Table.Ascending entries

namespace Schema

/-- The schema without entries. -/
def empty : Schema := ⟨[], Table.ascending_nil⟩

instance : Inhabited Schema := ⟨empty⟩

instance : BEq Schema := ⟨fun a b => a.entries == b.entries⟩

/-- The signature under a name. -/
def find? (s : Schema) (name : String) : Option Entry :=
  Table.find? s.entries name

/-- Whether a name has a signature. -/
def has (s : Schema) (name : String) : Bool :=
  (s.find? name).isSome

/-- The names in order. -/
def names (s : Schema) : List String :=
  Table.keys s.entries

/-- The number of entries. -/
def size (s : Schema) : Nat :=
  s.entries.length

/-- Gives a name a signature, in place of the one it had. -/
def insert (s : Schema) (name : String) (e : Entry) : Schema :=
  ⟨Table.insert s.entries name e, Table.ascending_insert s.ascending name e⟩

/-- Takes the signature of a name away. -/
def erase (s : Schema) (name : String) : Schema :=
  ⟨Table.erase s.entries name, Table.ascending_erase s.ascending name⟩

/-- Keeps the entries for which `keep` holds. -/
def filter (s : Schema) (keep : String → Entry → Bool) : Schema :=
  ⟨s.entries.filter fun p => keep p.1 p.2, Table.ascending_filter s.ascending _⟩

/-- The schema of the pairs, where a later pair wins over an earlier one with its name. -/
def ofList (l : List (String × Entry)) : Schema :=
  ⟨Table.ofList l, Table.ascending_ofList l⟩

/-- Whether a name belongs to a constructor. -/
def hasConstructor (s : Schema) (name : String) : Bool :=
  match s.find? name with
  | some e => e.convention == .constructor
  | none => false

end Schema

end ApiSurface
