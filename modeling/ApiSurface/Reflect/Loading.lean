import ApiSurface.Reflect.Binding

/-!
Loading a module: its exports are looked up by its name and reflected on. Entries of the schema that
no live function was found for are dropped, so that the schema and the endpoints have the same
names.
-/

namespace ApiSurface.Reflect

open Live

variable {β σ : Type}

/-- A schema together with the live values that its entries are bound to. -/
structure Loaded where
  schema : Schema
  endpoints : Endpoints
  /-- How many endpoints had no entry before. -/
  unbacked : Nat
  /-- The entries that no live value was found for, ascending. -/
  dropped : List String

/-- Drops the entries without an endpoint. -/
def Binding.finish (b : Binding) : Loaded where
  schema := b.schema.filter fun name _ => Table.has b.endpoints name
  endpoints := b.endpoints
  unbacked := b.admitted
  dropped := b.schema.names.filter fun name => !Table.has b.endpoints name

/-- Reflects on the exports of a module, starting from a schema. -/
def reflect (lib : Library β σ) (s : Settings) (given : Schema) (exports : Value) :
    Action β σ Clash Loaded := do
  let mapping : Mapping β σ Unit := do
    mapHost s
    mapExports lib s exports
  let (_, b) ← mapping { schema := given }
  return b.finish

/-- The exports of the modules that there are. -/
abbrev Modules := Table String Value

/-- Why a module could not be loaded. -/
inductive LoadError where
  | noModule (specifier : String)
  | clash (clash : Clash)
  deriving Repr, DecidableEq

/-- The wording of why a module could not be loaded. -/
def LoadError.message : LoadError → String
  | noModule specifier => "Cannot find module '" ++ specifier ++ "'"
  | clash c => c.message

/-- Loads a module by its name. -/
def load (lib : Library β σ) (s : Settings) (modules : Modules) (given : Schema)
    (specifier : String) : Action β σ LoadError Loaded :=
  match Table.find? modules specifier with
  | none => throw (.noModule specifier)
  | some exports => (reflect lib s given exports).mapError .clash

end ApiSurface.Reflect
