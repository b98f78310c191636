/-
# `ApiSurface.Proofs.Declaration.Conversions` — conversions give sound guesses

A conversion returns a guess and the classes that it refers to.  Here: the classes are declared, and
the guess is sound over every set of names that has the classes of the host and the names of the
classes referred to (`faithful_convertFully`).  Soundness is kept by every way of making guesses
(`hereditary_sound`), so this is a case of what holds of all such properties; the lemmas below say
it for the parts of the conversion that the entries of a schema are made with.
-/
import ApiSurface.Proofs.Declaration.Hereditary
import ApiSurface.Proofs.Guess.Sound

namespace ApiSurface.Declaration

open Guess

/-- The guesses and the class that an environment brings are sound. -/
structure Env.Sound (S : String → Prop) (env : Env) : Prop where
  bindings : ∀ b ∈ env.bindings, b.2.Sound S
  this : ∀ c, env.thisClass = some c → S c

/-- The converter gives guesses that are sound when they are converted at a sound place. -/
def Faithful (w : World) (S : String → Prop) (conv : Converter) : Prop :=
  ∀ active env ty, Yields w S (conv active env ty) fun g => env.Sound S → g.Sound S

/-- Every type in the list stands at a sound place. -/
def PlacedSound {τ : Type} (S : String → Prop) (l : List (τ × Env)) : Prop :=
  ∀ m ∈ l, m.2.Sound S

variable {w : World} {S : String → Prop}

theorem hereditary_sound : Hereditary S (Guess.Sound S) where
  any := .any
  ofKind := fun ⟨ho, ha, hc⟩ => sound_ofKind ho ha hc
  ofClass := sound_ofClass
  object := fun _ h => sound_object h
  array := sound_array
  union := sound_union
  intersect := sound_intersect

theorem holds_sound_iff {env : Env} : env.Holds S (Guess.Sound S) ↔ env.Sound S :=
  ⟨fun h => ⟨h.bindings, h.this⟩, fun h => ⟨h.bindings, h.this⟩⟩

theorem allPlaced_sound_iff {τ : Type} {l : List (τ × Env)} :
    AllPlaced S (Guess.Sound S) l ↔ PlacedSound S l :=
  forall₂_congr fun _ _ => holds_sound_iff

theorem keeps_sound_iff {conv : Converter} :
    Keeps w S (Guess.Sound S) conv ↔ Faithful w S conv := by
  unfold Keeps Faithful
  simp only [holds_sound_iff]

theorem sound_root (scope : Nat) : Env.Sound S { scope := scope } :=
  holds_sound_iff.mp (holds_root scope)

theorem sound_placed {env : Env} (h : env.Sound S) (members : List Member) :
    PlacedSound S (placed members env) :=
  allPlaced_sound_iff.mp (allPlaced_placed (holds_sound_iff.mpr h) members)

section Converting

variable {conv : Converter} (hconv : Faithful w S conv)

include hconv

theorem yields_membersOf (env : Env) (ty : TypeExpr) :
    Yields w S (membersOf w conv env ty) fun ms =>
      env.Sound S → ∀ l, ms = some l → PlacedSound S l := by
  simpa only [holds_sound_iff, allPlaced_sound_iff] using
    keeps_membersOf hereditary_sound (keeps_sound_iff.mpr hconv) env ty

end Converting

theorem faithful_convertTo (hhost : ∀ name, Standard.isClass name = true → S name) (depth : Nat) :
    Faithful w S (convertTo w depth) :=
  keeps_sound_iff.mp (keeps_convertTo hereditary_sound hhost depth)

/-- **Conversions give sound guesses and refer to declared classes.** -/
theorem faithful_convertFully (hhost : ∀ name, Standard.isClass name = true → S name) :
    Faithful w S (convertFully w) :=
  keeps_sound_iff.mp (keeps_convertFully hereditary_sound hhost)

end ApiSurface.Declaration
