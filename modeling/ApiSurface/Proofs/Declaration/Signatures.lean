/-
# `ApiSurface.Proofs.Declaration.Signatures` — signatures give sound entries

The entry of a function, a method or a constructor is put together from the conversions of its
signatures.  It is sound under the name that it is given whenever the signatures stand at sound
places (`yields_freeEntry`, `yields_methodEntry`, `yields_constructorEntry`).

The constructor is the one case with arithmetic in it.  Its result is the union of as many copies of
the class as there are signatures, so it is certainly the class only while a sum of ones is exact:
below `2 ^ 53` signatures.
-/
import ApiSurface.Proofs.Declaration.Conversions
import ApiSurface.Proofs.Declaration.Entries
import ApiSurface.Proofs.Guess.Laws
import ApiSurface.Proofs.Schema.Names

namespace ApiSurface.Declaration

open Guess

variable {w : World} {S : String → Prop}

/-- Signatures that all return one class return it together. -/
theorem combined_ret {sigs : List (List Guess × Guess)} {name : String}
    (hret : ∀ r ∈ sigs, r.2 = .ofClass name) (hne : 0 < sigs.length)
    (hsmall : sigs.length < 2 ^ 53) : (combined sigs).2 = .ofClass name := by
  unfold combined
  split
  next one => exact hret one List.mem_cons_self
  next _ _ =>
    have hall : sigs.map Prod.snd = List.replicate sigs.length (.ofClass name) := by
      refine List.eq_replicate_iff.mpr ⟨List.length_map _, fun g hg => ?_⟩
      obtain ⟨r, hr, rfl⟩ := List.mem_map.mp hg
      exact hret r hr
    simp only
    rw [hall, union_replicate_ofClass hne hsmall]

/-! ## Entries -/

section Converting

variable {conv : Converter} (hconv : Faithful w S conv)

include hconv

theorem yields_convertSigs (ret? : Option Guess) (sigs : List PlacedSig) :
    Yields w S (sigs.mapM (convertSig w conv ret?)) fun rs => PlacedSound S sigs →
      (∀ ret, ret? = some ret → ret.Sound S) → rs.length = sigs.length ∧
        (∀ r ∈ rs, ∀ g ∈ r.1, g.Sound S) ∧ (∀ r ∈ rs, r.2.Sound S) ∧
          ∀ ret, ret? = some ret → ∀ r ∈ rs, r.2 = ret := by
  simpa only [allPlaced_sound_iff] using
    keeps_convertSigs hereditary_sound (keeps_sound_iff.mpr hconv) ret? sigs

theorem yields_freeEntry (name : String) (sigs : List PlacedSig) :
    Yields w S (entryOf w conv sigs none .free none) fun e =>
      PlacedSound S sigs → e.Sound S name := by
  refine .bind (yields_convertSigs hconv none sigs) fun rs => .pure ?_
  intro hrs hsigs
  obtain ⟨-, hargs, hret, -⟩ := hrs hsigs nofun
  obtain ⟨hargs', hret'⟩ := hereditary_sound.of_combined hargs hret
  exact ⟨hargs', hret', nofun, nofun⟩

theorem yields_methodEntry (owner member : String) (sigs : List PlacedSig) :
    Yields w S (entryOf w conv sigs (some (.ofClass owner)) .method none) fun e =>
      S owner → PlacedSound S sigs → e.Sound S (owner ++ "." ++ member) := by
  refine .bind (yields_convertSigs hconv none sigs) fun rs => .pure ?_
  intro hrs howner hsigs
  obtain ⟨-, hargs, hret, -⟩ := hrs hsigs nofun
  obtain ⟨hargs', hret'⟩ := hereditary_sound.of_combined hargs hret
  refine ⟨?_, hret', nofun, fun _ => ⟨owner, member, rfl, rfl⟩⟩
  exact List.forall_mem_cons.mpr ⟨sound_ofClass howner, hargs'⟩

theorem yields_constructorEntry (name : String) {sigs : List PlacedSig} (hne : 0 < sigs.length) :
    Yields w S (entryOf w conv sigs none .constructor (some (.ofClass name))) fun e =>
      sigs.length < 2 ^ 53 → S name → PlacedSound S sigs → e.Sound S name := by
  refine .bind (yields_convertSigs hconv (some (.ofClass name)) sigs) fun rs => .pure ?_
  intro hrs hsmall hname hsigs
  obtain ⟨hlength, hargs, hret, heq⟩ := hrs hsigs fun _ h => Option.some.inj h ▸ sound_ofClass hname
  obtain ⟨hargs', hret'⟩ := hereditary_sound.of_combined hargs hret
  refine ⟨hargs', hret', fun _ => ?_, nofun⟩
  show Schema.certainlyOf name (combined rs).2 = true
  rw [combined_ret (heq _ rfl) (hlength ▸ hne) (hlength ▸ hsmall)]
  exact certainlyOf_ofClass name

/-! ## The members of a class -/

theorem yields_classEnv (c : ClassRef) :
    Yields w S (classEnv w conv c) fun env => S (w.className c) → env.Sound S := by
  simpa only [holds_sound_iff] using
    keeps_classEnv hereditary_sound (keeps_sound_iff.mpr hconv) c

end Converting

/-- The signatures in every group stand at sound places. -/
def GroupsSound (S : String → Prop) (groups : List (String × List PlacedSig)) : Prop :=
  ∀ g ∈ groups, PlacedSound S g.2

theorem groupsHold_sound_iff {groups : List (String × List PlacedSig)} :
    GroupsHold S (Guess.Sound S) groups ↔ GroupsSound S groups :=
  forall₂_congr fun _ _ => allPlaced_sound_iff

theorem sound_methodGroups {members : List PlacedMember} (h : PlacedSound S members)
    (statics : Bool) : GroupsSound S (methodGroups members statics) :=
  groupsHold_sound_iff.mp ((allPlaced_sound_iff.mpr h).methodGroups statics)

theorem sound_constructorSigs {members : List PlacedMember} (h : PlacedSound S members) :
    PlacedSound S (constructorSigs members) :=
  allPlaced_sound_iff.mp (allPlaced_sound_iff.mpr h).constructorSigs

theorem sound_callSigs {members : List PlacedMember} (h : PlacedSound S members) :
    PlacedSound S (callSigs members) :=
  allPlaced_sound_iff.mp (allPlaced_sound_iff.mpr h).callSigs

theorem yields_instanceMethods {conv : Converter} (hconv : Faithful w S conv) (env : Env)
    (tys : List TypeExpr) (methods : List (String × List PlacedSig)) :
    Yields w S (instanceMethods w conv env methods tys)
      fun groups => env.Sound S → GroupsSound S methods → GroupsSound S groups := by
  simpa only [holds_sound_iff, groupsHold_sound_iff] using
    keeps_instanceMethods hereditary_sound (keeps_sound_iff.mpr hconv) env tys methods

/-- The arguments of a constructor that has an entry. -/
theorem sound_constructorArgs {s : Schema} (h : s.Sound S) (name : String) :
    ∀ g ∈ constructorArgs s name, g.Sound S := by
  unfold constructorArgs
  split
  next e he =>
    split
    · exact (h name e he).args
    · intro _ hg
      cases hg
  · intro _ hg
    cases hg

end ApiSurface.Declaration
