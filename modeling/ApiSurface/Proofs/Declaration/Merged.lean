/-
# `ApiSurface.Proofs.Declaration.Merged` — merging where there is nothing to merge

A union type with one member and a name with one signature are not merged at all: the guess is taken
as it is.  For a guess of which every mass is stored and none zero, with parts only beside their
kinds, this is what the union would give (`merged_eq_union`, `combined_eq_united`).  Every guess of
a conversion is like that (`hereditary_stable`), so a guess of a derived schema that is merged with
itself stays what it is (`union_replicate_derive`).
-/
import ApiSurface.Proofs.Declaration.Written
import ApiSurface.Proofs.Guess.Laws

namespace ApiSurface.Declaration

open Decimal Guess

variable {S : String → Prop}

theorem hereditary_stable : Hereditary S Stable where
  any := stable_any
  ofKind := fun _ => stable_ofKind _
  ofClass := fun _ => stable_ofClass _
  object := stable_object
  array := stable_array
  union := stable_union
  intersect := stable_intersect

/-- Merging copies of a guess of a derived schema leaves it as it is. -/
theorem union_replicate_derive {text : String} {s : Schema} (h : derive text = .ok s)
    {name : String} {e : Entry} (he : s.find? name = some e) {n : Nat} (hn : 0 < n)
    (hlimit : n ≤ 2 ^ 32) :
    ∀ g ∈ e.ret :: e.args, union (List.replicate n g) = g := by
  unfold derive at h
  split at h
  · cases h
  · have hstable := holds_deriveStatements h hereditary_stable name e he
    refine List.forall_mem_cons.mpr ⟨hstable.ret.union_replicate hn hlimit, fun g hg => ?_⟩
    exact (hstable.args g hg).union_replicate hn hlimit

/-! ## Shortcuts -/

/-- The only guess is what the union would give. -/
theorem merged_eq_union {gs : List Guess} (h : ∀ g ∈ gs, g.Stable) : merged gs = union gs := by
  unfold merged
  split
  next g => exact ((h g List.mem_cons_self).union_replicate (n := 1) (by decide) (by decide)).symm
  · rfl

/-- Several signatures as one, by unions also where there is only one. -/
def united (sigs : List (List Guess × Guess)) : List Guess × Guess :=
  let lists := sigs.map Prod.fst
  let arity := (lists.map List.length).foldl max 0
  ((List.range arity).map fun i => union (guessesAt i lists), union (sigs.map Prod.snd))

/-- The only signature is what unions position by position would give. -/
theorem combined_eq_united {sigs : List (List Guess × Guess)}
    (hargs : ∀ r ∈ sigs, ∀ g ∈ r.1, g.Stable) (hret : ∀ r ∈ sigs, r.2.Stable) :
    combined sigs = united sigs := by
  unfold combined
  split
  next one =>
    obtain ⟨args, ret⟩ := one
    have hself : ∀ {g : Guess}, g.Stable → union [g] = g :=
      fun hg => hg.union_replicate (n := 1) (by decide) (by decide)
    refine Prod.ext (List.ext_getElem ?_ fun i hi hi' => ?_)
      (hself (hret _ List.mem_cons_self)).symm
    · simp [united]
    · have hmem := hargs _ List.mem_cons_self _ (List.getElem_mem hi)
      simp [united, guessesAt, hself hmem, hi]
  · rfl

/-- **Merging a stable guess with itself never changes it**, and taking it as it is, as the only
member of a union type or the result of the only signature, is what merging it would give. -/
theorem union_self_of_stable {g : Guess} (h : g.Stable) :
    union [g] = g ∧ union [g, g] = g ∧ merged [g] = union [g] ∧
      ∀ args : List Guess, (∀ a ∈ args, a.Stable) →
        combined [(args, g)] = united [(args, g)] := by
  refine ⟨h.union_replicate (n := 1) (by decide) (by decide),
    h.union_replicate (n := 2) (by decide) (by decide),
    merged_eq_union (List.forall_mem_singleton.mpr h), fun args hargs => ?_⟩
  exact combined_eq_united (List.forall_mem_singleton.mpr hargs) (List.forall_mem_singleton.mpr h)

/-- A meeting: its time is a number, or a date twice as often, and it has some notes. -/
def meeting : Guess :=
  .object [("at", .known [(.number, 0.333), (.ofClass, 0.667)] none none (some [("Date", 1)])),
    ("notes", .array .string)]

theorem stable_meeting : meeting.Stable := by
  have hnumber : Stored 0.333 := ⟨333, by decide, by decide +kernel⟩
  have hdate : Stored 0.667 := ⟨667, by decide, by decide +kernel⟩
  have htime : Stable
      (.known [(.number, 0.333), (.ofClass, 0.667)] none none (some [("Date", 1)])) := by
    refine ⟨.known (List.pairwise_pair.mpr (by decide)) ?_ nofun nofun nofun ?_ ?_,
      everywhere_leaf (.known ?_ ?_ nofun nofun ?_)⟩
    · exact List.forall_mem_cons.mpr ⟨hnumber, List.forall_mem_singleton.mpr hdate⟩
    · rintro cs ⟨rfl⟩
      exact List.pairwise_singleton ..
    · rintro cs ⟨rfl⟩
      exact List.forall_mem_singleton.mpr stored_one
    · decide +kernel
    · rintro cs ⟨rfl⟩
      decide +kernel
    · exact fun _ => rfl
  refine stable_object (List.pairwise_pair.mpr (by decide)) (List.forall_mem_cons.mpr ⟨htime, ?_⟩)
  exact List.forall_mem_singleton.mpr (stable_array (stable_ofKind .string))

/-- The meeting is merged with itself, and a function without parameters returns it. -/
theorem union_self_meeting : meeting.Stable ∧ union [meeting] = meeting ∧
    union [meeting, meeting] = meeting ∧ combined [([], meeting)] = united [([], meeting)] := by
  obtain ⟨hone, htwo, -, hcombined⟩ := union_self_of_stable stable_meeting
  exact ⟨stable_meeting, hone, htwo, hcombined [] nofun⟩

end ApiSurface.Declaration
