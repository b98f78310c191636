/-
# `ApiSurface.Proofs.Guess.Formed` — guesses made of stored masses

A guess is well formed if its tables are in order and its masses are stored ones, so many
thousandths, at every depth.  Both ways of merging guesses keep this.

For the union there are two things to say at each level.  The tables are in order because they are
made along keys that are: the kinds, and the keys that the operands have between them.  The masses
are stored because a mean of stored masses is (`stored_mean`), and a mean is over at least one
operand, of which each gives one mass at most.
-/
import ApiSurface.Proofs.Decimal.Thousandths
import ApiSurface.Proofs.Guess.Sound
import ApiSurface.Proofs.Schema.Codec

namespace ApiSurface.Guess

open Decimal

/-! ## The mass of kinds -/

theorem pairwise_kinds : Kind.all.Pairwise fun a b => compare a b = .lt := by
  decide

/-- What is made along keys in order is a table in order. -/
theorem ascending_filterMap {κ α : Type} [Ord κ] {keys : List κ}
    (h : keys.Pairwise fun a b => compare a b = .lt) {f : κ → Option (κ × α)}
    (hf : ∀ k p, f k = some p → p.1 = k) : Table.Ascending (keys.filterMap f) := by
  refine h.filterMap f fun k k' hlt p hp q hq => ?_
  rw [hf k p hp, hf k' q hq]
  exact hlt

theorem ascending_nonzero {κ : Type} [Ord κ] {keys : List κ}
    (h : keys.Pairwise fun a b => compare a b = .lt) (f : κ → Float) :
    Table.Ascending
      (keys.filterMap fun k => let m := f k; if m == 0 then none else some (k, m)) :=
  ascending_filterMap h fun k _ hp => (nonzero_eq_some (f := f) (k := k) hp).1

theorem ascending_meanMass (operands : List (List (Kind × Float))) :
    Table.Ascending (meanMass operands) :=
  ascending_nonzero pairwise_kinds _

theorem stored_meanMass {operands : List (List (Kind × Float))} (hne : operands ≠ [])
    (h : ∀ mass ∈ operands, ∀ p ∈ mass, Stored p.2) : ∀ p ∈ meanMass operands, Stored p.2 := by
  intro p hp
  rw [(mem_meanMass hp).1]
  refine stored_mean (List.length_pos_iff.mpr hne) (List.length_map _).le fun m hm => ?_
  obtain ⟨mass, hmass, rfl⟩ := List.mem_map.mp hm
  exact holds_massIn stored_zero (h mass hmass) p.1

/-! ## The mass of classes -/

theorem pairwise_allKeys {α : Type} (tables : List (List (String × α))) :
    (allKeys tables).Pairwise fun a b => compare a b = .lt :=
  Table.pairwise_keys (Table.ascending_ofList _)

theorem ascending_meanClasses (operands : List (List (String × Float))) :
    Table.Ascending (meanClasses operands) :=
  ascending_nonzero (pairwise_allKeys operands) _

theorem stored_meanClasses {operands : List (List (String × Float))} (hne : operands ≠ [])
    (h : ∀ classes ∈ operands, ∀ p ∈ classes, Stored p.2) :
    ∀ p ∈ meanClasses operands, Stored p.2 := by
  intro p hp
  rw [(mem_meanClasses hp).2.1]
  refine stored_mean (List.length_pos_iff.mpr hne) (List.length_filterMap_le ..) fun m hm => ?_
  obtain ⟨classes, hclasses, hfind⟩ := List.mem_filterMap.mp hm
  exact h classes hclasses _ (Table.mem_of_find? hfind)

/-! ## Whole guesses -/

theorem ne_nil_of_keptIf {α γ : Type} {mass : List (Kind × Float)} {k : Kind} {given : List α}
    {merge : List α → γ} {c : γ} (h : keptIf mass k given merge = some c) : given ≠ [] := by
  rintro rfl
  cases h

theorem formed_unionKnown : KeptByUnion (Formed Stored) := by
  intro merge hmerge operands hne h
  refine .known (ascending_meanMass _) ?_ ?_ ?_ ?_ ?_ ?_
  · refine stored_meanMass (by simpa using hne) fun mass hmass => ?_
    obtain ⟨o, ho, rfl⟩ := List.mem_map.mp hmass
    cases h o ho with
    | known _ masses => exact masses
  · intro fs hfs
    rw [← eq_of_keptIf hfs]
    exact List.pairwise_map.mpr (pairwise_allKeys _)
  · refine fun fs => holds_mergedFields hmerge (formed_ofKind stored_one _) fun o ho => ?_
    cases h o ho with
    | known _ _ _ fields => exact fields
  · refine fun g => holds_mergedItems hmerge fun o ho => ?_
    cases h o ho with
    | known _ _ _ _ item => exact item
  · intro cs hcs
    rw [← eq_of_keptIf hcs]
    exact ascending_meanClasses _
  · intro cs hcs
    rw [← eq_of_keptIf hcs]
    refine stored_meanClasses (ne_nil_of_keptIf hcs) fun classes hclasses => ?_
    obtain ⟨o, ho, hclasses⟩ := List.mem_filterMap.mp hclasses
    cases h o ho with
    | known _ _ _ _ _ _ classMasses => exact classMasses classes hclasses

/-- **The union of well formed guesses is well formed.** -/
theorem formed_union {gs : List Guess} (h : ∀ g ∈ gs, g.Formed Stored) :
    (union gs).Formed Stored :=
  holds_unionTo .any formed_unionKnown _ gs h

theorem Formed.mono {R R' : Float → Prop} (hsub : ∀ x, R x → R' x) {g : Guess} (h : g.Formed R) :
    g.Formed R' := by
  induction h with
  | any => exact .any
  | known massOrder masses shapeOrder _ _ classOrder classMasses ihfields ihitem =>
      exact .known massOrder (fun p hp => hsub _ (masses p hp)) shapeOrder ihfields ihitem
        classOrder fun cs hcs p hp => hsub _ (classMasses cs hcs p hp)

end ApiSurface.Guess
