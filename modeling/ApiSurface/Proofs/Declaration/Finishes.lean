/-
# `ApiSurface.Proofs.Declaration.Finishes` — which derivations come to an end

Declarations may refer to one another in circles, and most circles are cut: a name that is being
expanded is not expanded again.  But the members of a union are gathered without a look at the names
being expanded, and nothing keeps a namespace from exporting itself.  Derivation comes to an end
exactly when it is not led into a circle on either way (`finishes_deriveStatements_iff`), and it can
be (`recursiveUnion_not_finishes`).

The bounds of the derivation play no part in this: where it is cut off, it is with any other bounds
on the depth of conversions (`emitAll_eq_none_of_bounds`).
-/
import ApiSurface.Proofs.Declaration.Blame
import ApiSurface.Proofs.Declaration.Guarded
import ApiSurface.Proofs.Declaration.Surfaces

namespace ApiSurface.Declaration

/-- Whether a derivation has come to an end, be it with a schema or with an error of the text. -/
def finishes : Except DeriveError Schema → Bool
  | .error .unfinished | .error (.surface .endless) => false
  | _ => true

/-- The derivation of the items of a surface has no answer as long as the request has none, whatever
else is known. -/
def DerivationNeeds (w : World) (items : List SurfaceItem) (t : Request) : Prop :=
  ∀ conv, Uniform conv → Refines (convertFully w) conv → ¬ Answers conv t →
    emitAll w conv items ⟨.empty, [], []⟩ = none

/-- The declarations lead in a circle: the exports of a namespace do, or else the needs of a
conversion that the derivation cannot do without. -/
def Endless (ss : List Statement) : Prop :=
  let scopes := Scopes.ofStatements ss
  scopes.SurfaceCircles ∨ ∃ items t, surface scopes (scopes.all.length + 1) = .ok items ∧
    DerivationNeeds ⟨scopes, classNames items⟩ items t ∧ Circular ⟨scopes, classNames items⟩ t

variable {w : World} {items : List SurfaceItem}

/-- Derivation from a surface fails exactly when it needs a conversion that leads in a circle. -/
theorem emitAll_eq_none_iff (hitems : ItemsDeclared w.scopes items) :
    emitAll w (convertFully w) items ⟨.empty, [], []⟩ = none ↔
      ∃ t, DerivationNeeds w items t ∧ Circular w t := by
  constructor
  · intro hnone
    have hfaithful := faithful_convertFully (w := w) (S := fun _ => True) fun _ _ => trivial
    obtain ⟨t, hnot, hblame⟩ := (explained_all uniform_convertFully hfaithful hitems).blames hnone
    exact ⟨t, hblame, not_not.mp fun h => hnot ((answers_convertFully_iff t).mpr h)⟩
  · rintro ⟨t, hneeds, hcircular⟩
    refine hneeds _ uniform_convertFully (fun _ _ _ _ h => h) fun hanswers => ?_
    exact (answers_convertFully_iff t).mp hanswers hcircular

/-- What a derivation comes to, read off its two steps. -/
theorem finishes_iff_steps (ss : List Statement) :
    finishes (deriveStatements ss) = true ↔
      surface (Scopes.ofStatements ss) ((Scopes.ofStatements ss).all.length + 1) ≠
          .error .endless ∧
        ∀ items, surface (Scopes.ofStatements ss) ((Scopes.ofStatements ss).all.length + 1) =
            .ok items →
          emitAll ⟨Scopes.ofStatements ss, classNames items⟩
            (convertFully ⟨Scopes.ofStatements ss, classNames items⟩) items ⟨.empty, [], []⟩ ≠
              none := by
  unfold deriveStatements
  simp only
  cases surface (Scopes.ofStatements ss) ((Scopes.ofStatements ss).all.length + 1) with
  | error e =>
      cases e with
      | endless => exact ⟨nofun, fun h => absurd rfl h.1⟩
      | noSuchDeclaration path => exact ⟨fun _ => ⟨nofun, nofun⟩, fun _ => rfl⟩
  | ok items =>
      simp only
      split
      next hnone => exact ⟨nofun, fun h => absurd hnone (h.2 items rfl)⟩
      next hsome =>
        refine ⟨fun _ => ⟨nofun, fun items' heq hnone => ?_⟩, fun _ => rfl⟩
        cases heq
        cases hsome.symm.trans hnone

/-- **Derivation comes to an end exactly when the declarations do not lead in a circle.** -/
theorem finishes_deriveStatements_iff (ss : List Statement) :
    finishes (deriveStatements ss) = true ↔ ¬ Endless ss := by
  rw [finishes_iff_steps, Endless, not_or, ← surface_eq_endless_iff, not_exists]
  refine and_congr_right fun _ => forall_congr' fun items => ?_
  constructor
  · rintro h ⟨t, hitems, ht⟩
    exact h hitems ((emitAll_eq_none_iff (itemsDeclared_surface hitems)).mpr ⟨t, ht⟩)
  · intro h hitems hnone
    obtain ⟨t, ht⟩ := (emitAll_eq_none_iff (itemsDeclared_surface hitems)).mp hnone
    exact h ⟨t, hitems, ht⟩

/-- No bounds on the depth of conversions let a derivation end that does not end within its own. -/
theorem emitAll_eq_none_of_bounds (hitems : ItemsDeclared w.scopes items)
    (hnone : emitAll w (convertFully w) items ⟨.empty, [], []⟩ = none) (bound : TypeExpr → Nat) :
    emitAll w (fun active env ty => convertTo w (bound ty) active env ty) items
      ⟨.empty, [], []⟩ = none := by
  rw [Option.eq_none_iff_forall_ne_some]
  intro r hr
  have hrefines : Refines (fun active env ty => convertTo w (bound ty) active env ty)
      (convertFully w) := fun _ _ _ _ h => convertFully_eq_some h
  have huniform : Uniform fun active env ty => convertTo w (bound ty) active env ty :=
    fun active env env' ty => uniform_convertTo _ active env env' ty
  have hfaithful : Faithful w (fun _ => True) fun active env ty =>
      convertTo w (bound ty) active env ty :=
    fun active env ty => faithful_convertTo (fun _ _ => trivial) _ active env ty
  have hsame := (explained_all huniform hfaithful hitems).refines _ hrefines r hr
  cases hnone.symm.trans hsame

/-- Every derivation comes to an end where no name stands for a union and no exports lead in a
circle. -/
theorem finishes_of_noUnionNames {ss : List Statement}
    (hnames : NoUnionNames (Scopes.ofStatements ss))
    (hexports : ¬ (Scopes.ofStatements ss).SurfaceCircles) :
    finishes (deriveStatements ss) = true := by
  rw [finishes_iff_steps]
  refine ⟨fun h => hexports (surface_eq_endless_iff.mp h), fun items hitems hnone => ?_⟩
  obtain ⟨t, -, hcircular⟩ := (emitAll_eq_none_iff (itemsDeclared_surface hitems)).mp hnone
  exact not_circular_of_noUnionNames hnames t hcircular

/-- The union that a name stands for has an object among its members, and the object has the name in
it once more, again in a union. -/
def recursiveUnionText : String :=
  "type T = { next: T | null } | string; export declare function f(t: T): void;"

/-- The members of a union are gathered without a look at the names being expanded. -/
theorem recursiveUnion_not_finishes : finishes (derive recursiveUnionText) = false := by
  decide +kernel

-- A namespace that exports itself has no surface that ends.
example : finishes (derive "declare namespace A { export { A } } export { A }") = false := by
  decide +kernel

end ApiSurface.Declaration
