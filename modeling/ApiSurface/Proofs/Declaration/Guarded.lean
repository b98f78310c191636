/-
# `ApiSurface.Proofs.Declaration.Guarded` — circles lead through names for unions

A conversion that leaves its type for a declaration marks the declaration first, and no declaration
is marked twice.  The one exception is a name that stands for a union: its members are gathered
without a mark.  Where no name stands for a union, each need either has one more declaration marked
or is at a smaller type, so needs never lead in a circle (`not_circular_of_noUnionNames`).
-/
import ApiSurface.Proofs.Declaration.Ends

namespace ApiSurface.Declaration

open Relation (TransGen)

/-- No name is declared to stand for a union. -/
def NoUnionNames (s : Scopes) : Prop :=
  ∀ sc ∈ s.all, ∀ p ∈ sc.aliases, ∀ members, p.2.type ≠ .union members

variable {w : World}

/-- Nothing is gathered from names if none of them stands for a union. -/
theorem unionClosed_of_noUnionNames (h : NoUnionNames w.scopes) {V : Place → Prop}
    (hV : PartClosed V) : UnionClosed w V := by
  refine ⟨hV, fun hname htype => ?_⟩
  obtain ⟨sc, name, hsc, ha⟩ := exists_of_typeNamed?_alias hname
  exact absurd htype (h sc (List.mem_of_getElem? hsc) _ ha _)

/-- The places of the types inside a type. -/
def Place.Inside (p p' : Place) : Prop :=
  p'.scope = p.scope ∧ p'.bound = p.bound ∧ p'.type ∈ p.type.inside

theorem partClosed_inside (p : Place) : PartClosed p.Inside := by
  rintro o ty ⟨hscope, hbound, htype⟩ ty' hty'
  exact ⟨hscope, hbound, (sublist_inside p.type ty htype).subset hty'⟩

/-! ## What is needed is asked for -/

open Classical in
/-- A converter that has an answer to every request but one. -/
noncomputable def allBut (t : Request) : Converter := fun active env ty =>
  if Request.mk active (env.outline.at ty) = t then Conversion.outOfDepth else pure .any

theorem uniform_allBut (t : Request) : Uniform (allBut t) := by
  intro active env env' ty heq hends
  unfold allBut at *
  rwa [heq] at hends

theorem answers_allBut_iff {t t' : Request} : Answers (allBut t) t' ↔ t' ≠ t := by
  have hself : ∀ env : Env, env.outline.at t'.place.type = t'.place →
      Request.mk t'.active (env.outline.at t'.place.type) = t' := fun env henv =>
    congrArg (Request.mk t'.active) henv
  constructor
  · rintro hanswers rfl
    have henv : (Outline.env (t'.place.scope, t'.place.bound)).outline.at t'.place.type =
        t'.place := by rw [Outline.outline_env]; rfl
    obtain ⟨g, refs, h⟩ := hanswers _ henv
    rw [allBut, if_pos (hself _ henv)] at h
    cases h
  · intro hne env henv
    rw [allBut, if_neg (hself env henv ▸ hne)]
    exact ⟨.any, [], rfl⟩

theorem asked_of_needs {U : Request → Prop} {active : List DeclKey} {o : Outline} {ty : TypeExpr}
    (hasks : Asks U (fun _ => True) fun (env : EnvAt o) conv => convertWith w conv active env ty)
    {t : Request} (h : Needs w ⟨active, o.at ty⟩ t) : U t := by
  obtain ⟨N, hU, hN⟩ := exists_requests hasks
  have hnot := h (allBut t) (uniform_allBut t) fun hanswers => answers_allBut_iff.mp hanswers rfl
  rw [hN _ (uniform_allBut t)] at hnot
  obtain ⟨t', hnot⟩ := not_forall.mp hnot
  obtain ⟨ht', hnot⟩ := Classical.not_imp.mp hnot
  obtain rfl : t' = t := not_not.mp fun hne => hnot (answers_allBut_iff.mpr hne)
  exact hU t' ht'

/-! ## Descent -/

/-- More declarations are marked than before, or the type is smaller. -/
def Descends (t t' : Request) : Prop :=
  t.active.length < t'.active.length ∨
    t.active.length = t'.active.length ∧ t'.place.type.parts.length < t.place.type.parts.length

theorem descends_of_needs (h : NoUnionNames w.scopes) {t t' : Request} (hneeds : Needs w t t') :
    Descends t t' := by
  have hasks : Asks (Nests w t.place.Inside (fun _ => True) t.active) (fun _ => True)
      fun (env : EnvAt (t.place.scope, t.place.bound)) conv =>
        convertWith w conv t.active env t.place.type :=
    asks_convertWith (unionClosed_of_noUnionNames h (partClosed_inside t.place)) closed_true _
      (fun ty hty => ⟨rfl, rfl, hty⟩) trivial
  rcases asked_of_needs hasks hneeds with ⟨hactive, -, -, htype⟩ | ⟨⟨key, -, -, hactive⟩, -⟩
  · exact Or.inr ⟨congrArg List.length hactive.symm, length_parts_lt htype⟩
  · refine Or.inl ?_
    rw [hactive, List.length_cons]
    omega

theorem Descends.trans {t t' t'' : Request} (h : Descends t t') (h' : Descends t' t'') :
    Descends t t'' := by
  unfold Descends at *
  omega

/-- **Needs never lead in a circle where no name stands for a union.** -/
theorem not_circular_of_noUnionNames (h : NoUnionNames w.scopes) (t : Request) :
    ¬ Circular w t := by
  rintro ⟨t', -, hcircle⟩
  have hdescends : Descends t' t' := by
    refine TransGen.trans_induction_on (motive := fun {a b} _ => Descends a b) hcircle ?_ ?_
    · intro _ _ hneeds
      exact descends_of_needs h hneeds
    · intro _ _ _ _ _ hab hbc
      exact hab.trans hbc
  unfold Descends at hdescends
  omega

end ApiSurface.Declaration
