/-
# `ApiSurface.Proofs.Declaration.Ends` — which conversions come to an end

A request needs another one if a converter without an answer to the second has none to the first.
A conversion comes to an end exactly when its needs do not lead in a circle
(`answers_convertFully_iff`), and then within the depth that is computed for it.

A circle is never left, at whatever depth.  In the other direction, along a chain of needs the
declarations being expanded only become more, and all places are known, so in a chain that is long
enough some request stands twice.
-/
import ApiSurface.Proofs.Circles
import ApiSurface.Proofs.Declaration.Nested
import Mathlib.Data.List.ProdSigma
import Mathlib.Data.Nat.Basic

namespace ApiSurface.Declaration

open Relation (TransGen)

/-- Without an answer to the second request there is none to the first. -/
def Needs (w : World) (t t' : Request) : Prop :=
  ∀ conv, Uniform conv → ¬ Answers conv t' → ¬ Answers (convertWith w conv) t

/-- The needs of the request lead in a circle. -/
def Circular (w : World) (t : Request) : Prop :=
  Circling (Needs w) t

variable {w : World}

/-! ## Converters by depth -/

theorem asks_reaches {V : Place → Prop} (hV : Closed w V) (active : List DeclKey) {o : Outline}
    {ty : TypeExpr} (h : V (o.at ty)) : Asks (Reaches w V active) (fun _ => True)
      fun (env : EnvAt o) conv => convertWith w conv active env ty := by
  have hinside : ∀ ty' ∈ ty.inside, V (o.at ty') := fun ty' hty' =>
    hV.part o ty h ty' (List.mem_of_mem_tail hty')
  exact .widen (asks_convertWith hV.unionClosed hV active hinside h)
    fun _ ht => ht.elim Here.reaches Marks.reaches

/-- What a conversion asks for, wherever it stands. -/
theorem asks_anywhere (active : List DeclKey) (o : Outline) (ty : TypeExpr) :
    Asks (Reaches w (fun _ => True) active) (fun _ => True)
      fun (env : EnvAt o) conv => convertWith w conv active env ty :=
  asks_reaches closed_true active trivial

theorem uniform_convertWith {conv : Converter} (h : Uniform conv) :
    Uniform (convertWith w conv) := by
  intro active env env' ty heq hends
  obtain ⟨N, -, hN⟩ := asks_anywhere (w := w) active env'.outline ty
  exact ((hN ⟨env', rfl⟩).ends_iff conv h).mpr (((hN ⟨env, heq⟩).ends_iff conv h).mp hends)

theorem uniform_convertTo (depth : Nat) : Uniform (convertTo w depth) := by
  induction depth with
  | zero =>
      rintro _ _ _ _ _ ⟨_, _, h⟩
      cases h
  | succ depth ih => exact uniform_convertWith ih

theorem uniform_convertFully : Uniform (convertFully w) :=
  fun active env env' ty => uniform_convertTo _ active env env' ty

theorem answers_of_ends {conv : Converter} (h : Uniform conv) {active : List DeclKey} {env : Env}
    {ty : TypeExpr} (hends : (conv active env ty).Ends) :
    Answers conv ⟨active, env.outline.at ty⟩ := by
  intro env' henv'
  obtain ⟨hscope, hbound, -⟩ := Place.mk.inj henv'
  exact h active env env' ty (Prod.ext hscope hbound).symm hends

/-- A conversion has an answer exactly when all that it asks for has one. -/
theorem exists_requests {U : Request → Prop} {active : List DeclKey} {o : Outline} {ty : TypeExpr}
    (hasks : Asks U (fun _ => True) fun (env : EnvAt o) conv => convertWith w conv active env ty) :
    ∃ N : Request → Prop, (∀ t, N t → U t) ∧ ∀ conv, Uniform conv →
      (Answers (convertWith w conv) ⟨active, o.at ty⟩ ↔ ∀ t, N t → Answers conv t) := by
  obtain ⟨N, hU, hN⟩ := hasks
  refine ⟨N, hU, fun conv h => ⟨fun hanswers => ?_, fun hall env henv => ?_⟩⟩
  · have henv : o.env.outline = o := Outline.outline_env o
    exact ((hN ⟨o.env, henv⟩).ends_iff conv h).mp (hanswers o.env (congrArg (·.at ty) henv))
  · obtain ⟨hscope, hbound, -⟩ := Place.mk.inj henv
    exact ((hN ⟨env, Prod.ext hscope hbound⟩).ends_iff conv h).mpr hall

/-- A request without an answer needs one that has none either. -/
theorem exists_needs {V : Place → Prop} (hV : Closed w V) {conv : Converter} (h : Uniform conv)
    {t : Request} (ht : V t.place) (hnot : ¬ Answers (convertWith w conv) t) :
    ∃ t', Needs w t t' ∧ Reaches w V t.active t' ∧ ¬ Answers conv t' := by
  obtain ⟨active, scope, bound, ty⟩ := t
  have ht : V (Outline.at (scope, bound) ty) := ht
  obtain ⟨N, hreach, hN⟩ := exists_requests (asks_reaches hV active ht)
  have hnot : ¬ ∀ t', N t' → Answers conv t' := fun hall => hnot ((hN conv h).mpr hall)
  obtain ⟨t', hnot⟩ := not_forall.mp hnot
  obtain ⟨ht', hnot⟩ := Classical.not_imp.mp hnot
  exact ⟨t', fun conv' h' hnot' hall => hnot' ((hN conv' h').mp hall t' ht'), hreach t' ht', hnot⟩

/-! ## Circles -/

/-- No conversion of a request whose needs lead in a circle ends, however deep it goes. -/
theorem not_answers_of_circular (depth : Nat) {t : Request} (h : Circular w t) :
    ¬ Answers (convertTo w depth) t := by
  refine h.not_ends (E := fun depth t => Answers (convertTo w depth) t) ?_ ?_ depth t
  · intro t hanswers
    obtain ⟨_, _, h⟩ := hanswers (Outline.env (t.place.scope, t.place.bound))
      (by rw [Outline.outline_env]; rfl)
    cases h
  · intro depth t t' hneeds hnot
    exact hneeds _ (uniform_convertTo depth) hnot

/-- A request that needs another one, with the declarations being expanded there. -/
def Leads (w : World) (t t' : Request) : Prop :=
  Needs w t t' ∧ Grown w t.active t'.active

theorem grown_of_leads {t t' : Request} (h : TransGen (Leads w) t t') :
    Grown w t.active t'.active := by
  induction h with
  | single h => exact h.2
  | tail _ h ih => exact ih.trans h.2

theorem Grown.eq_append {active active' : List DeclKey} (h : Grown w active active') :
    ∃ new, active' = new ++ active ∧ new.Nodup ∧ ∀ k ∈ new, k ∈ w.scopes.expandable := by
  induction h with
  | refl => exact ⟨[], rfl, List.nodup_nil, List.forall_mem_nil _⟩
  | @step active' key _ declared new ih =>
      obtain ⟨added, rfl, hnodup, hadded⟩ := ih
      refine ⟨key :: added, rfl, List.nodup_cons.mpr ⟨?_, hnodup⟩,
        List.forall_mem_cons.mpr ⟨declared, hadded⟩⟩
      intro hmem
      exact new (List.mem_append_left _ hmem)

theorem Grown.length_le {active active' : List DeclKey} (h : Grown w active active') :
    active.length ≤ active'.length ∧
      active'.length ≤ active.length + w.scopes.expandable.length := by
  obtain ⟨new, rfl, hnodup, hnew⟩ := h.eq_append
  have hlength := hnodup.length_le_of_subset hnew
  rw [List.length_append]
  omega

theorem Grown.eq_of_length {active active' : List DeclKey} (h : Grown w active active')
    (hlength : active.length = active'.length) : active = active' := by
  obtain ⟨new, rfl, -, -⟩ := h.eq_append
  rw [List.length_append] at hlength
  obtain rfl : new = [] := List.length_eq_zero_iff.mp (by omega)
  rfl

/-- A conversion that does not end, although it goes deeper than there are places for each number of
declarations being expanded, has come into a circle. -/
theorem circular_of_not_answers {ps : List Place} (hps : Closed w (· ∈ ps)) {t : Request}
    (ht : t.place ∈ ps) {depth : Nat}
    (hdepth : (w.scopes.expandable.length + 1) * ps.length ≤ depth)
    (hnot : ¬ Answers (convertTo w depth) t) : Circular w t := by
  -- How many declarations have been marked since the beginning, and the place.
  let index : Request → Nat × Place := fun t' => (t'.active.length - t.active.length, t'.place)
  let I : Request → Prop := fun t' => t'.place ∈ ps ∧ Grown w t.active t'.active
  refine Circling.mono (R := fun t' t'' => I t' ∧ Leads w t' t'') (fun _ _ h => h.2.1) ?_
  have hpool : ∀ depth t', I t' → ¬ Answers (convertTo w depth) t' →
      index t' ∈ List.range (w.scopes.expandable.length + 1) ×ˢ ps := by
    intro _ t' ht' _
    have hlength := ht'.2.length_le
    refine List.mem_product.mpr ⟨List.mem_range.mpr ?_, ht'.1⟩
    show t'.active.length - t.active.length < _
    omega
  refine circling_of_not_ends (E := fun depth t => Answers (convertTo w depth) t) (I := I)
    (f := index) ?_ hpool ?_ ?_ ⟨ht, .refl⟩ hnot
  · intro depth t' ht' hnot'
    obtain ⟨t'', hneeds, ⟨hplace, hgrown⟩, hnot''⟩ :=
      exists_needs hps (uniform_convertTo depth) ht'.1 hnot'
    exact ⟨t'', ⟨ht', hneeds, hgrown⟩, ⟨hplace, ht'.2.trans hgrown⟩, hnot''⟩
  · intro a b hab heq
    obtain ⟨c, ⟨ha, -⟩, -⟩ := TransGen.head'_iff.mp hab
    have hgrown := grown_of_leads (TransGen.mono (fun _ _ h => h.2) _ _ hab)
    obtain ⟨hactive, hplace⟩ := Prod.mk.inj heq
    have hla := ha.2.length_le
    have hlb := hgrown.length_le
    have hactive : a.active = b.active := hgrown.eq_of_length (by omega)
    obtain ⟨active, place⟩ := a
    obtain ⟨active', place'⟩ := b
    exact congrArg₂ Request.mk hactive hplace
  · rwa [List.length_product, List.length_range]

/-! ## The verdict -/

/-- **A conversion has an answer exactly when its needs do not lead in a circle.** -/
theorem answers_convertFully_iff (t : Request) :
    Answers (convertFully w) t ↔ ¬ Circular w t := by
  constructor
  · intro hanswers hcircular
    exact not_answers_of_circular _ hcircular hanswers
  · intro hnot
    by_contra hanswers
    refine hnot (circular_of_not_answers (closed_placesFrom t.place) (mem_placesFrom t.place) ?_
      hanswers)
    rw [length_placesFrom, World.depthFor]

/-! ## Other depths -/

theorem refines_convertWith {conv conv' : Converter} (h : Refines conv conv') :
    Refines (convertWith w conv) (convertWith w conv') := by
  intro active env ty r hr
  obtain ⟨N, -, hN⟩ := asks_anywhere (w := w) active env.outline ty
  exact (hN ⟨env, rfl⟩).refines conv conv' h r hr

theorem refines_convertTo {depth depth' : Nat} (h : depth ≤ depth') :
    Refines (convertTo w depth) (convertTo w depth') := by
  induction depth generalizing depth' with
  | zero =>
      intro _ _ _ _ hr
      cases hr
  | succ depth ih =>
      cases depth' with
      | zero => omega
      | succ depth' => exact refines_convertWith (ih (by omega))

/-- A conversion that ends at any depth ends within the one that is computed for it, and with the
same answer. -/
theorem convertFully_eq_some {depth : Nat} {active : List DeclKey} {env : Env} {ty : TypeExpr}
    {r : Guess × List ClassRef} (h : convertTo w depth active env ty = some r) :
    convertFully w active env ty = some r := by
  have hanswers := answers_of_ends (uniform_convertTo depth) ⟨r.1, r.2, h⟩
  have hnot : ¬ Circular w ⟨active, env.outline.at ty⟩ := fun hcircular =>
    not_answers_of_circular depth hcircular hanswers
  obtain ⟨g, refs, hfull⟩ := (answers_convertFully_iff _).mpr hnot env rfl
  have hfull : convertTo w (w.depthFor ty) active env ty = some (g, refs) := hfull
  rcases Nat.le_total depth (w.depthFor ty) with hle | hle
  · exact refines_convertTo hle active env ty r h
  · have hsame := refines_convertTo hle active env ty _ hfull
    exact hfull.trans (hsame.symm.trans h)

/-- To the depth that is computed for it, a type is converted by what the types that it leads to are
converted to, each to its own depth. -/
theorem convertFully_eq : convertFully w = convertWith w (convertFully w) := by
  have hunfold : ∀ active env ty r, convertFully w active env ty = some r →
      convertWith w (convertFully w) active env ty = some r := by
    intro active env ty r h
    have h : convertTo w (w.depthFor ty) active env ty = some r := h
    cases hdepth : w.depthFor ty with
    | zero =>
        rw [hdepth] at h
        cases h
    | succ depth =>
        rw [hdepth] at h
        exact refines_convertWith (fun _ _ _ _ h => convertFully_eq_some h) active env ty r h
  funext active env ty
  cases hfull : convertFully w active env ty with
  | some r => exact (hunfold active env ty r hfull).symm
  | none =>
      cases hwith : convertWith w (convertFully w) active env ty with
      | none => rfl
      | some r =>
          -- What has an answer leads in no circle, so it has one to the computed depth as well.
          have hanswers := answers_of_ends (uniform_convertWith uniform_convertFully)
            ⟨r.1, r.2, hwith⟩
          have hnot : ¬ Circular w ⟨active, env.outline.at ty⟩ := by
            intro hcircular
            obtain ⟨t', hneeds, ht'⟩ := hcircular.exists_step
            exact hneeds _ uniform_convertFully
              (fun h => (answers_convertFully_iff t').mp h ht') hanswers
          obtain ⟨g, refs, h⟩ := (answers_convertFully_iff _).mpr hnot env rfl
          cases hfull.symm.trans h

end ApiSurface.Declaration
