/-
# `ApiSurface.Proofs.Declaration.Blame` — what a derivation without an answer fails for

A derivation makes conversions one after the other, and what it goes on with depends on the guesses
that they give.  So the requests of a derivation are not known in advance.  But if it has no answer,
some request is to blame: as long as that one has no answer, a converter may know more and still the
derivation has none (`Explained`).

For this the derivation's own bounds must never be reached.  Each class is entered once, after its
name is claimed, and there are only so many names of classes.
-/
import ApiSurface.Proofs.Declaration.Derived
import ApiSurface.Proofs.Declaration.Ends

namespace ApiSurface.Declaration

variable {w : World}

/-! ## Signatures -/

/-- All requests; which of them a derivation makes is of no importance here. -/
abbrev AnyRequest : Request → Prop :=
  fun _ => True

theorem asks_type (o : Outline) (ty : TypeExpr) :
    Asks AnyRequest (fun _ => True) fun (env : EnvAt o) conv => conv [] env ty :=
  .ask trivial

theorem asks_paramGuess (o : Outline) (p : Param) :
    Asks AnyRequest (fun _ => True) fun (env : EnvAt o) conv => paramGuess w conv env p := by
  obtain ⟨name, type, optional, rest⟩ := p
  cases type with
  | none =>
      simp only [paramGuess]
      exact .pure fun _ => trivial
  | some ty =>
      simp only [paramGuess]
      split
      · split
        · exact asks_type o _
        · exact .pure fun _ => trivial
      · split
        · refine .widen (asks_convertUnion closed_true.unionClosed [] ?_ true) fun _ _ => trivial
          intro _ _
          trivial
        · exact asks_type o ty

theorem asks_bindBounds (params : List TypeParam) : ∀ o : Outline, ∃ o' : Outline,
    Asks AnyRequest (fun inner => inner.outline = o')
      fun (env : EnvAt o) conv => bindBounds conv env params := by
  induction params with
  | nil =>
      intro o
      simp only [bindBounds]
      exact ⟨o, .pure fun env => env.2⟩
  | cons p ps ih =>
      intro o
      obtain ⟨o', hrest⟩ := ih (o.1, Table.keys (Table.insert o.env.bindings p.name .any))
      let inside : EnvAt o × {_g : Guess // True} → Env := fun q =>
        { q.1.1 with bindings := Table.insert q.1.1.bindings p.name q.2 }
      have hrest : Asks AnyRequest (fun inner => inner.outline = o')
          fun q conv => bindBounds conv (inside q) ps := by
        refine hrest.comp fun q => ⟨inside q, ?_⟩
        refine Prod.ext (scope_eq q.1) (keys_insert_congr ?_ _ _ _)
        exact (keys_eq q.1).trans (congrArg Prod.snd o.outline_env).symm
      refine ⟨o', ?_⟩
      simp only [bindBounds]
      split
      · exact .bind (asks_type o _) hrest
      · exact .bind (.pure fun _ => trivial) hrest

theorem asks_convertSig (ret? : Option Guess) (sig : FnSig) (o : Outline) :
    Asks AnyRequest (fun _ => True)
      fun (env : EnvAt o) conv => convertSig w conv ret? (sig, env) := by
  obtain ⟨o', hbounds⟩ := asks_bindBounds sig.typeParams o
  have hargs : Asks AnyRequest (fun _ => True)
      fun (inner : EnvAt o') conv => sig.params.mapM (paramGuess w conv inner) :=
    .mapM fun p _ => asks_paramGuess o' p
  refine .bind hbounds (.bind (hargs.comp Prod.snd) ?_)
  cases ret? with
  | some ret => exact .bind (P := fun _ => True) (.pure fun _ => trivial) (.pure fun _ => trivial)
  | none =>
      obtain ⟨typeParams, params, ret⟩ := sig
      cases ret with
      | none => exact .bind (P := fun _ => True) (.pure fun _ => trivial) (.pure fun _ => trivial)
      | some ty =>
          let inner : (EnvAt o × EnvAt o') × {_gs : List Guess // True} → EnvAt o' := fun q => q.1.2
          exact .bind ((asks_type o' ty).comp inner) (.pure fun _ => trivial)

theorem asks_entryOf (sigs : List PlacedSig) (receiver : Option Guess) (convention : Convention)
    (ret? : Option Guess) : Asks AnyRequest (fun _ => True)
      fun (_ : Unit) conv => entryOf w conv sigs receiver convention ret? := by
  refine .bind (.mapM fun s _ => ?_) (.pure fun _ => trivial)
  exact (asks_convertSig ret? s.1 s.2.outline).comp fun _ => ⟨s.2, rfl⟩

theorem asks_classEnv (c : ClassRef) : Asks AnyRequest (fun _ => True)
    fun (_ : Unit) conv => classEnv w conv c := by
  refine .bind (.comp (.widen (asks_envInside (V := fun _ => True) (fun _ _ _ _ => trivial)
    (List.forall_mem_nil _)) fun _ _ => trivial) fun _ => ⟨{ scope := c.scope }, rfl⟩)
    (.pure fun _ => trivial)

theorem asks_membersAt (env : Env) (ty : TypeExpr) : Asks AnyRequest (fun _ => True)
    fun (_ : Unit) conv => membersOf w conv env ty := by
  have hplace : (fun _ : Place => True) (env.outline.at ty) := trivial
  obtain ⟨_, -, hasks⟩ := asks_membersOf (closed_true (w := w)) hplace
  exact (hasks.comp fun _ => ⟨env, rfl⟩).imp (fun _ _ => trivial) fun _ _ => trivial

/-- Which interfaces are asked for does not depend on the methods that are there already. -/
theorem asks_instanceMethods (env : Env) (tys : List TypeExpr) :
    Asks AnyRequest (fun _ => True) fun methods conv => instanceMethods w conv env methods tys := by
  induction tys with
  | nil =>
      simp only [instanceMethods]
      exact .pure fun _ => trivial
  | cons ty tys ih =>
      simp only [instanceMethods]
      refine .bind ((asks_membersAt env ty).comp fun _ => ()) ?_
      let added : List (String × List PlacedSig) × {_ms : Option (List PlacedMember) // True} →
          List (String × List PlacedSig) := fun q => q.2.1.elim q.1 fun members =>
            addImplemented (q.1.map Prod.fst) q.1 (methodGroups members false)
      refine (ih.comp added).congr fun q conv => ?_
      obtain ⟨methods, members, -⟩ := q
      cases members <;> rfl

/-! ## Blame -/

/-- With a converter that answers more, the computation has the same answer; and if it has none,
there is a request without an answer that leaves it without one. -/
structure Explained {α : Type} (C : Converter) (m : Converter → Derive α) (d : Deriver) : Prop where
  refines : ∀ conv, Refines C conv → ∀ r, m C d = some r → m conv d = some r
  blames : m C d = none → ∃ t, ¬ Answers C t ∧
    ∀ conv, Uniform conv → Refines C conv → ¬ Answers conv t → m conv d = none

namespace Explained

variable {α β : Type} {C : Converter} {d : Deriver}

/-- A computation that makes no conversion and has an answer. -/
theorem const {m : Derive α} {a : α} {d' : Deriver} (h : m d = some (a, d')) :
    Explained C (fun _ => m) d :=
  ⟨fun _ _ _ hr => hr, fun hnone => nomatch h.symm.trans hnone⟩

theorem bind {x : Converter → Derive α} {f : Converter → α → Derive β} (hx : Explained C x d)
    (hf : ∀ a d', x C d = some (a, d') → Explained C (fun conv => f conv a) d') :
    Explained C (fun conv => x conv >>= f conv) d := by
  constructor
  · rintro conv hconv ⟨b, d''⟩ hr
    obtain ⟨a, d', ha, hb⟩ := Derive.bind_eq_some_iff.mp hr
    exact Derive.bind_eq_some_iff.mpr ⟨a, d', hx.refines conv hconv _ ha,
      (hf a d' ha).refines conv hconv _ hb⟩
  · intro hnone
    cases ha : x C d with
    | none =>
        obtain ⟨t, ht, hblame⟩ := hx.blames ha
        refine ⟨t, ht, fun conv huniform hconv hnot => ?_⟩
        exact congrArg (·.bind fun p => f conv p.1 p.2) (hblame conv huniform hconv hnot)
    | some p =>
        obtain ⟨a, d'⟩ := p
        have hsame : ∀ conv, x conv d = some (a, d') → (x conv >>= f conv) d = f conv a d' :=
          fun conv h => congrArg (·.bind fun p => f conv p.1 p.2) h
        obtain ⟨t, ht, hblame⟩ := (hf a d' ha).blames ((hsame C ha).symm.trans hnone)
        refine ⟨t, ht, fun conv huniform hconv hnot => ?_⟩
        exact (hsame conv (hx.refines conv hconv _ ha)).trans (hblame conv huniform hconv hnot)

/-- A conversion is left without an answer by each of the requests that it makes. -/
theorem converted (hC : Uniform C) {ι : Type} {U : Request → Prop} {P : α → Prop}
    {X : ι → Converter → Conversion α} (hX : Asks U P X) (i : ι) :
    Explained C (fun conv => Derive.converted w (X i conv)) d := by
  obtain ⟨N, -, hN⟩ := hX
  have hN := hN i
  have hnone : ∀ c : Conversion α, ¬ c.Ends → Derive.converted w c d = none := by
    intro c hc
    cases hcase : c with
    | none => rfl
    | some r => exact absurd ⟨r.1, r.2, hcase⟩ hc
  constructor
  · intro conv hconv r hr
    cases hc : X i C with
    | none =>
        rw [hc] at hr
        cases hr
    | some p =>
        rw [hc] at hr
        rw [hN.refines C conv hconv p hc]
        exact hr
  · intro hd
    have hends : ¬ (X i C).Ends := by
      rintro ⟨a, refs, h⟩
      rw [h] at hd
      cases hd
    rw [hN.ends_iff C hC] at hends
    obtain ⟨t, ht⟩ := not_forall.mp hends
    obtain ⟨ht, hnot⟩ := Classical.not_imp.mp ht
    refine ⟨t, hnot, fun conv huniform _ hnot' => hnone _ fun hends' => ?_⟩
    exact hnot' ((hN.ends_iff conv huniform).mp hends' t ht)

end Explained

/-! ## Members -/

section Emitting

variable {C : Converter} (hC : Uniform C)

include hC

theorem explained_entry (sigs : List PlacedSig) (receiver : Option Guess) (convention : Convention)
    (ret? : Option Guess) (d : Deriver) : Explained C
      (fun conv => Derive.converted w (entryOf w conv sigs receiver convention ret?)) d :=
  .converted hC (asks_entryOf sigs receiver convention ret?) ()

theorem explained_methods (name : String) (receiver : Guess)
    (groups : List (String × List PlacedSig)) : ∀ d,
      Explained C (fun conv => emitMethods w conv name receiver groups) d := by
  induction groups with
  | nil =>
      intro d
      simp only [emitMethods]
      exact .const rfl
  | cons g groups ih =>
      intro d
      obtain ⟨member, sigs⟩ := g
      simp only [emitMethods]
      split
      · exact .bind (explained_entry hC ..) fun e d _ => .bind (.const rfl) fun _ d _ => ih d
      · exact ih d

theorem explained_functions (memberPrefix : String) (groups : List (String × List PlacedSig)) :
    ∀ d, Explained C (fun conv => emitFunctions w conv memberPrefix groups) d := by
  induction groups with
  | nil =>
      intro d
      simp only [emitFunctions]
      exact .const rfl
  | cons g groups ih =>
      intro d
      obtain ⟨member, sigs⟩ := g
      simp only [emitFunctions]
      exact .bind (explained_entry hC ..) fun e d _ => .bind (.const rfl) fun _ d _ => ih d

theorem explained_constructorEntry (receiver : Guess) (parent : Option String)
    (sigs : List PlacedSig) (d : Deriver) :
    Explained C (fun conv => constructorEntry w conv receiver parent sigs) d := by
  simp only [constructorEntry]
  split
  · exact .const rfl
  · exact explained_entry hC ..

theorem explained_members (c : ClassRef) (parent : Option String) (d : Deriver) :
    Explained C (fun conv => emitMembers w conv c parent) d := by
  unfold emitMembers
  refine .bind (.converted hC (asks_classEnv c) ()) fun env d _ => ?_
  refine .bind (explained_constructorEntry hC ..) fun e d _ => ?_
  refine .bind (.const rfl) fun _ d _ => ?_
  refine .bind (.converted hC (asks_instanceMethods env _) _) fun methods d _ => ?_
  refine .bind (explained_methods hC ..) fun _ d _ => ?_
  refine .bind (explained_functions hC ..) fun _ d _ => ?_
  cases parent with
  | none => exact .const rfl
  | some p => exact .const rfl

theorem explained_function (scope : Nat) (sigs : List FnSig) (name : String) (d : Deriver) :
    Explained C (fun conv => emitFunction w conv scope sigs name) d :=
  .bind (explained_entry hC ..) fun _ _ _ => .const rfl

theorem explained_variable (scope : Nat) (type : TypeExpr) (name memberPrefix : String)
    (d : Deriver) :
    Explained C (fun conv => emitVariable w conv scope type name memberPrefix) d := by
  unfold emitVariable
  split
  · exact explained_function hC ..
  · split
    · split
      · exact explained_function hC ..
      · exact .const rfl
    · exact .const rfl
  · refine .bind (.converted hC (asks_membersAt _ _) ()) fun ms d _ => ?_
    cases ms with
    | none => exact .const rfl
    | some members =>
        refine .bind (explained_functions hC ..) fun _ d _ => ?_
        simp only
        split
        · exact .bind (explained_entry hC ..) fun _ _ _ => .const rfl
        · exact .const rfl

end Emitting

/-! ## Classes -/

/-- The names of all classes. -/
def World.declaredNames (w : World) : List String :=
  w.scopes.all.zipIdx.flatMap fun p => p.1.classes.map fun q => w.className ⟨p.2, q.2⟩

theorem length_declaredNames (w : World) : w.declaredNames.length = w.classCount := by
  refine length_collect (f := fun (sc : Scope) id => sc.classes.map fun q => w.className ⟨id, q.2⟩)
    fun sc id => ?_
  exact List.length_map _

theorem className_mem {c : ClassRef} (h : w.scopes.Declares c) :
    w.className c ∈ w.declaredNames := by
  obtain ⟨sc, name, hsc, hc⟩ := h
  refine mem_collect (f := fun sc id => sc.classes.map fun q => w.className ⟨id, q.2⟩) hsc ?_
  exact List.mem_map.mpr ⟨(name, c.decl), Table.mem_of_find? hc, rfl⟩

/-- Every name is claimed once and for a class that is declared, and so are the classes noted. -/
structure Deriver.Claims (w : World) (d : Deriver) : Prop where
  nodup : d.emitted.Nodup
  emitted : ∀ n ∈ d.emitted, n ∈ w.declaredNames
  pending : ∀ c ∈ d.pending, w.scopes.Declares c

theorem Deriver.Claims.of_grows {d d' : Deriver} (h : d.Claims w) (hg : d.Grows w d') :
    d'.Claims w where
  nodup := hg.nodup h.nodup
  emitted := fun n hn => (hg.claimed n hn).elim (h.emitted n) fun ⟨_, hc, heq⟩ =>
    heq ▸ className_mem hc
  pending := fun c hc => (hg.declared c hc).elim (h.pending c) id

theorem Deriver.Claims.of_takes {d d' : Deriver} {c? : Option ClassRef} (h : d.Claims w)
    (htakes : d.Takes w c? d') : d'.Claims w where
  nodup := htakes.emitted ▸ h.nodup
  emitted := htakes.emitted ▸ h.emitted
  pending := fun c hc => h.pending c (htakes.left hc)

theorem Deriver.Claims.visited {d : Deriver} (h : d.Claims w) :
    Visited w.declaredNames (w.classCount + 1) d.emitted :=
  ⟨h.nodup, h.emitted, by rw [length_declaredNames]; omega⟩

theorem explained_class {C : Converter} (hC : Uniform C) (fuel : Nat) : ∀ c,
    w.scopes.Declares c → ∀ d, Visited w.declaredNames fuel d.emitted →
      Explained C (fun conv => emitClass w conv fuel c) d := by
  induction fuel with
  | zero =>
      intro _ _ _ hvisited
      exact absurd hvisited.pos (Nat.lt_irrefl 0)
  | succ fuel ih =>
      intro c hc d hvisited
      simp only [emitClass]
      by_cases hemitted : w.className c ∈ d.emitted
      · refine .bind (.const (claim_of_mem hemitted)) fun new d' h => ?_
        cases (claim_of_mem hemitted).symm.trans h
        exact .const rfl
      · refine .bind (.const (claim_of_not_mem hemitted)) fun new d' h => ?_
        cases (claim_of_not_mem hemitted).symm.trans h
        simp only [if_true]
        cases hp : parentClass? w c with
        | none => exact explained_members hC ..
        | some p =>
            refine .bind (ih p (parentClass?_declares hp) _ ?_) fun _ d _ => explained_members hC ..
            exact hvisited.cons (className_mem hc) hemitted

/-! ## The whole derivation -/

theorem explained_item {C : Converter} (hC : Uniform C) {item : SurfaceItem}
    (hitem : ItemsDeclared w.scopes [item]) {d : Deriver} (hd : d.Claims w) :
    Explained C (fun conv => emitItem w conv item) d := by
  cases item with
  | ofClass scope decl name =>
      exact explained_class hC _ _ (hitem scope decl name List.mem_cons_self) d hd.visited
  | ofFunction scope sigs name => exact explained_function hC ..
  | ofVariable scope type name memberPrefix => exact explained_variable hC ..

section Deriving

variable {C : Converter} (hC : Uniform C) (hfaithful : Faithful w (fun _ => True) C)

include hC hfaithful

theorem explained_items (items : List SurfaceItem) : ItemsDeclared w.scopes items → ∀ d,
    d.Claims w → Explained C (fun conv => emitItems w conv items) d := by
  induction items with
  | nil =>
      intro _ d _
      simp only [emitItems]
      exact .const rfl
  | cons item items ih =>
      intro hitems d hd
      obtain ⟨hitem, hitems⟩ := itemsDeclared_cons.mp hitems
      simp only [emitItems]
      refine .bind (explained_item hC hitem hd) fun a d' h => ih hitems d' (hd.of_grows ?_)
      exact (emits_item hfaithful hitem d a d' h).1

/-- Each class that is taken off the list gets a name claimed that was not claimed before. -/
theorem explained_pending (fuel : Nat) : ∀ d, d.Claims w →
    Visited w.declaredNames fuel d.emitted →
      Explained C (fun conv => emitPending w conv fuel) d := by
  induction fuel with
  | zero =>
      intro _ _ hvisited
      exact absurd hvisited.pos (Nat.lt_irrefl 0)
  | succ fuel ih =>
      intro d hd hvisited
      simp only [emitPending]
      obtain ⟨c?, d₁, hnext⟩ := exists_nextPending w d
      have htakes := takes_of_nextPending hnext
      refine .bind (.const hnext) fun _ d' h => ?_
      cases hnext.symm.trans h
      cases c? with
      | none => exact .const rfl
      | some c =>
          have hc := hd.pending c (htakes.noted c rfl)
          have hd₁ : d₁.Claims w := hd.of_takes htakes
          refine .bind (explained_class hC _ c hc _ hd₁.visited) fun a d₂ h₂ => ?_
          obtain ⟨hgrows, hclaimed, -⟩ := emitClass_spec hfaithful _ c hc _ a d₂ h₂
          have hd₂ := hd₁.of_grows hgrows
          refine ih d₂ hd₂ ⟨hd₂.nodup, hd₂.emitted, ?_⟩
          have hsub : d.emitted ⊆ d₂.emitted := fun n hn => hgrows.emitted n (htakes.emitted ▸ hn)
          have hlength := (List.nodup_cons.mpr ⟨htakes.new c rfl, hd.nodup⟩).length_le_of_subset
            (List.cons_subset.mpr ⟨hclaimed, hsub⟩)
          have henough := hvisited.enough
          rw [List.length_cons] at hlength
          omega

theorem explained_all {items : List SurfaceItem} (hitems : ItemsDeclared w.scopes items) :
    Explained C (fun conv => emitAll w conv items) ⟨.empty, [], []⟩ := by
  have hstart : Deriver.Claims w ⟨.empty, [], []⟩ := ⟨List.nodup_nil, nofun, nofun⟩
  refine .bind (explained_items hC hfaithful items hitems _ hstart) fun a d h => ?_
  have hd := hstart.of_grows (emits_items hfaithful items hitems _ a d h).1
  exact explained_pending hC hfaithful _ d hd hd.visited

end Deriving

end ApiSurface.Declaration
