/-
# `ApiSurface.Proofs.Declaration.Nested` — what the conversion of a type asks for

For every function of the conversion: it makes the same requests whatever the answers are.  A
request is for a type inside the one that is converted, or for what a name in it stands for; then
one more declaration is marked as being expanded (`asks_convertWith`).  Only what names for unions
stand for is gathered without a mark, so it is counted as inside.

The bounds on how often interfaces extend one another and names stand for one another are never
reached: each step visits a declaration that was not visited before, and there are only so many.
-/
import ApiSurface.Proofs.Declaration.Places
import Mathlib.Logic.Basic

namespace ApiSurface.Declaration

/-- The requests at places of the set, with the given declarations being expanded. -/
def Here (V : Place → Prop) (active : List DeclKey) (t : Request) : Prop :=
  t.active = active ∧ V t.place

/-- The requests at places of the set, where one more declaration is being expanded. -/
def Marks (w : World) (V : Place → Prop) (active : List DeclKey) (t : Request) : Prop :=
  (∃ key ∈ w.scopes.expandable, key ∉ active ∧ t.active = key :: active) ∧ V t.place

/-- Declarations that were marked one after the other, each of them once. -/
inductive Grown (w : World) (active : List DeclKey) : List DeclKey → Prop
  | refl : Grown w active active
  | step {active' : List DeclKey} {key : DeclKey} (before : Grown w active active')
      (declared : key ∈ w.scopes.expandable) (new : key ∉ active') : Grown w active (key :: active')

/-- The requests at places of the set, where at least the given declarations are being expanded. -/
def Reaches (w : World) (V : Place → Prop) (active : List DeclKey) (t : Request) : Prop :=
  V t.place ∧ Grown w active t.active

/-- The environments with an outline. -/
abbrev EnvAt (o : Outline) := {env : Env // env.outline = o}

variable {w : World} {V W : Place → Prop}

theorem Grown.trans {a a' a'' : List DeclKey} (h : Grown w a a') (h' : Grown w a' a'') :
    Grown w a a'' := by
  induction h' with
  | refl => exact h
  | step _ declared new ih => exact .step ih declared new

theorem Here.marks {active : List DeclKey} {key : DeclKey} (hkey : key ∈ w.scopes.expandable)
    (hnew : key ∉ active) {t : Request} (h : Here V (key :: active) t) : Marks w V active t :=
  ⟨⟨key, hkey, hnew, h.1⟩, h.2⟩

theorem Here.reaches {active : List DeclKey} {t : Request} (h : Here V active t) :
    Reaches w V active t :=
  ⟨h.2, h.1 ▸ .refl⟩

theorem Marks.reaches {active : List DeclKey} {t : Request} (h : Marks w V active t) :
    Reaches w V active t := by
  obtain ⟨⟨key, hkey, hnew, hactive⟩, hplace⟩ := h
  exact ⟨hplace, hactive ▸ .step .refl hkey hnew⟩

theorem Reaches.of_grown {a a' : List DeclKey} (h : Grown w a a') {t : Request}
    (ht : Reaches w V a' t) : Reaches w V a t :=
  ⟨ht.1, h.trans ht.2⟩

/-! ## Type parameters -/

/-- The set has the bounds of the type parameters. -/
def HasBounds (V : Place → Prop) (scope : Nat) (params : List TypeParam) : Prop :=
  ∀ p ∈ params, ∀ ty, p.bound = some ty → V ⟨scope, [], ty⟩

theorem hasBounds_of_boundPlaces {scope : Nat} {params : List TypeParam}
    (h : ∀ p ∈ boundPlaces scope params, V p) : HasBounds V scope params :=
  fun p hp _ hb => h _ (mem_placesOf (List.mem_filterMap.mpr ⟨p, hp, hb⟩))

theorem asks_bindParams {active : List DeclKey} {o : Outline} {scope : Nat}
    (params : List TypeParam) : HasBounds V scope params →
      ∀ args, (∀ arg ∈ args, V (o.at arg)) →
        Asks (Here V active) (fun bs => bs.map Prod.fst = params.map TypeParam.name)
          fun (env : EnvAt o) conv => bindParams conv active env scope params args := by
  induction params with
  | nil =>
      intro _ args _
      simp only [bindParams]
      exact .pure fun _ => rfl
  | cons p ps ih =>
      intro hbounds args hargs
      have hrest : Asks (Here V active)
          (fun bs => bs.map Prod.fst = (p :: ps).map TypeParam.name)
          fun (q : EnvAt o × {_g : Guess // True}) conv => do
            let rest ← bindParams conv active q.1 scope ps args.tail
            return (p.name, q.2.1) :: rest := by
        refine .bind (.comp (ih (fun q hq => hbounds q (List.mem_cons_of_mem _ hq)) args.tail
          fun arg harg => hargs arg (List.mem_of_mem_tail harg)) Prod.fst) ?_
        exact .pure fun q => congrArg (p.name :: ·) q.2.2
      cases args with
      | cons arg args =>
          simp only [bindParams, List.head?_cons]
          exact .bind (.ask ⟨rfl, hargs arg List.mem_cons_self⟩) hrest
      | nil =>
          cases hb : p.bound with
          | none =>
              simp only [bindParams, List.head?_nil, hb]
              exact .bind (.pure fun _ => trivial) hrest
          | some ty =>
              simp only [bindParams, List.head?_nil, hb]
              exact .bind (.comp (.ask (o := (scope, []))
                ⟨rfl, hbounds p List.mem_cons_self ty hb⟩)
                fun _ => ⟨{ scope := scope }, rfl⟩) hrest

theorem asks_envInside {active : List DeclKey} {o : Outline} {scope : Nat}
    {params : List TypeParam} (hbounds : HasBounds V scope params) {args : List TypeExpr}
    (hargs : ∀ arg ∈ args, V (o.at arg)) :
    Asks (Here V active) (fun inner => inner.outline = (scope, boundNames params))
      fun (env : EnvAt o) conv => envInside conv active env scope params args := by
  refine .bind (asks_bindParams params hbounds args hargs) (.pure fun q => ?_)
  refine Prod.ext rfl (keys_ofList_congr ?_)
  rw [q.2.2, List.map_map]
  rfl

/-! ## Unions -/

/-- The types of a list with the outlines of their environments. -/
def outlines {τ : Type} (l : List (τ × Env)) : List (τ × Outline) :=
  l.map fun m => (m.1, m.2.outline)

/-- The lists with the given types and outlines. -/
abbrev ListAt {τ : Type} (ms : List (τ × Outline)) := {l : List (τ × Env) // outlines l = ms}

/-- The set has the places of the types. -/
def HasPlaces (V : Place → Prop) (ms : List (TypeExpr × Outline)) : Prop :=
  ∀ m ∈ ms, V (m.2.at m.1)

/-- The members of a union, or the type itself. -/
def heads : TypeExpr → List TypeExpr
  | .union members => members
  | ty => [ty]

theorem heads_at (hV : PartClosed V) {o : Outline} {ty : TypeExpr} (h : V (o.at ty)) :
    ∀ m ∈ heads ty, V (o.at m) := by
  intro m hm
  refine hV o ty h m ?_
  cases ty with
  | union members => exact List.mem_cons_of_mem _ (mem_partsOfAll hm (self_mem_parts m))
  | keyword | textLiteral | numberLiteral | boolLiteral | template | ref | array | tuple
  | intersection | function | object | query | keyof | predicate | computed =>
      exact List.mem_singleton.mp hm ▸ self_mem_parts _

section Flatten

variable {U : Request → Prop} {o : Outline}
  {expand : Converter → EnvAt o → List String → List TypeExpr →
    Conversion (Option (List PlacedType))}

mutual

theorem asks_flattenWith (hV : PartClosed V)
    (hexpand : ∀ name args, V (o.at (.ref name args)) → ∃ ms, (∀ l, ms = some l → HasPlaces V l) ∧
      Asks U (fun r => r.map outlines = ms) fun (env : EnvAt o) conv => expand conv env name args) :
    ∀ ty, (∀ m ∈ heads ty, V (o.at m)) → ∃ ms, HasPlaces V ms ∧ Asks U (fun l => outlines l = ms)
      fun (env : EnvAt o) conv => flattenWith (expand conv env) env ty
  | .union members, h => by
      simp only [flattenWith]
      exact asks_flattenAll hV hexpand members h
  | .ref name args, h => by
      have h : V (o.at (.ref name args)) := h _ List.mem_cons_self
      obtain ⟨ms, hms, hasks⟩ := hexpand name args h
      simp only [flattenWith]
      cases ms with
      | none =>
          refine ⟨[(.ref name args, o)], List.forall_mem_singleton.mpr h, .bind hasks ?_⟩
          refine .of_pure (fun q => [(.ref name args, q.1.1)]) ?_ fun q => ?_
          · rintro ⟨env, r, hr⟩ conv
            obtain rfl := Option.map_eq_none_iff.mp hr
            rfl
          · exact congrArg (fun o => [(_, o)]) q.1.2
      | some ms =>
          refine ⟨ms, hms ms rfl, .bind hasks ?_⟩
          refine .of_pure (fun q => q.2.1.getD []) ?_ ?_
          · rintro ⟨env, r, hr⟩ conv
            obtain ⟨l, rfl, -⟩ := Option.map_eq_some_iff.mp hr
            rfl
          · rintro ⟨env, r, hr⟩
            obtain ⟨l, rfl, hl⟩ := Option.map_eq_some_iff.mp hr
            exact hl
  | .keyword _, h | .textLiteral _, h | .numberLiteral _, h | .boolLiteral _, h | .template, h
  | .array _, h | .tuple _, h | .intersection _, h | .function _, h | .object _, h | .query _, h
  | .keyof _, h | .predicate, h | .computed, h => by
      refine ⟨[(_, o)], List.forall_mem_singleton.mpr (h _ List.mem_cons_self), ?_⟩
      simp only [flattenWith]
      exact .pure fun env => congrArg (fun o => [(_, o)]) env.2

theorem asks_flattenAll (hV : PartClosed V)
    (hexpand : ∀ name args, V (o.at (.ref name args)) → ∃ ms, (∀ l, ms = some l → HasPlaces V l) ∧
      Asks U (fun r => r.map outlines = ms) fun (env : EnvAt o) conv => expand conv env name args) :
    ∀ tys, (∀ ty ∈ tys, V (o.at ty)) → ∃ ms, HasPlaces V ms ∧ Asks U (fun l => outlines l = ms)
      fun (env : EnvAt o) conv => flattenAll (expand conv env) env tys
  | [], _ => by
      simp only [flattenAll]
      exact ⟨[], List.forall_mem_nil _, .pure fun _ => rfl⟩
  | ty :: tys, h => by
      obtain ⟨ms, hms, hfirst⟩ := asks_flattenWith hV hexpand ty
        (heads_at hV (h ty List.mem_cons_self))
      obtain ⟨ms', hms', hrest⟩ := asks_flattenAll hV hexpand tys
        fun t ht => h t (List.mem_cons_of_mem _ ht)
      simp only [flattenAll]
      refine ⟨ms ++ ms', List.forall_mem_append.mpr ⟨hms, hms'⟩, .bind hfirst ?_⟩
      refine .bind (.comp hrest Prod.fst) (.pure fun q => ?_)
      exact (List.map_append ..).trans (congrArg₂ (· ++ ·) q.1.2.2 q.2.2)

end

end Flatten

theorem scope_eq {o : Outline} (env : EnvAt o) : env.1.scope = o.1 :=
  congrArg Prod.fst env.2

theorem keys_eq {o : Outline} (env : EnvAt o) : Table.keys env.1.bindings = o.2 :=
  congrArg Prod.snd env.2

/-- Whether a name is one of those bound in the outline. -/
def boundAt (name : List String) (o : Outline) : Bool :=
  match name with
  | [single] => o.2.contains single
  | _ => false

theorem isBound_eq {o : Outline} (name : List String) (env : EnvAt o) :
    isBound name env.1 = boundAt name o := by
  rcases name with _ | ⟨single, _ | ⟨_, _⟩⟩
  · rfl
  · rw [isBound, boundAt, Bool.eq_iff_iff, Table.has_iff, keys_eq, List.contains_iff_mem]
  · rfl

theorem hasBounds_alias (hV : Closed w V) {start id : Nat} {path : List String} {a : AliasDecl}
    (h : w.scopes.typeNamed? start path = some (.ofAlias id a)) :
    HasBounds V id a.typeParams ∧ V ⟨id, boundNames a.typeParams, a.type⟩ := by
  have hplaces := (alias_declared h).1
  constructor
  · exact hasBounds_of_boundPlaces fun p hp =>
      hV.declared p (hplaces p (List.mem_append_left _ hp))
  · exact hV.declared _ (hplaces _ (List.mem_append_right _ (mem_placesOf List.mem_cons_self)))

/-- The set has the parts of its types and what the names for unions stand for. -/
structure UnionClosed (w : World) (V : Place → Prop) : Prop where
  part : PartClosed V
  expanded : ∀ {start id path a members}, w.scopes.typeNamed? start path = some (.ofAlias id a) →
    a.type = .union members → HasBounds V id a.typeParams ∧ V ⟨id, boundNames a.typeParams, a.type⟩

theorem Closed.unionClosed (hV : Closed w V) : UnionClosed w V :=
  ⟨hV.part, fun hname _ => hasBounds_alias hV hname⟩

theorem hasPlace_argument (hV : PartClosed V) {o : Outline} {name : List String}
    {args : List TypeExpr} (h : V (o.at (.ref name args))) : ∀ arg ∈ args, V (o.at arg) :=
  fun arg harg => hV o _ h arg (List.mem_cons_of_mem _ (mem_partsOfAll harg (self_mem_parts arg)))

theorem asks_flatten (hV : UnionClosed w V) (active : List DeclKey) (depth : Nat) :
    ∀ (o : Outline) ty, (∀ m ∈ heads ty, V (o.at m)) → ∃ ms, HasPlaces V ms ∧
      Asks (Here V active) (fun l => outlines l = ms)
        fun (env : EnvAt o) conv => flatten w conv active depth env ty := by
  induction depth with
  | zero =>
      intro o ty h
      simp only [flatten]
      refine asks_flattenWith hV.part ?_ ty h
      intro _ _ _
      refine ⟨none, fun _ h => ?_, .pure fun _ => rfl⟩
      cases h
  | succ depth ih =>
      intro o ty h
      simp only [flatten]
      refine asks_flattenWith hV.part (fun name args href => ?_) ty h
      simp only [isBound_eq, scope_eq]
      -- A name that stands for anything but a union is left as it is.
      have hnone : ∃ ms : Option (List (TypeExpr × Outline)), (∀ l, ms = some l → HasPlaces V l) ∧
          Asks (Here V active) (fun r : Option (List PlacedType) => r.map outlines = ms)
            fun (_ : EnvAt o) _ => (pure none : Conversion _) := by
        refine ⟨none, fun _ h => ?_, .pure fun _ => rfl⟩
        cases h
      split
      · exact hnone
      · split
        next id decl hname =>
          split
          next members htype =>
            obtain ⟨hbounds, hplace⟩ := hV.expanded hname htype
            obtain ⟨ms, hms, hasks⟩ := ih (id, boundNames decl.typeParams) (.union members)
              (heads_at hV.part (htype ▸ hplace))
            refine ⟨some ms, fun l hl => Option.some.inj hl ▸ hms,
              .bind (asks_envInside hbounds (hasPlace_argument hV.part href)) ?_⟩
            refine .bind (.comp hasks Prod.snd) (.pure fun q => ?_)
            exact congrArg some q.2.2
          · exact hnone
        · exact hnone

/-- An environment with a given outline. -/
def Outline.env (o : Outline) : Env :=
  { scope := o.1, bindings := o.2.map fun name => (name, .any) }

theorem Outline.outline_env (o : Outline) : o.env.outline = o := by
  refine Prod.ext rfl ?_
  show (o.2.map fun name => (name, Guess.any)).map Prod.fst = o.2
  rw [List.map_map]
  exact List.map_id o.2

/-- The kind that a type stands for does not depend on the guesses that are bound. -/
theorem primitiveKind?_eq {o : Outline} (env : EnvAt o) (ty : TypeExpr) :
    w.primitiveKind? env.1 ty = w.primitiveKind? o.env ty := by
  have hbound : ∀ name, isBound name env.1 = isBound name o.env := fun name =>
    (isBound_eq name env).trans (isBound_eq name ⟨o.env, o.outline_env⟩).symm
  cases ty with
  | ref name args =>
      simp only [World.primitiveKind?, hbound, scope_eq]
      rfl
  | keyword k => cases k <;> rfl
  | textLiteral | numberLiteral | boolLiteral | template | array | tuple | union | intersection
  | function | object | query | keyof | predicate | computed => rfl

/-- The first environment of a list with outlines, and the rest of the list. -/
def splitAt {τ : Type} {m : τ × Outline} {ms : List (τ × Outline)} :
    ListAt (m :: ms) → EnvAt m.2 × ListAt ms
  | ⟨p :: l, h⟩ => (⟨p.2, congrArg Prod.snd (List.cons.inj h).1⟩, ⟨l, (List.cons.inj h).2⟩)

theorem eq_splitAt {τ : Type} {m : τ × Outline} {ms : List (τ × Outline)} (l : ListAt (m :: ms)) :
    l.1 = (m.1, (splitAt l).1.1) :: (splitAt l).2.1 := by
  obtain ⟨l, hl⟩ := l
  cases l with
  | nil => cases hl
  | cons p l =>
      obtain rfl := (List.cons.inj hl).1
      rfl

theorem Asks.of_cons {κ τ α : Type} {U : Request → Prop} {P : α → Prop} {m : τ × Outline}
    {ms : List (τ × Outline)} {F : κ → List (τ × Env) → Converter → Conversion α}
    (h : Asks U P fun (q : κ × EnvAt m.2 × ListAt ms) conv =>
      F q.1 ((m.1, q.2.1.1) :: q.2.2.1) conv) :
    Asks U P fun (q : κ × ListAt (m :: ms)) conv => F q.1 q.2 conv :=
  (h.comp fun q => (q.1, splitAt q.2)).congr fun q conv => by rw [eq_splitAt q.2]

theorem Asks.of_nil {κ τ α : Type} {U : Request → Prop} {P : α → Prop}
    {F : κ → List (τ × Env) → Converter → Conversion α}
    (h : Asks U P fun k conv => F k [] conv) :
    Asks U P fun (q : κ × ListAt ([] : List (τ × Outline))) conv => F q.1 q.2 conv :=
  (h.comp Prod.fst).congr fun q conv => by rw [List.map_eq_nil_iff.mp q.2.2]

theorem asks_convertOthers (active : List DeclKey) (ms : List (TypeExpr × Outline)) :
    HasPlaces V ms → Asks (Here V active) (fun _ => True)
      fun (q : Unit × ListAt ms) conv => convertOthers w conv active q.2 := by
  induction ms with
  | nil =>
      intro _
      refine .of_nil (F := fun _ l conv => convertOthers w conv active l) ?_
      simp only [convertOthers]
      exact .pure fun _ => trivial
  | cons m ms ih =>
      intro hms
      obtain ⟨ty, o⟩ := m
      have hrest := (ih fun m hm => hms m (List.mem_cons_of_mem _ hm)).comp
        fun (q : Unit × EnvAt o × ListAt ms) => ((), q.2.2)
      refine .of_cons (F := fun _ l conv => convertOthers w conv active l) ?_
      simp only [convertOthers, primitiveKind?_eq]
      split
      · exact hrest
      · refine .bind (.comp (.ask ⟨rfl, hms _ List.mem_cons_self⟩)
          fun (q : Unit × EnvAt o × ListAt ms) => q.2.1) ?_
        exact .bind (hrest.comp Prod.fst) (.pure fun _ => trivial)

theorem asks_convertUnion (hV : UnionClosed w V) (active : List DeclKey) {o : Outline}
    {ty : TypeExpr} (h : ∀ m ∈ heads ty, V (o.at m)) (orUndefined : Bool) :
    Asks (Here V active) (fun _ => True)
      fun (env : EnvAt o) conv => convertUnion w conv active env ty orUndefined := by
  obtain ⟨ms, hms, hasks⟩ := asks_flatten hV active maxAliasDepth o ty h
  refine .bind hasks ?_
  exact .bind (.comp (asks_convertOthers active ms hms)
    fun (q : EnvAt o × ListAt ms) => ((), q.2)) (.pure fun _ => trivial)

/-! ## Members -/

/-- The set has the places of the types of the properties. -/
def HasProperties (V : Place → Prop) (ms : List (Member × Outline)) : Prop :=
  ∀ m ∈ ms, ∀ ty, m.1.propertyType? = some ty → V (m.2.at ty)

theorem outlines_placed {o : Outline} (env : EnvAt o) (members : List Member) :
    outlines (placed members env.1) = members.map fun m => (m, o) := by
  rw [outlines, placed, List.map_map]
  exact List.map_congr_left fun m _ => congrArg (m, ·) env.2

/-- What is visited is among `all` and visited once, and `fuel` more steps are enough for what is
left. -/
structure Visited {α : Type} (all : List α) (fuel : Nat) (visited : List α) : Prop where
  nodup : visited.Nodup
  declared : ∀ k ∈ visited, k ∈ all
  enough : all.length < fuel + visited.length

/-- What is known of the interfaces that a list of types names. -/
def ParentsDeclared (w : World) (V : Place → Prop) (o : Outline)
    (parents : List (Nat × List InterfaceDecl × List TypeExpr)) : Prop :=
  ∀ p ∈ parents, (∀ q ∈ interfacePlaces p.1 p.2.1, q ∈ w.scopes.places) ∧
    interfaceKey p.1 p.2.1 ∈ w.scopes.interfaceKeys ∧ ∀ arg ∈ p.2.2, V (o.at arg)

section

variable {α : Type} {all visited : List α} {fuel : Nat}

theorem Visited.pos (h : Visited all fuel visited) : 0 < fuel := by
  have hlength := h.nodup.length_le_of_subset h.declared
  have henough := h.enough
  omega

theorem Visited.cons (h : Visited all (fuel + 1) visited) {key : α} (hkey : key ∈ all)
    (hnew : key ∉ visited) : Visited all fuel (key :: visited) := by
  refine ⟨List.nodup_cons.mpr ⟨hnew, h.nodup⟩, List.forall_mem_cons.mpr ⟨hkey, h.declared⟩, ?_⟩
  have henough := h.enough
  rw [List.length_cons]
  omega

theorem Visited.succ (h : Visited all fuel visited) : Visited all (fuel + 1) visited :=
  ⟨h.nodup, h.declared, by have := h.enough; omega⟩

end

theorem hasProperties_interface (hV : Closed w V) {scope : Nat} {decls : List InterfaceDecl}
    (h : ∀ q ∈ interfacePlaces scope decls, q ∈ w.scopes.places) :
    HasBounds V scope (interfaceParams decls) ∧
      (∀ d ∈ decls, ∀ m ∈ d.members, ∀ ty, m.propertyType? = some ty →
        V ⟨scope, boundNames (interfaceParams decls), ty⟩) ∧
      ∀ d ∈ decls, ∀ parent ∈ d.parents, ∀ arg ∈ parent.arguments,
        V ⟨scope, boundNames (interfaceParams decls), arg⟩ := by
  refine ⟨hasBounds_of_boundPlaces fun p hp => hV.declared p (h p (List.mem_append_left _ hp)),
    fun d hd m hm ty hty => ?_, fun d hd parent hparent arg harg => ?_⟩
  · refine hV.declared _ (h _ (List.mem_append_right _ (mem_placesOf ?_)))
    refine List.mem_flatMap.mpr ⟨d, hd, List.mem_append_left _ ?_⟩
    exact List.mem_filterMap.mpr ⟨m, hm, hty⟩
  · refine hV.declared _ (h _ (List.mem_append_right _ (mem_placesOf ?_)))
    refine List.mem_flatMap.mpr ⟨d, hd, List.mem_append_right _ ?_⟩
    exact List.mem_flatMap.mpr ⟨parent, hparent, harg⟩

theorem parentsDeclared (hV : Closed w V) {scope : Nat} {decls : List InterfaceDecl}
    (h : ∀ q ∈ interfacePlaces scope decls, q ∈ w.scopes.places) :
    ParentsDeclared w V (scope, boundNames (interfaceParams decls))
      (decls.flatMap fun d => parentInterfaces w scope d.parents) := by
  intro p hp
  obtain ⟨d, hd, hp⟩ := List.mem_flatMap.mp hp
  obtain ⟨parent, hparent, heq⟩ := List.mem_filterMap.mp hp
  split at heq
  next name args =>
    split at heq
    next id decls' hname =>
      cases heq
      obtain ⟨hplaces, hkey⟩ := interface_declared hname
      exact ⟨hplaces, hkey, (hasProperties_interface hV h).2.2 d hd _ hparent⟩
    · cases heq
  · cases heq

mutual

theorem asks_interfaceMembers (hV : Closed w V) (active : List DeclKey) :
    ∀ fuel scope decls args (o : Outline) visited,
      (∀ q ∈ interfacePlaces scope decls, q ∈ w.scopes.places) → (∀ arg ∈ args, V (o.at arg)) →
      Visited w.scopes.interfaceKeys fuel visited → ∃ ms visited', HasProperties V ms ∧
        Visited w.scopes.interfaceKeys fuel visited' ∧
        Asks (Here V active) (fun r => outlines r.1 = ms ∧ r.2 = visited')
          fun (env : EnvAt o) conv =>
            interfaceMembers w conv active fuel scope decls args env visited
  | 0, _, _, _, _, _, _, _, hvisited => absurd hvisited.pos (Nat.lt_irrefl 0)
  | fuel + 1, scope, decls, args, o, visited, hplaces, hargs, hvisited => by
      obtain ⟨hbounds, hmembers, -⟩ := hasProperties_interface hV hplaces
      obtain ⟨ms, visited', hms, hvisited', hparents⟩ := asks_parentMembers hV active fuel
        (scope, boundNames (interfaceParams decls)) visited _ (parentsDeclared hV hplaces) hvisited
      refine ⟨(decls.flatMap fun d => d.members.map fun m =>
        (m, (scope, boundNames (interfaceParams decls)))) ++ ms, visited', ?_, hvisited', ?_⟩
      · refine List.forall_mem_append.mpr ⟨fun m hm => ?_, hms⟩
        obtain ⟨d, hd, hm⟩ := List.mem_flatMap.mp hm
        obtain ⟨m', hm', rfl⟩ := List.mem_map.mp hm
        exact hmembers d hd m' hm'
      · simp only [interfaceMembers]
        refine .bind (asks_envInside hbounds hargs) (.bind (hparents.comp Prod.snd) ?_)
        refine .of_pure (fun q => (decls.flatMap (fun d => placed d.members q.1.2.1) ++ q.2.1.1,
          q.2.1.2)) (fun q conv => rfl) fun q => ⟨?_, q.2.2.2⟩
        refine (List.map_append ..).trans (congrArg₂ (· ++ ·) ?_ q.2.2.1)
        rw [List.map_flatMap]
        exact congrArg (decls.flatMap ·) (funext fun d => outlines_placed q.1.2 d.members)

theorem asks_parentMembers (hV : Closed w V) (active : List DeclKey) :
    ∀ fuel (o : Outline) visited parents, ParentsDeclared w V o parents →
      Visited w.scopes.interfaceKeys (fuel + 1) visited → ∃ ms visited', HasProperties V ms ∧
        Visited w.scopes.interfaceKeys (fuel + 1) visited' ∧
        Asks (Here V active) (fun r => outlines r.1 = ms ∧ r.2 = visited')
          fun (env : EnvAt o) conv => parentMembers w conv active fuel env visited parents
  | _, _, visited, [], _, hvisited => by
      simp only [parentMembers]
      exact ⟨[], visited, List.forall_mem_nil _, hvisited, .pure fun _ => ⟨rfl, rfl⟩⟩
  | fuel, o, visited, (scope, decls, args) :: rest, hparents, hvisited => by
      obtain ⟨⟨hplaces, hkey, hargs⟩, hrest⟩ := List.forall_mem_cons.mp hparents
      simp only [parentMembers]
      split
      · exact asks_parentMembers hV active fuel o visited rest hrest hvisited
      next hnew =>
        have hnew : interfaceKey scope decls ∉ visited := by simpa using hnew
        obtain ⟨ms, visited', hms, hvisited', hfirst⟩ := asks_interfaceMembers hV active fuel scope
          decls args o _ hplaces hargs (hvisited.cons hkey hnew)
        obtain ⟨ms', visited'', hms', hvisited'', hothers⟩ := asks_parentMembers hV active fuel o
          visited' rest hrest hvisited'.succ
        refine ⟨ms ++ ms', visited'', List.forall_mem_append.mpr ⟨hms, hms'⟩, hvisited'',
          .bind hfirst ?_⟩
        refine .bind ((hothers.comp Prod.fst).congr fun q conv => ?_) (.pure fun q => ⟨?_, q.2.2.2⟩)
        · rw [q.2.2.2]
        · exact (List.map_append ..).trans (congrArg₂ (· ++ ·) q.1.2.2.1 q.2.2.1)

end

theorem asks_membersOfInterface (hV : Closed w V) (active : List DeclKey) {scope : Nat}
    {decls : List InterfaceDecl} {args : List TypeExpr} {o : Outline}
    (hplaces : ∀ q ∈ interfacePlaces scope decls, q ∈ w.scopes.places)
    (hkey : interfaceKey scope decls ∈ w.scopes.interfaceKeys)
    (hargs : ∀ arg ∈ args, V (o.at arg)) :
    ∃ ms, HasProperties V ms ∧ Asks (Here V active) (fun l => outlines l = ms)
      fun (env : EnvAt o) conv => membersOfInterface w conv active env scope decls args := by
  have hvisited : Visited w.scopes.interfaceKeys (w.interfaceCount + 1)
      [interfaceKey scope decls] := by
    refine ⟨List.pairwise_singleton _ _, List.forall_mem_singleton.mpr hkey, ?_⟩
    rw [length_interfaceKeys, List.length_singleton]
    omega
  obtain ⟨ms, _, hms, -, hasks⟩ :=
    asks_interfaceMembers hV active _ scope decls args o _ hplaces hargs hvisited
  exact ⟨ms, hms, .bind hasks (.pure fun q => q.2.2.1)⟩

theorem asks_membersOfType (hV : Closed w V) (fuel : Nat) : ∀ active (o : Outline) ty,
    V (o.at ty) → Visited w.scopes.aliasKeys fuel active → ∃ ms,
      (∀ l, ms = some l → HasProperties V l) ∧
      Asks (Reaches w V active) (fun r => r.map outlines = ms)
        fun (env : EnvAt o) conv => membersOfType w conv fuel active env ty := by
  induction fuel with
  | zero =>
      intro _ _ _ _ hvisited
      exact absurd hvisited.pos (Nat.lt_irrefl 0)
  | succ fuel ih =>
      intro active o ty h hvisited
      have hnone : ∃ ms : Option (List (Member × Outline)), (∀ l, ms = some l → HasProperties V l) ∧
          Asks (Reaches w V active) (fun r : Option (List PlacedMember) => r.map outlines = ms)
            fun (_ : EnvAt o) _ => (pure none : Conversion _) :=
        ⟨none, nofun, .pure fun _ => rfl⟩
      cases ty with
      | object members =>
          simp only [membersOfType]
          refine ⟨some (members.map fun m => (m, o)), ?_,
            .pure fun env => congrArg some (outlines_placed env members)⟩
          rintro _ ⟨rfl⟩ m hm ty hty
          obtain ⟨m', hm', rfl⟩ := List.mem_map.mp hm
          exact hV.part o _ h ty (List.mem_cons_of_mem _ (mem_partsOfMembers hm' hty))
      | ref name args =>
          simp only [membersOfType, scope_eq]
          split
          next id decls hname =>
            obtain ⟨hplaces, hkey⟩ := interface_declared hname
            obtain ⟨ms, hms, hasks⟩ := asks_membersOfInterface hV active hplaces hkey
              (hasPlace_argument hV.part h)
            refine ⟨some ms, fun l hl => Option.some.inj hl ▸ hms,
              .widen (.bind hasks (.pure fun q => ?_)) fun _ => Here.reaches⟩
            exact congrArg some q.2.2
          next id decl hname =>
            split
            · exact hnone
            next hnew =>
              have hnew : (id, decl.name) ∉ active := by simpa using hnew
              have hkey := (alias_declared hname).2
              obtain ⟨hbounds, hplace⟩ := hasBounds_alias hV hname
              obtain ⟨ms, hms, hasks⟩ := ih ((id, decl.name) :: active)
                (id, boundNames decl.typeParams) decl.type hplace (hvisited.cons hkey hnew)
              refine ⟨ms, hms, .widen (.bind (.widen
                (asks_envInside hbounds (hasPlace_argument hV.part h)) fun _ => Here.reaches)
                (hasks.comp Prod.snd)) fun _ => Reaches.of_grown ?_⟩
              exact .step .refl (expandable_of_aliasKeys hkey) hnew
          · exact hnone
      | keyword | textLiteral | numberLiteral | boolLiteral | template | array | tuple | union
      | intersection | function | query | keyof | predicate | computed =>
          simp only [membersOfType]
          exact hnone

theorem asks_membersOf (hV : Closed w V) {o : Outline} {ty : TypeExpr} (h : V (o.at ty)) :
    ∃ ms, (∀ l, ms = some l → HasProperties V l) ∧
      Asks (Reaches w V []) (fun r => r.map outlines = ms)
        fun (env : EnvAt o) conv => membersOf w conv env ty := by
  refine asks_membersOfType hV _ [] o ty h ⟨List.nodup_nil, List.forall_mem_nil _, ?_⟩
  rw [length_aliasKeys, List.length_nil]
  omega

/-- The shapes with the given properties. -/
abbrev ShapeAt (ks : List String) := {shape : List (String × Guess) // Table.keys shape = ks}

theorem has_eq {ks : List String} (shape : ShapeAt ks) (name : String) :
    Table.has shape.1 name = ks.contains name := by
  rw [Bool.eq_iff_iff, Table.has_iff, shape.2, List.contains_iff_mem]

theorem asks_shapeOfMembers (hV : UnionClosed w V) (active : List DeclKey)
    (ms : List (Member × Outline)) : HasProperties V ms → ∀ ks,
      Asks (Here V active) (fun _ => True)
        fun (q : ShapeAt ks × ListAt ms) conv => shapeOfMembers w conv active q.1 q.2 := by
  induction ms with
  | nil =>
      intro _ ks
      refine .of_nil (F := fun (shape : ShapeAt ks) l conv =>
        shapeOfMembers w conv active shape l) ?_
      simp only [shapeOfMembers]
      exact .pure fun _ => trivial
  | cons m ms ih =>
      intro hms ks
      obtain ⟨m, o⟩ := m
      obtain ⟨hm, hms⟩ := List.forall_mem_cons.mp hms
      refine .of_cons (F := fun (shape : ShapeAt ks) l conv =>
        shapeOfMembers w conv active shape l) ?_
      have hskip : Asks (Here V active) (fun _ => True)
          fun (q : ShapeAt ks × EnvAt o × ListAt ms) conv =>
            shapeOfMembers w conv active q.1 q.2.2 :=
        (ih hms ks).comp fun (q : ShapeAt ks × EnvAt o × ListAt ms) => (q.1, q.2.2)
      -- Going on with the other members after a property is added to the shape.
      have hadd : ∀ name : String, Asks (Here V active) (fun _ => True)
          fun (q : (ShapeAt ks × EnvAt o × ListAt ms) × {_g : Guess // True}) conv =>
            shapeOfMembers w conv active (Table.insert q.1.1 name q.2) q.1.2.2 := by
        intro name
        refine (ih hms (Table.keys (Table.insert (ks.map fun k => (k, Guess.any)) name .any))).comp
          fun (q : (ShapeAt ks × EnvAt o × ListAt ms) × {_g : Guess // True}) =>
            (⟨Table.insert q.1.1 name q.2, keys_insert_congr ?_ name _ _⟩, q.1.2.2)
        rw [q.1.1.2, Table.keys, List.map_map]
        exact (List.map_id ks).symm
      -- The environment that the types of the first member are read in.
      let first : ShapeAt ks × EnvAt o × ListAt ms → EnvAt o := fun q => q.2.1
      cases m with
      | property name optional type modifiers =>
          simp only [shapeOfMembers, has_eq]
          split
          · exact hskip
          · cases type with
            | none => exact .bind (P := fun _ => True) (.pure fun _ => trivial) (hadd name)
            | some ty =>
                have hty := hm ty rfl
                simp only
                split
                · have hunion := asks_convertUnion hV active (heads_at hV.part hty) true
                  exact .bind (hunion.comp first) (hadd name)
                · exact .bind (.comp (.ask ⟨rfl, hty⟩) first) (hadd name)
      | method name optional sig modifiers =>
          simp only [shapeOfMembers, has_eq]
          split
          · exact hskip
          · exact (hadd name).comp fun (q : ShapeAt ks × EnvAt o × ListAt ms) =>
              (q, ⟨.undefined, trivial⟩)
      | constructor | call | index =>
          simp only [shapeOfMembers]
          exact hskip

theorem asks_objectOfMembers (hV : UnionClosed w V) (active : List DeclKey)
    {ms : List (Member × Outline)} (hms : HasProperties V ms) :
    Asks (Here V active) (fun _ => True)
      fun (l : ListAt ms) conv => objectOfMembers w conv active l := by
  refine .bind ((asks_shapeOfMembers hV active ms hms []).comp fun l => (⟨[], rfl⟩, l)) ?_
  refine .of_pure (fun (q : ListAt ms × {_s : List (String × Guess) // True}) =>
    if (q.1.1.any fun m => m.1.isCallable) && q.2.1.isEmpty then .undefined
    else if maxProperties < q.2.1.length then .any else .object q.2.1) (fun q conv => ?_)
    fun _ => trivial
  split
  · rfl
  · split <;> rfl

/-! ## Names -/

theorem instanceType_eq_some (env : Env) (path : List String) :
    ∃ g refs, instanceType w env path = some (g, refs) ∧ True := by
  unfold instanceType
  split
  · exact ⟨_, _, rfl, trivial⟩
  · split
    · exact ⟨_, _, rfl, trivial⟩
    · exact ⟨_, _, rfl, trivial⟩

theorem asks_firstArg {active : List DeclKey} {o : Outline} {args : List TypeExpr}
    (hargs : ∀ arg ∈ args, V (o.at arg)) : Asks (Here V active) (fun _ => True)
      fun (env : EnvAt o) conv => firstArg conv active env args := by
  cases args with
  | nil => exact .pure fun _ => trivial
  | cons arg args => exact .ask ⟨rfl, hargs arg List.mem_cons_self⟩

theorem asks_convertInterface (hW : Closed w W) (active : List DeclKey) {scope : Nat}
    {decls : List InterfaceDecl} {args : List TypeExpr} {o : Outline}
    (hplaces : ∀ q ∈ interfacePlaces scope decls, q ∈ w.scopes.places)
    (hkey : interfaceKey scope decls ∈ w.scopes.interfaceKeys)
    (hargs : ∀ arg ∈ args, W (o.at arg)) :
    Asks (Marks w W active) (fun _ => True)
      fun (env : EnvAt o) conv => convertInterface w conv active env scope decls args := by
  simp only [convertInterface]
  split
  · exact .pure fun _ => trivial
  next hnew =>
    have hnew : interfaceKey scope decls ∉ active := by simpa using hnew
    obtain ⟨ms, hms, hasks⟩ := asks_membersOfInterface hW (interfaceKey scope decls :: active)
      hplaces hkey hargs
    exact .widen (.bind hasks ((asks_objectOfMembers hW.unionClosed _ hms).comp Prod.snd))
      fun _ => Here.marks (expandable_of_interfaceKeys hkey) hnew

theorem asks_convertAlias (hW : Closed w W) (active : List DeclKey) {start id : Nat}
    {path : List String} {decl : AliasDecl} {args : List TypeExpr} {o : Outline}
    (hname : w.scopes.typeNamed? start path = some (.ofAlias id decl))
    (hargs : ∀ arg ∈ args, W (o.at arg)) : Asks (Marks w W active) (fun _ => True)
      fun (env : EnvAt o) conv => convertAlias conv active env id decl args := by
  simp only [convertAlias]
  split
  · exact .pure fun _ => trivial
  next hnew =>
    have hnew : (id, decl.name) ∉ active := by simpa using hnew
    have hkey := (alias_declared hname).2
    obtain ⟨hbounds, hplace⟩ := hasBounds_alias hW hname
    have hinner : Asks (Here W ((id, decl.name) :: active)) (fun _ => True)
        fun (inner : EnvAt (id, boundNames decl.typeParams)) conv =>
          conv ((id, decl.name) :: active) inner decl.type := .ask ⟨rfl, hplace⟩
    exact .widen (.bind (asks_envInside hbounds hargs) (hinner.comp Prod.snd))
      fun _ => Here.marks (expandable_of_aliasKeys hkey) hnew

theorem asks_convertQuery (hW : Closed w W) (active : List DeclKey) (o : Outline)
    (path : List String) : Asks (Marks w W active) (fun _ => True)
      fun (env : EnvAt o) conv => convertQuery w conv active env path := by
  simp only [convertQuery, scope_eq]
  split
  · exact .pure fun _ => trivial
  next v hv =>
    split
    · exact .pure fun _ => trivial
    · split
      next ty last hty hlast =>
        obtain ⟨hplace, hkey⟩ := variable_declared hv hty hlast
        split
        · exact .pure fun _ => trivial
        next hnew =>
          have hnew : (v.scope, last) ∉ active := by simpa using hnew
          have hinner : Asks (Here W ((v.scope, last) :: active)) (fun _ => True)
              fun (env : EnvAt (v.scope, [])) conv => conv ((v.scope, last) :: active) env ty :=
            .ask ⟨rfl, hW.declared _ hplace⟩
          exact .widen (hinner.comp fun _ => ⟨{ scope := v.scope }, rfl⟩)
            fun _ => Here.marks hkey hnew
      · exact .pure fun _ => trivial

theorem asks_convertItem (hV : PartClosed V) {active : List DeclKey} {o : Outline}
    {item : TupleItem} (h : ∀ ty optional rest, item = .mk ty optional rest → V (o.at ty)) :
    Asks (Here V active) (fun _ => True)
      fun (env : EnvAt o) conv => convertItem conv active env item := by
  obtain ⟨ty, optional, rest⟩ := item
  have hplace := h ty optional rest rfl
  simp only [convertItem]
  split
  · split
    next item hitem =>
      refine .ask ⟨rfl, ?_⟩
      unfold itemType? at hitem
      split at hitem
      · cases hitem
        exact hV o _ hplace item (List.mem_cons_of_mem _ (self_mem_parts item))
      next n arg args =>
        split at hitem
        · cases hitem
          exact hasPlace_argument hV hplace _ List.mem_cons_self
        · cases hitem
      · cases hitem
    · exact .pure fun _ => trivial
  · exact .ask ⟨rfl, hplace⟩

theorem asks_convertGlobal {active : List DeclKey} {o : Outline} (name : List String)
    {args : List TypeExpr} (hargs : ∀ arg ∈ args, V (o.at arg)) :
    Asks (Here V active) (fun _ => True)
      fun (env : EnvAt o) conv => convertGlobal w conv active env name args := by
  have hfirst : Asks (Here V active) (fun _ => True)
      fun (env : EnvAt o) conv => firstArg conv active env args := asks_firstArg hargs
  have harray : Asks (Here V active) (fun _ => True) fun (env : EnvAt o) conv => do
      return Guess.array (← firstArg conv active env args) :=
    .bind hfirst (.pure fun _ => trivial)
  simp only [convertGlobal]
  split
  all_goals first
    | exact hfirst
    | exact harray
    | exact .pure fun _ => trivial
    | skip
  split
  · exact .const fun env => instanceType_eq_some env.1 _
  · exact .pure fun _ => trivial

theorem isSome_binding? {o : Outline} (name : List String) (env : EnvAt o) :
    (binding? name env.1).isSome = boundAt name o := by
  rw [← isBound_eq name env]
  rcases name with _ | ⟨single, _ | ⟨_, _⟩⟩ <;> rfl

/-- The requests inside the type itself, and those where one more declaration is being expanded. -/
def Nests (w : World) (V W : Place → Prop) (active : List DeclKey) (t : Request) : Prop :=
  Here V active t ∨ Marks w W active t

theorem asks_convertRef (hW : Closed w W) (active : List DeclKey) {o : Outline}
    {name : List String} {args : List TypeExpr} (hargs : ∀ arg ∈ args, V (o.at arg))
    (h : W (o.at (.ref name args))) : Asks (Nests w V W active) (fun _ => True)
      fun (env : EnvAt o) conv => convertRef w conv active env name args := by
  cases hbound : boundAt name o with
  | true =>
      refine .of_pure (fun env => (binding? name env.1).getD .any) (fun env conv => ?_)
        fun _ => trivial
      obtain ⟨g, hg⟩ := Option.isSome_iff_exists.mp ((isSome_binding? name env).trans hbound)
      rw [convertRef, hg]
      rfl
  | false =>
      -- The name is not bound, so it stands for what the scopes say.
      have hfree : ∀ (env : EnvAt o), binding? name env.1 = none := fun env =>
        Option.isNone_iff_eq_none.mp (by
          rw [← Option.not_isSome, isSome_binding?, hbound]
          rfl)
      have hargs' := hasPlace_argument hW.part h
      simp only [convertRef, hfree, scope_eq]
      split
      · exact .const fun _ => ⟨_, _, rfl, trivial⟩
      next hname =>
        obtain ⟨hplaces, hkey⟩ := interface_declared hname
        exact .widen (asks_convertInterface hW active hplaces hkey hargs') fun _ => Or.inr
      next hname => exact .widen (asks_convertAlias hW active hname hargs') fun _ => Or.inr
      · exact .pure fun _ => trivial
      · exact .pure fun _ => trivial
      · exact .widen (asks_convertGlobal name hargs) fun _ => Or.inl

/-! ## Types -/

/-- **What the conversion of a type asks for** depends on its place and on the declarations that are
being expanded, and on nothing else: the types inside it, and where it leads out of the type, places
at which one more declaration is being expanded. -/
theorem asks_convertWith (hV : UnionClosed w V) (hW : Closed w W) (active : List DeclKey)
    {o : Outline} {ty : TypeExpr} (hinside : ∀ ty' ∈ ty.inside, V (o.at ty')) (h : W (o.at ty)) :
    Asks (Nests w V W active) (fun _ => True)
      fun (env : EnvAt o) conv => convertWith w conv active env ty := by
  have hhere : ∀ {X : EnvAt o → Converter → Conversion Guess},
      Asks (Here V active) (fun _ => True) X → Asks (Nests w V W active) (fun _ => True) X :=
    fun hX => hX.widen fun _ => Or.inl
  cases ty with
  | keyword | textLiteral | numberLiteral | boolLiteral | template | function | keyof | predicate
  | computed => exact .pure fun _ => trivial
  | ref name args =>
      exact asks_convertRef hW active
        (fun arg harg => hinside arg (mem_partsOfAll harg (self_mem_parts arg))) h
  | array item =>
      exact hhere (.bind (.ask ⟨rfl, hinside item (self_mem_parts item)⟩) (.pure fun _ => trivial))
  | tuple items =>
      refine hhere (.bind (.mapM fun item hitem => asks_convertItem hV.part
        fun ty optional rest heq => ?_) (.pure fun _ => trivial))
      exact hinside ty (mem_partsOfItems (heq ▸ hitem))
  | union members =>
      exact hhere (asks_convertUnion hV active
        (fun m hm => hinside m (mem_partsOfAll hm (self_mem_parts m))) false)
  | intersection members =>
      refine hhere (.bind (.mapM fun member hmember => .ask ⟨rfl, ?_⟩) (.pure fun _ => trivial))
      exact hinside member (mem_partsOfAll hmember (self_mem_parts member))
  | object members =>
      have hms : HasProperties V (members.map fun m => (m, o)) := by
        intro m hm ty hty
        obtain ⟨m', hm', rfl⟩ := List.mem_map.mp hm
        exact hinside ty (mem_partsOfMembers hm' hty)
      exact hhere ((asks_objectOfMembers hV active hms).comp fun (env : EnvAt o) =>
        ⟨placed members env, outlines_placed env members⟩)
  | query path => exact .widen (asks_convertQuery hW active o path) fun _ => Or.inr

end ApiSurface.Declaration
