/-
# `ApiSurface.Proofs.Declaration.Hereditary` — what every guess of a conversion has

A conversion makes guesses in seven ways: nothing is known, a kind without parts, an instance of a
class, an object, an array, a union, an intersection.  A property that all of these keep
(`Hereditary`) is one of every guess that a conversion gives, if the guesses in its environment have
it (`keeps_convertTo`).  This is proved once for each function of the conversion, under the
assumption that the converter for nested types does the same (`Keeps`); the depth of the conversion
enters only in the last step.

The classes that a conversion refers to come with what it gives.  They are declared, and the
property may speak of a set of names that has theirs; `Yields` states both of a conversion.  A guess
that an environment binds to a type parameter has been converted elsewhere, so what is said of a
conversion is conditional on its environment, and the conditions are carried along as premises of
what the conversion yields (`Yields.bind`).
-/
import ApiSurface.Declaration.Depth
import ApiSurface.Proofs.Declaration.Declared

namespace ApiSurface.Declaration

open Guess

/-- Whatever the conversion gives, the classes it refers to are declared, and if their names are in
the set, what it gives has the property. -/
def Yields {α : Type} (w : World) (S : String → Prop) (x : Conversion α) (P : α → Prop) : Prop :=
  ∀ a refs, x = some (a, refs) →
    (∀ r ∈ refs, w.scopes.Declares r) ∧ ((∀ r ∈ refs, S (w.className r)) → P a)

/-- The kinds that stand for types without parts. -/
def Plain (k : Kind) : Prop :=
  k ≠ .object ∧ k ≠ .array ∧ k ≠ .ofClass

/-- The property is kept by every way in which guesses are made, over classes with a name in the
set. -/
structure Hereditary (S : String → Prop) (P : Guess → Prop) : Prop where
  any : P .any
  ofKind : ∀ {k}, Plain k → P (.ofKind k)
  ofClass : ∀ {name}, S name → P (.ofClass name)
  object : ∀ {fields}, Table.Ascending fields → (∀ p ∈ fields, P p.2) → P (.object fields)
  array : ∀ {item}, P item → P (.array item)
  union : ∀ {gs : List Guess}, (∀ g ∈ gs, P g) → P (.union gs)
  intersect : ∀ {gs : List Guess}, (∀ g ∈ gs, P g) → P (.intersect gs)

/-- The guesses that an environment binds have the property, and the class that it brings is in the
set. -/
structure Env.Holds (S : String → Prop) (P : Guess → Prop) (env : Env) : Prop where
  bindings : ∀ b ∈ env.bindings, P b.2
  this : ∀ c, env.thisClass = some c → S c

variable {w : World} {S : String → Prop} {P : Guess → Prop}

namespace Conversion

theorem bind_eq_some_iff {α β : Type} {x : Conversion α} {f : α → Conversion β} {b : β}
    {refs : List ClassRef} : x >>= f = some (b, refs) ↔
      ∃ a first more, x = some (a, first) ∧ f a = some (b, more) ∧ first ++ more = refs := by
  simp only [Bind.bind]
  constructor
  · intro h
    split at h
    · cases h
    next a first =>
      split at h
      · cases h
      next b' more hf =>
        cases h
        exact ⟨a, first, more, rfl, hf, rfl⟩
  · rintro ⟨a, first, more, rfl, hf, rfl⟩
    simp only [hf]
    rfl

instance : LawfulMonad Conversion :=
  LawfulMonad.mk' Conversion
    (by
      intro α x
      show x >>= pure = x
      rcases x with _ | ⟨a, refs⟩
      · rfl
      · show some (a, refs ++ []) = some (a, refs)
        rw [List.append_nil])
    (by
      intro α β a f
      show (match f a with | none => none | some (b, more) => some (b, [] ++ more)) = f a
      rcases f a with _ | ⟨b, more⟩ <;> rfl)
    (by
      intro α β γ x f g
      refine Option.ext fun ⟨c, refs⟩ => ?_
      refine Iff.trans bind_eq_some_iff (Iff.trans ?_ bind_eq_some_iff.symm)
      constructor
      · rintro ⟨b, first, more, hxf, hg, rfl⟩
        obtain ⟨a, first', more', hx, hf, rfl⟩ := bind_eq_some_iff.mp hxf
        exact ⟨a, first', more' ++ more, hx, bind_eq_some_iff.mpr ⟨b, more', more, hf, hg, rfl⟩,
          (List.append_assoc ..).symm⟩
      · rintro ⟨a, first, more, hx, hfg, rfl⟩
        obtain ⟨b, first', more', hf, hg, rfl⟩ := bind_eq_some_iff.mp hfg
        exact ⟨b, first ++ first', more', bind_eq_some_iff.mpr ⟨a, first, first', hx, hf, rfl⟩, hg,
          List.append_assoc ..⟩)

end Conversion

namespace Yields

variable {α β : Type}

theorem pure {a : α} {P : α → Prop} (h : P a) : Yields w S (pure a) P := by
  intro b refs heq
  cases heq
  exact ⟨fun _ hr => absurd hr List.not_mem_nil, fun _ => h⟩

theorem bind {x : Conversion α} {f : α → Conversion β} {P : α → Prop} {Q : β → Prop}
    (hx : Yields w S x P) (hf : ∀ a, Yields w S (f a) fun b => P a → Q b) :
    Yields w S (x >>= f) Q := by
  intro b refs heq
  obtain ⟨a, first, more, hxa, hfb, rfl⟩ := Conversion.bind_eq_some_iff.mp heq
  obtain ⟨hdecl, hP⟩ := hx a first hxa
  obtain ⟨hdecl', hQ⟩ := hf a b more hfb
  refine ⟨fun r hr => (List.mem_append.mp hr).elim (hdecl r) (hdecl' r), fun hS => ?_⟩
  exact hQ (fun r hr => hS r (List.mem_append_right _ hr))
    (hP fun r hr => hS r (List.mem_append_left _ hr))

theorem outOfDepth {P : α → Prop} : Yields w S Conversion.outOfDepth P :=
  fun _ _ heq => nomatch heq

theorem imp {x : Conversion α} {P Q : α → Prop} (hx : Yields w S x P) (h : ∀ a, P a → Q a) :
    Yields w S x Q :=
  fun a refs heq => ⟨(hx a refs heq).1, fun hS => h a ((hx a refs heq).2 hS)⟩

theorem mapM {f : α → Conversion β} {P : β → Prop} {l : List α}
    (h : ∀ a ∈ l, Yields w S (f a) P) :
    Yields w S (l.mapM f) fun bs => bs.length = l.length ∧ ∀ b ∈ bs, P b := by
  induction l with
  | nil => exact .pure ⟨rfl, fun _ hb => nomatch hb⟩
  | cons a l ih =>
      rw [List.mapM_cons]
      refine .bind (h a List.mem_cons_self) fun b => ?_
      refine .bind (ih fun a ha => h a (List.mem_cons_of_mem _ ha)) fun bs => .pure ?_
      exact fun ⟨hlength, hbs⟩ hb =>
        ⟨congrArg (· + 1) hlength, List.forall_mem_cons.mpr ⟨hb, hbs⟩⟩

end Yields

/-- The converter gives guesses with the property for types at places where it holds. -/
def Keeps (w : World) (S : String → Prop) (P : Guess → Prop) (conv : Converter) : Prop :=
  ∀ active env ty, Yields w S (conv active env ty) fun g => env.Holds S P → P g

/-! ## Type parameters -/

theorem holds_root (scope : Nat) : Env.Holds S P { scope := scope } :=
  ⟨fun _ h => absurd h List.not_mem_nil, fun _ h => nomatch h⟩

section Converting

variable (hP : Hereditary S P) {conv : Converter} (hconv : Keeps w S P conv)

include hP hconv

theorem keeps_bindParams (active : List DeclKey) (caller : Env) (scope : Nat)
    (params : List TypeParam) : ∀ args,
      Yields w S (bindParams conv active caller scope params args) fun bs =>
        caller.Holds S P → ∀ b ∈ bs, P b.2 := by
  induction params with
  | nil =>
      intro args
      rw [bindParams]
      exact .pure fun _ _ hb => nomatch hb
  | cons p ps ih =>
      intro args
      have hrest : ∀ g, Yields w S (do
          let rest ← bindParams conv active caller scope ps args.tail
          return (p.name, g) :: rest) fun bs =>
            (caller.Holds S P → P g) → caller.Holds S P → ∀ b ∈ bs, P b.2 := by
        refine fun g => .bind (ih args.tail) fun bs => ?_
        exact .pure fun hbs hg henv => List.forall_mem_cons.mpr ⟨hg henv, hbs henv⟩
      rw [bindParams]
      split
      · exact .bind (hconv active caller _) hrest
      · exact .bind ((hconv active _ _).imp fun g hg _ => hg (holds_root scope)) hrest
      · exact .bind (.pure fun _ => hP.any) hrest

theorem keeps_envInside (active : List DeclKey) (caller : Env) (scope : Nat)
    (params : List TypeParam) (args : List TypeExpr) :
    Yields w S (envInside conv active caller scope params args) fun env =>
      caller.Holds S P → env.Holds S P := by
  refine .bind (keeps_bindParams hP hconv active caller scope params args) fun bs => ?_
  refine .pure fun hbs henv => ⟨fun b hb => ?_, fun _ h => nomatch h⟩
  exact hbs henv b (Table.mem_of_mem_ofList hb)

end Converting

/-! ## Unions -/

/-- Every type in the list stands at a place where the property holds. -/
def AllPlaced {τ : Type} (S : String → Prop) (P : Guess → Prop) (l : List (τ × Env)) : Prop :=
  ∀ m ∈ l, m.2.Holds S P

theorem AllPlaced.append {τ : Type} {l l' : List (τ × Env)} (h : AllPlaced S P l)
    (h' : AllPlaced S P l') : AllPlaced S P (l ++ l') :=
  fun m hm => (List.mem_append.mp hm).elim (h m) (h' m)

theorem allPlaced_placed {env : Env} (h : env.Holds S P) (members : List Member) :
    AllPlaced S P (placed members env) := by
  intro m hm
  obtain ⟨m', -, rfl⟩ := List.mem_map.mp hm
  exact h

section Flatten

variable {env : Env} {expand : List String → List TypeExpr → Conversion (Option (List PlacedType))}

mutual

theorem keeps_flattenWith (hexpand : ∀ name args, Yields w S (expand name args) fun ms =>
    env.Holds S P → ∀ l, ms = some l → AllPlaced S P l) :
    ∀ ty, Yields w S (flattenWith expand env ty) fun ms => env.Holds S P → AllPlaced S P ms
  | .union members => by
      rw [flattenWith]
      exact keeps_flattenAll hexpand members
  | .ref name args => by
      rw [flattenWith]
      refine .bind (hexpand name args) fun ms => ?_
      cases ms with
      | some l => exact .pure fun h henv => h henv l rfl
      | none => exact .pure fun _ henv => List.forall_mem_singleton.mpr henv
  | .keyword _ | .textLiteral _ | .numberLiteral _ | .boolLiteral _ | .template | .array _
  | .tuple _ | .intersection _ | .function _ | .object _ | .query _ | .keyof _ | .predicate
  | .computed => by
      rw [flattenWith]
      · exact .pure fun henv => List.forall_mem_singleton.mpr henv
      all_goals nofun

theorem keeps_flattenAll (hexpand : ∀ name args, Yields w S (expand name args) fun ms =>
    env.Holds S P → ∀ l, ms = some l → AllPlaced S P l) :
    ∀ tys, Yields w S (flattenAll expand env tys) fun ms => env.Holds S P → AllPlaced S P ms
  | [] => by
      rw [flattenAll]
      exact .pure fun _ _ hm => nomatch hm
  | ty :: tys => by
      rw [flattenAll]
      refine .bind (keeps_flattenWith hexpand ty) fun first => ?_
      refine .bind (keeps_flattenAll hexpand tys) fun rest => ?_
      exact .pure fun hrest hfirst henv => (hfirst henv).append (hrest henv)

end

end Flatten

section Converting

variable (hP : Hereditary S P) {conv : Converter} (hconv : Keeps w S P conv)

include hP hconv

theorem keeps_flatten (active : List DeclKey) (depth : Nat) :
    ∀ env ty, Yields w S (flatten w conv active depth env ty) fun ms =>
      env.Holds S P → AllPlaced S P ms := by
  induction depth with
  | zero =>
      intro env ty
      rw [flatten]
      refine keeps_flattenWith (fun _ _ => ?_) ty
      exact .pure fun _ _ h => nomatch h
  | succ depth ih =>
      intro env ty
      rw [flatten]
      refine keeps_flattenWith (fun name args => ?_) ty
      have hnone : Yields w S (pure none : Conversion (Option (List PlacedType))) fun ms =>
          env.Holds S P → ∀ l, ms = some l → AllPlaced S P l := .pure fun _ _ h => nomatch h
      split
      · exact hnone
      · split
        next scope decl _ =>
          split
          next members _ =>
            refine .bind (keeps_envInside hP hconv active env scope decl.typeParams args)
              fun inner => .bind (ih inner (.union members)) fun ms => ?_
            refine .pure fun hms hinner henv l hl => ?_
            cases hl
            exact hms (hinner henv)
          · exact hnone
        · exact hnone

omit hP in
theorem keeps_convertOthers (active : List DeclKey) (members : List PlacedType) :
    Yields w S (convertOthers w conv active members) fun gs =>
      AllPlaced S P members → ∀ g ∈ gs, P g := by
  induction members with
  | nil =>
      rw [convertOthers]
      exact .pure fun _ _ hg => nomatch hg
  | cons m r ih =>
      obtain ⟨ty, env⟩ := m
      rw [convertOthers]
      split
      · exact ih.imp fun gs hgs hms => hgs fun m hm => hms m (List.mem_cons_of_mem _ hm)
      · refine .bind (hconv active env ty) fun g => .bind ih fun gs => .pure ?_
        intro hgs hg hms
        obtain ⟨henv, hms⟩ := List.forall_mem_cons.mp hms
        exact List.forall_mem_cons.mpr ⟨hg henv, hgs hms⟩

end Converting

namespace Hereditary

variable (hP : Hereditary S P)

include hP

theorem number : P .number := hP.ofKind ⟨nofun, nofun, nofun⟩

theorem string : P .string := hP.ofKind ⟨nofun, nofun, nofun⟩

theorem boolean : P .boolean := hP.ofKind ⟨nofun, nofun, nofun⟩

theorem undefined : P .undefined := hP.ofKind ⟨nofun, nofun, nofun⟩

theorem null : P .null := hP.ofKind ⟨nofun, nofun, nofun⟩

theorem emptyObject : P (.object []) := hP.object Table.ascending_nil nofun

theorem of_pooled {kinds : List Kind} (h : ∀ k ∈ kinds, Plain k) : ∀ g ∈ pooled kinds, P g := by
  intro g hg
  obtain ⟨k, hk, rfl⟩ := List.mem_map.mp hg
  exact hP.ofKind (h k (List.contains_iff_mem.mp (List.mem_filter.mp hk).2))

theorem of_merged {gs : List Guess} (h : ∀ g ∈ gs, P g) : P (merged gs) := by
  unfold merged
  split
  · exact h _ List.mem_cons_self
  · exact hP.union h

end Hereditary

theorem plain_enumValue (v : EnumValue) : Plain v.kind := by
  cases v <;> exact ⟨nofun, nofun, nofun⟩

theorem plain_primitiveKind? {env : Env} {ty : TypeExpr} {k : Kind}
    (h : w.primitiveKind? env ty = some k) : Plain k := by
  unfold World.primitiveKind? at h
  split at h
  case h_11 =>
    split at h
    · cases h
    · split at h
      next value _ =>
        cases h
        exact plain_enumValue value
      · cases h
  case h_12 => cases h
  all_goals
    cases h
    exact ⟨nofun, nofun, nofun⟩

section Converting

variable (hP : Hereditary S P) {conv : Converter} (hconv : Keeps w S P conv)

include hP hconv

theorem keeps_convertUnion (active : List DeclKey) (env : Env) (ty : TypeExpr)
    (orUndefined : Bool) : Yields w S (convertUnion w conv active env ty orUndefined) fun g =>
      env.Holds S P → P g := by
  refine .bind (keeps_flatten hP hconv active maxAliasDepth env ty) fun members => ?_
  refine .bind (keeps_convertOthers hconv active members) fun others => .pure ?_
  intro hothers hmembers henv
  refine hP.of_merged fun g hg => ?_
  rcases List.mem_append.mp hg with hg | hg
  · refine hP.of_pooled (fun k hk => ?_) g hg
    rcases List.mem_append.mp hk with hk | hk
    · obtain ⟨m, -, hm⟩ := List.mem_filterMap.mp hk
      exact plain_primitiveKind? hm
    · cases orUndefined with
      | false => cases hk
      | true =>
          rw [List.mem_singleton.mp hk]
          exact ⟨nofun, nofun, nofun⟩
  · exact hothers (hmembers henv) g hg

end Converting

/-! ## Members -/

/-- A shape in order whose guesses have the property. -/
structure ShapeHolds (P : Guess → Prop) (shape : List (String × Guess)) : Prop where
  ascending : Table.Ascending shape
  fields : ∀ p ∈ shape, P p.2

theorem ShapeHolds.insert {shape : List (String × Guess)} (h : ShapeHolds P shape) (key : String)
    {g : Guess} (hg : P g) : ShapeHolds P (Table.insert shape key g) := by
  refine ⟨Table.ascending_insert h.ascending key g, fun p hp => ?_⟩
  rcases Table.mem_insert hp with rfl | hp
  · exact hg
  · exact h.fields p hp

mutual

theorem keeps_interfaceMembers (hP : Hereditary S P) (hconv : Keeps w S P conv)
    (active : List DeclKey) :
    ∀ fuel scope decls args caller visited,
      Yields w S (interfaceMembers w conv active fuel scope decls args caller visited) fun r =>
        caller.Holds S P → AllPlaced S P r.1
  | 0, _, _, _, _, _ => by
      rw [interfaceMembers]
      exact .outOfDepth
  | fuel + 1, scope, decls, args, caller, visited => by
      rw [interfaceMembers]
      refine .bind (keeps_envInside hP hconv active caller scope _ args) fun env => ?_
      refine .bind (keeps_parentMembers hP hconv active fuel env visited _) fun r => .pure ?_
      intro hr henv hcaller
      refine AllPlaced.append (fun m hm => ?_) (hr (henv hcaller))
      obtain ⟨d, -, hm⟩ := List.mem_flatMap.mp hm
      exact allPlaced_placed (henv hcaller) d.members m hm

theorem keeps_parentMembers (hP : Hereditary S P) (hconv : Keeps w S P conv)
    (active : List DeclKey) :
    ∀ fuel env visited parents,
      Yields w S (parentMembers w conv active fuel env visited parents) fun r =>
        env.Holds S P → AllPlaced S P r.1
  | _, _, _, [] => by
      rw [parentMembers]
      exact .pure fun _ _ hm => nomatch hm
  | fuel, env, visited, (scope, decls, args) :: rest => by
      rw [parentMembers]
      split
      · exact keeps_parentMembers hP hconv active fuel env visited rest
      · refine .bind (keeps_interfaceMembers hP hconv active fuel scope decls args env _)
          fun r => ?_
        refine .bind (keeps_parentMembers hP hconv active fuel env r.2 rest) fun r' => .pure ?_
        intro hr' hr henv
        exact (hr henv).append (hr' henv)

end

section Converting

variable (hP : Hereditary S P) {conv : Converter} (hconv : Keeps w S P conv)

include hP hconv

theorem keeps_membersOfInterface (active : List DeclKey) (env : Env) (scope : Nat)
    (decls : List InterfaceDecl) (args : List TypeExpr) :
    Yields w S (membersOfInterface w conv active env scope decls args) fun ms =>
      env.Holds S P → AllPlaced S P ms :=
  .bind (keeps_interfaceMembers hP hconv active _ scope decls args env _) fun _ => .pure id

theorem keeps_membersOfType (fuel : Nat) :
    ∀ active env ty, Yields w S (membersOfType w conv fuel active env ty) fun ms =>
      env.Holds S P → ∀ l, ms = some l → AllPlaced S P l := by
  have hnone : ∀ env : Env, Yields w S (pure none : Conversion (Option (List PlacedMember)))
      fun ms => env.Holds S P → ∀ l, ms = some l → AllPlaced S P l :=
    fun _ => .pure fun _ _ h => nomatch h
  induction fuel with
  | zero =>
      intro active env ty
      rw [membersOfType]
      exact .outOfDepth
  | succ fuel ih =>
      intro active env ty
      rw [membersOfType.eq_def]
      simp only
      split
      next members =>
        refine .pure fun henv l hl => ?_
        cases hl
        exact allPlaced_placed henv members
      next name args =>
        split
        next scope decls _ =>
          refine .bind (keeps_membersOfInterface hP hconv active env scope decls args) fun ms => ?_
          refine .pure fun hms henv l hl => ?_
          cases hl
          exact hms henv
        next scope decl _ =>
          split
          · exact hnone env
          · refine .bind (keeps_envInside hP hconv _ env scope decl.typeParams args) fun inner => ?_
            exact (ih _ inner decl.type).imp fun ms hms hinner henv => hms (hinner henv)
        · exact hnone env
      · exact hnone env

theorem keeps_membersOf (env : Env) (ty : TypeExpr) :
    Yields w S (membersOf w conv env ty) fun ms =>
      env.Holds S P → ∀ l, ms = some l → AllPlaced S P l :=
  keeps_membersOfType hP hconv _ [] env ty

theorem keeps_shapeOfMembers (active : List DeclKey) (members : List PlacedMember) :
    ∀ shape, Yields w S (shapeOfMembers w conv active shape members) fun shape' =>
      AllPlaced S P members → ShapeHolds P shape → ShapeHolds P shape' := by
  induction members with
  | nil =>
      intro shape
      rw [shapeOfMembers]
      exact .pure fun _ h => h
  | cons m r ih =>
      intro shape
      -- Going on with the other members, with a property added to the shape.
      have hskip : Yields w S (shapeOfMembers w conv active shape r) fun shape' =>
          AllPlaced S P (m :: r) → ShapeHolds P shape → ShapeHolds P shape' :=
        (ih shape).imp fun shape' h hms => h fun m hm => hms m (List.mem_cons_of_mem _ hm)
      have hadd : ∀ (key : String) (g : Guess) (Q : Prop), (Q → m.2.Holds S P → P g) →
          Yields w S (shapeOfMembers w conv active (Table.insert shape key g) r) fun shape' =>
            Q → AllPlaced S P (m :: r) → ShapeHolds P shape → ShapeHolds P shape' := by
        intro key g Q hg
        refine (ih _).imp fun shape' h hQ hms hshape => ?_
        obtain ⟨hm, hms⟩ := List.forall_mem_cons.mp hms
        exact h hms (hshape.insert key (hg hQ hm))
      obtain ⟨m, env⟩ := m
      cases m with
      | property name optional type modifiers =>
          rw [shapeOfMembers]
          split
          · exact hskip
          · cases type with
            | none =>
                exact .bind (P := P) (.pure hP.any) fun g => hadd name g _ fun h _ => h
            | some ty =>
                simp only
                split
                · exact .bind (keeps_convertUnion hP hconv active env ty true) fun g =>
                    hadd name g _ fun h henv => h henv
                · exact .bind (hconv active env ty) fun g => hadd name g _ fun h henv => h henv
      | method name optional sig modifiers =>
          rw [shapeOfMembers]
          split
          · exact hskip
          · exact (hadd name .undefined True fun _ _ => hP.undefined).imp fun _ h => h trivial
      | constructor sig | call sig | index value modifiers =>
          rw [shapeOfMembers]
          · exact hskip
          all_goals nofun

theorem keeps_objectOfMembers (active : List DeclKey) (members : List PlacedMember) :
    Yields w S (objectOfMembers w conv active members) fun g =>
      AllPlaced S P members → P g := by
  refine .bind (keeps_shapeOfMembers hP hconv active members []) fun shape => ?_
  split
  · exact .pure fun _ _ => hP.undefined
  · split
    · exact .pure fun _ _ => hP.any
    · refine .pure fun hshape hms => ?_
      obtain ⟨hascending, hfields⟩ := hshape hms ⟨Table.ascending_nil, nofun⟩
      exact hP.object hascending hfields

end Converting

/-! ## Names -/

theorem keeps_convertClass (hP : Hereditary S P) {c : ClassRef} (hc : w.scopes.Declares c) :
    Yields w S (convertClass w c) fun g => P g := by
  intro g refs heq
  cases heq
  refine ⟨fun r hr => ?_, fun hS => hP.ofClass (hS c List.mem_cons_self)⟩
  rw [List.mem_singleton.mp hr]
  exact hc

theorem Hereditary.of_enumGuess (hP : Hereditary S P) (e : EnumDecl) : P (enumGuess e) := by
  unfold enumGuess
  split
  · exact hP.number
  · refine hP.of_merged (hP.of_pooled fun k hk => ?_)
    obtain ⟨m, -, rfl⟩ := List.mem_map.mp hk
    exact plain_enumValue m.2

theorem Hereditary.of_hostClass (hP : Hereditary S P)
    (hhost : ∀ name, Standard.isClass name = true → S name) (name : String) :
    P (if Standard.isClass name then Guess.ofClass name else .any) := by
  split
  next h => exact hP.ofClass (hhost name h)
  · exact hP.any

theorem Hereditary.of_keywordGuess (hP : Hereditary S P) {env : Env} (henv : env.Holds S P)
    (k : Keyword) : P (keywordGuess env k) := by
  cases k with
  | this =>
      rw [keywordGuess]
      split
      next c hc => exact hP.ofClass (henv.this c hc)
      · exact hP.any
  | object => exact hP.emptyObject
  | number => exact hP.number
  | string => exact hP.string
  | boolean => exact hP.boolean
  | null => exact hP.null
  | void | undefined => exact hP.undefined
  | any | unknown | never | symbol | bigint => exact hP.any

section Converting

variable (hP : Hereditary S P) {conv : Converter} (hconv : Keeps w S P conv)
  (hhost : ∀ name, Standard.isClass name = true → S name)

include hP hhost in
theorem keeps_instanceType (env : Env) (path : List String) :
    Yields w S (instanceType w env path) fun g => P g := by
  unfold instanceType
  split
  next scope decl h =>
    obtain ⟨v, hv, hclass⟩ := Option.bind_eq_some_iff.mp h
    obtain ⟨decl', hdecl, heq⟩ := Option.map_eq_some_iff.mp hclass
    cases heq
    exact keeps_convertClass hP (Scopes.valueNamed?_declares hv hdecl)
  · split
    · exact .pure (hP.of_hostClass hhost _)
    · exact .pure hP.any

include hP hconv

theorem keeps_firstArg (active : List DeclKey) (env : Env) (args : List TypeExpr) :
    Yields w S (firstArg conv active env args) fun g => env.Holds S P → P g := by
  unfold firstArg
  split
  · exact hconv active env _
  · exact .pure fun _ => hP.any

theorem keeps_convertInterface (active : List DeclKey) (env : Env) (scope : Nat)
    (decls : List InterfaceDecl) (args : List TypeExpr) :
    Yields w S (convertInterface w conv active env scope decls args) fun g =>
      env.Holds S P → P g := by
  unfold convertInterface
  simp only
  split
  · exact .pure fun _ => hP.emptyObject
  · refine .bind (keeps_membersOfInterface hP hconv _ env scope decls args) fun members => ?_
    exact (keeps_objectOfMembers hP hconv _ members).imp fun g hg hms henv => hg (hms henv)

theorem keeps_convertAlias (active : List DeclKey) (env : Env) (scope : Nat) (decl : AliasDecl)
    (args : List TypeExpr) :
    Yields w S (convertAlias conv active env scope decl args) fun g => env.Holds S P → P g := by
  unfold convertAlias
  simp only
  split
  · exact .pure fun _ => hP.any
  · refine .bind (keeps_envInside hP hconv _ env scope decl.typeParams args) fun inner => ?_
    exact (hconv _ inner decl.type).imp fun g hg hinner henv => hg (hinner henv)

theorem keeps_convertQuery (active : List DeclKey) (env : Env) (path : List String) :
    Yields w S (convertQuery w conv active env path) fun g => P g := by
  unfold convertQuery
  split
  · exact .pure hP.any
  · split
    · exact .pure hP.undefined
    · split
      · simp only
        split
        · exact .pure hP.any
        · exact (hconv _ _ _).imp fun g hg => hg (holds_root _)
      · exact .pure hP.any

theorem keeps_convertItem (active : List DeclKey) (env : Env) (item : TupleItem) :
    Yields w S (convertItem conv active env item) fun g => env.Holds S P → P g := by
  obtain ⟨ty, optional, rest⟩ := item
  rw [convertItem]
  cases rest with
  | false => exact hconv active env ty
  | true =>
      rw [if_pos rfl]
      split
      · exact hconv active env _
      · exact .pure fun _ => hP.any

include hhost

theorem keeps_convertGlobal (active : List DeclKey) (env : Env) (name : List String)
    (args : List TypeExpr) :
    Yields w S (convertGlobal w conv active env name args) fun g => env.Holds S P → P g := by
  have hfirst := keeps_firstArg hP hconv active env args
  have harray : Yields w S (do return Guess.array (← firstArg conv active env args)) fun g =>
      env.Holds S P → P g :=
    .bind hfirst fun g => .pure fun hg henv => hP.array (hg henv)
  unfold convertGlobal
  simp only
  split
  all_goals first
    | exact hfirst
    | exact harray
    | exact .pure fun _ => hP.emptyObject
    | exact .pure fun _ => hP.undefined
    | exact .pure fun _ => hP.string
    | exact .pure fun _ => hP.number
    | exact .pure fun _ => hP.boolean
    | exact .pure fun _ => hP.of_hostClass hhost _
    | skip
  split
  · exact (keeps_instanceType hP hhost env _).imp fun _ hg _ => hg
  · exact .pure fun _ => hP.any

theorem keeps_convertRef (active : List DeclKey) (env : Env) (name : List String)
    (args : List TypeExpr) :
    Yields w S (convertRef w conv active env name args) fun g => env.Holds S P → P g := by
  unfold convertRef
  split
  next g hg =>
    refine .pure fun henv => ?_
    unfold binding? at hg
    split at hg
    · exact henv.bindings _ (Table.mem_of_find? hg)
    · cases hg
  · split
    next scope decl h =>
      exact (keeps_convertClass hP (Scopes.typeNamed?_declares h)).imp fun _ hg _ => hg
    · exact keeps_convertInterface hP hconv active env _ _ args
    · exact keeps_convertAlias hP hconv active env _ _ args
    · exact .pure fun _ => hP.of_enumGuess _
    · exact .pure fun _ => hP.ofKind (plain_enumValue _)
    · exact keeps_convertGlobal hP hconv hhost active env name args

/-! ## Types -/

/-- One step of the conversion keeps the property if the converter for nested types does. -/
theorem keeps_convertWith : Keeps w S P (convertWith w conv) := by
  intro active env ty
  cases ty with
  | keyword k => exact .pure fun henv => hP.of_keywordGuess henv k
  | textLiteral | template | keyof => exact .pure fun _ => hP.string
  | numberLiteral => exact .pure fun _ => hP.number
  | boolLiteral | predicate => exact .pure fun _ => hP.boolean
  | ref name args => exact keeps_convertRef hP hconv hhost active env name args
  | array item =>
      exact .bind (hconv active env item) fun g => .pure fun hg henv => hP.array (hg henv)
  | tuple items =>
      refine .bind (.mapM fun item _ => keeps_convertItem hP hconv active env item) fun gs => ?_
      exact .pure fun hgs henv => hP.array (hP.union fun g hg => hgs.2 g hg henv)
  | union members => exact keeps_convertUnion hP hconv active env (.union members) false
  | intersection parts =>
      refine .bind (.mapM fun part _ => hconv active env part) fun gs => ?_
      exact .pure fun hgs henv => hP.intersect fun g hg => hgs.2 g hg henv
  | function => exact .pure fun _ => hP.undefined
  | object members =>
      exact (keeps_objectOfMembers hP hconv active (placed members env)).imp fun g hg henv =>
        hg (allPlaced_placed henv members)
  | query path => exact (keeps_convertQuery hP hconv active env path).imp fun _ hg _ => hg
  | computed => exact .pure fun _ => hP.any

omit hconv in
theorem keeps_convertTo (depth : Nat) : Keeps w S P (convertTo w depth) := by
  induction depth with
  | zero =>
      intro _ _ _
      exact .outOfDepth
  | succ depth ih => exact keeps_convertWith hP ih hhost

omit hconv in
/-- **A property that every way of making guesses keeps is one of all that conversions give.** -/
theorem keeps_convertFully : Keeps w S P (convertFully w) :=
  fun active env ty => keeps_convertTo hP hhost _ active env ty

end Converting

end ApiSurface.Declaration
