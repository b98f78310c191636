/-
# `ApiSurface.Proofs.Declaration.Derived` — when a derived schema passes the check

Whatever a declaration text says, the schema derived from it is sound: mass on objects, arrays and
instances comes with what is known about their parts, every class named has an entry, methods have
receivers and constructors return their classes.  The one thing that the derivation does not see to
is that the names of entries, which it puts together from the names in the text, do not run into one
another.  So the check passes exactly when the names are unambiguous
(`violations_derive_eq_nil_iff`), and there are texts for which they are not
(`dottedMember_has_violation`).
-/
import ApiSurface.Proofs.Declaration.Emission
import ApiSurface.Proofs.Schema.Seeding

namespace ApiSurface.Declaration

open Guess

variable {w : World} {S : String → Prop}

/-! ## Items -/

section Converting

variable {conv : Converter} (hconv : Faithful w S conv)

include hconv

theorem emits_function (scope : Nat) (sigs : List FnSig) (name : String) :
    Emits w S True (emitFunction w conv scope sigs name) fun _ => True := by
  refine .bind (.converted ((yields_freeEntry hconv name _).imp fun e he _ => he ?_))
    fun e => emits_insert And.right
  intro s hs
  obtain ⟨sig, -, rfl⟩ := List.mem_map.mp hs
  exact sound_root scope

/-- The entries of a variable whose type is neither a function nor that of another value. -/
theorem emits_membersOf (scope : Nat) (type : TypeExpr) (name memberPrefix : String) :
    Emits w S True (do
      match ← Derive.converted w (membersOf w conv { scope := scope } type) with
      | none => pure ()
      | some members =>
        emitFunctions w conv memberPrefix (methodGroups members false)
        let calls := callSigs members
        if !calls.isEmpty then
          let e ← Derive.converted w (entryOf w conv calls none .free none)
          Derive.insert name e) fun _ => True := by
  refine .bind (.converted ((yields_membersOf hconv { scope := scope } type).imp
    fun ms hms _ => hms (sound_root scope))) fun ms => ?_
  cases ms with
  | none => exact .pure fun _ => trivial
  | some members =>
      refine .bind (emits_functions hconv memberPrefix _ fun h =>
        sound_methodGroups (h.2 members rfl) false) fun _ => ?_
      simp only
      split
      · refine .bind (.converted ((yields_freeEntry hconv name _).imp fun e he h =>
          he (sound_callSigs (h.1.2 members rfl)))) fun e => emits_insert And.right
      · exact .pure fun _ => trivial

theorem emits_variable (scope : Nat) (type : TypeExpr) (name memberPrefix : String) :
    Emits w S True (emitVariable w conv scope type name memberPrefix) fun _ => True := by
  unfold emitVariable
  split
  · exact emits_function hconv scope _ name
  · split
    · split
      · exact emits_function hconv _ _ name
      · exact .pure fun _ => trivial
    · exact .pure fun _ => trivial
  · exact emits_membersOf hconv scope type name memberPrefix

theorem emits_item {item : SurfaceItem} (hitem : ItemsDeclared w.scopes [item]) :
    Emits w S (ConstructorsSmall w) (emitItem w conv item) fun _ => True := by
  cases item with
  | ofClass scope decl name =>
      intro d a d' hrun
      obtain ⟨hgrows, -, hsound⟩ := emitClass_spec hconv _ _
        (hitem scope decl name List.mem_cons_self) d a d' hrun
      exact ⟨hgrows, fun hsmall hwithin hd => ⟨hsound hsmall hwithin hd, trivial⟩⟩
  | ofFunction scope sigs name =>
      exact (emits_function hconv scope sigs name).imp (fun _ => trivial) fun _ h => h
  | ofVariable scope type name memberPrefix =>
      exact (emits_variable hconv scope type name memberPrefix).imp (fun _ => trivial) fun _ h => h

theorem emits_items (items : List SurfaceItem) : ItemsDeclared w.scopes items →
    Emits w S (ConstructorsSmall w) (emitItems w conv items) fun _ => True := by
  induction items with
  | nil =>
      intro _
      rw [emitItems]
      exact .pure fun _ => trivial
  | cons item items ih =>
      intro hitems
      obtain ⟨hitem, hitems⟩ := itemsDeclared_cons.mp hitems
      rw [emitItems]
      exact .bind (emits_item hconv hitem) fun _ => (ih hitems).imp And.left fun _ h => h

/-! ## Classes that are referred to -/

/-- In the end no class that is referred to is without entries. -/
theorem emitPending_spec (fuel : Nat) : ∀ d d', (∀ c ∈ d.pending, w.scopes.Declares c) →
    emitPending w conv fuel d = some ((), d') → d.Grows w d' ∧ d'.pending = [] ∧
      (ConstructorsSmall w → d'.Within w S → d.schema.Sound S → d'.schema.Sound S) := by
  induction fuel with
  | zero =>
      intro _ _ _ heq
      cases heq
  | succ fuel ih =>
      intro d d' hdeclared heq
      rcases next_of_emitPending heq with hnext | ⟨c, d₁, d₂, hnext, hclass, hrest⟩
      · have htakes := takes_of_nextPending hnext
        exact ⟨htakes.grows (.refl d') nofun, htakes.last rfl, fun _ _ hd => htakes.schema ▸ hd⟩
      · have htakes := takes_of_nextPending hnext
        obtain ⟨hgrows, hclaimed, hsound⟩ :=
          emitClass_spec hconv _ c (hdeclared c (htakes.noted c rfl)) d₁ () d₂ hclass
        have hfirst : d.Grows w d₂ := htakes.grows hgrows fun _ heq => Option.some.inj heq ▸ hclaimed
        obtain ⟨hgrows', hpending, hsound'⟩ :=
          ih d₂ d' (fun x hx => (hfirst.declared x hx).elim (hdeclared x) id) hrest
        refine ⟨hfirst.trans hgrows', hpending, fun hsmall hwithin hd => ?_⟩
        exact hsound' hsmall hwithin
          (hsound hsmall (hwithin.of_grows hgrows') (htakes.schema.symm ▸ hd))

/-- What a whole derivation keeps: its items come first, then the classes that these refer to. -/
theorem emitAll_spec {items : List SurfaceItem} (hitems : ItemsDeclared w.scopes items)
    {d : Deriver} {u : Unit} (h : emitAll w conv items ⟨.empty, [], []⟩ = some (u, d)) :
    Deriver.Grows w ⟨.empty, [], []⟩ d ∧ d.pending = [] ∧
      (ConstructorsSmall w → d.Within w S → d.schema.Sound S) := by
  obtain ⟨u₁, d₁, hrun, hrest⟩ := Derive.bind_eq_some_iff.mp h
  obtain ⟨hgrows, hsound⟩ := emits_items hconv items hitems _ u₁ d₁ hrun
  obtain ⟨hgrows', hpending, hsound'⟩ := emitPending_spec hconv _ d₁ d
    (fun c hc => (hgrows.declared c hc).resolve_left (nomatch ·)) hrest
  refine ⟨hgrows.trans hgrows', hpending, fun hsmall hwithin => ?_⟩
  exact hsound' hsmall hwithin
    (hsound hsmall (hwithin.of_grows hgrows') Schema.sound_empty).1

end Converting

/-! ## The host -/

theorem sound_hostEntries (hhost : ∀ name, Standard.isClass name = true → S name) :
    ∀ p ∈ Standard.entries, p.2.Sound S p.1 := by
  have hnil : ∀ g ∈ ([] : List Guess), g.Sound S := fun _ hg => absurd hg List.not_mem_nil
  have hone : ∀ {g : Guess}, g.Sound S → ∀ g' ∈ [g], g'.Sound S := fun hg =>
    List.forall_mem_singleton.mpr hg
  have hoptional : (Guess.optional .string).Sound S := sound_union
    (List.forall_mem_cons.mpr ⟨sound_string, hone sound_undefined⟩)
  have hclass : ∀ (name : String) {args : List Guess}, Standard.isClass name = true →
      (∀ g ∈ args, g.Sound S) → (Standard.constructorEntry name args).2.Sound S name :=
    fun name _ hname => Standard.sound_constructorEntry (hhost name hname)
  simp only [Standard.entries, List.forall_mem_cons]
  exact ⟨hclass _ rfl hnil, hclass _ rfl (hone sound_number), hclass _ rfl hnil,
    hclass _ rfl (hone sound_number), hclass _ rfl (hone sound_number),
    hclass _ rfl (hone hoptional), hclass _ rfl hnil,
    ⟨hone sound_string, sound_ofClass (hhost _ rfl), fun hno => Convention.noConfusion hno,
      fun hno => Convention.noConfusion hno⟩, fun _ h => absurd h List.not_mem_nil⟩

theorem sound_seeded {s : Schema} (h : s.Sound S)
    (hhost : ∀ name, Standard.isClass name = true → S name) : s.seeded.Sound S := by
  intro name e hfind
  rw [Schema.find?_seeded, Option.or_eq_some_iff] at hfind
  rcases hfind with hgiven | ⟨-, hadded⟩
  · exact h name e hgiven
  · exact sound_hostEntries hhost _ (Schema.mem_of_lookup hadded)

theorem has_seeded_of_has {s : Schema} {name : String} (h : s.has name = true) :
    s.seeded.has name = true := by
  rw [Schema.has, Schema.find?_seeded, Option.isSome_or, Bool.or_eq_true]
  exact .inl h

/-- Every class of the host has an entry in a derived schema. -/
theorem has_seeded_of_isClass (s : Schema) {name : String} (h : Standard.isClass name = true) :
    s.seeded.has name = true := by
  have hall : ∀ n ∈ Standard.classNames, (Standard.entries.lookup n).isSome = true := by decide
  rw [Schema.has, Schema.find?_seeded, Option.isSome_or, Bool.or_eq_true]
  exact .inr (hall name (List.contains_iff_mem.mp h))

/-! ## Texts -/

/-- A derived schema comes from the items that the exports lead to, and from a run over these. -/
theorem exists_run_of_deriveStatements {ss : List Statement} {s : Schema}
    (h : deriveStatements ss = .ok s) :
    ∃ items d, surface (Scopes.ofStatements ss) ((Scopes.ofStatements ss).all.length + 1) =
        .ok items ∧
      emitAll ⟨Scopes.ofStatements ss, classNames items⟩
        (convertFully ⟨Scopes.ofStatements ss, classNames items⟩) items ⟨.empty, [], []⟩ =
          some ((), d) ∧
      s = d.schema.seeded := by
  unfold deriveStatements at h
  simp only at h
  split at h
  · cases h
  next items hitems =>
    split at h
    · cases h
    next d hrun =>
      cases h
      exact ⟨items, d, hitems, hrun, rfl⟩

/-- The names of classes at the end of a run: those that are claimed, and those of the host. -/
def Deriver.Named (d : Deriver) (name : String) : Prop :=
  name ∈ d.emitted ∨ Standard.isClass name = true

theorem Deriver.within_named {d : Deriver} (h : d.pending = []) : d.Within w d.Named where
  emitted _ hn := Or.inl hn
  pending := by
    rw [h]
    exact nofun

/-- In the end every name of a class has an entry. -/
theorem Deriver.Named.has {d : Deriver} {name : String} (h : d.Named name)
    (hgrows : Deriver.Grows w ⟨.empty, [], []⟩ d) : d.schema.seeded.has name = true := by
  rcases h with hn | hn
  · exact has_seeded_of_has ((hgrows.entered name hn).resolve_left (nomatch ·))
  · exact has_seeded_of_isClass _ hn

/-- **A derived schema is sound, and the classes it refers to have entries.** -/
theorem sound_deriveStatements {ss : List Statement} {s : Schema}
    (h : deriveStatements ss = .ok s)
    (hsmall : ∀ c, (Scopes.ofStatements ss).Declares c → c.decl.constructorCount < 2 ^ 53) :
    ∃ S, s.Sound S ∧ ∀ c, S c → s.has c = true := by
  obtain ⟨items, d, hitems, hrun, rfl⟩ := exists_run_of_deriveStatements h
  -- The set of names is read off the end of the run.
  have hconv := faithful_convertFully (S := d.Named)
    (w := ⟨Scopes.ofStatements ss, classNames items⟩) fun _ hn => Or.inr hn
  obtain ⟨hgrows, hpending, hsound⟩ := emitAll_spec hconv (itemsDeclared_surface hitems) hrun
  refine ⟨d.Named, ?_, fun _ hc => hc.has hgrows⟩
  exact sound_seeded (hsound hsmall (Deriver.within_named hpending)) fun _ hn => Or.inr hn

/-- **A derived schema passes the check exactly when its names are unambiguous.**  The bound is on
what a class may declare: as long as a sum of ones is exact, it is on no class that can be written
down. -/
theorem violations_derive_eq_nil_iff {text : String} {ss : List Statement} {s : Schema}
    (hparse : parse text = .ok ss) (h : derive text = .ok s)
    (hsmall : ∀ sc ∈ (Scopes.ofStatements ss).all, ∀ p ∈ sc.classes,
      p.2.constructorCount < 2 ^ 53) :
    s.violations = [] ↔ s.Unambiguous := by
  rw [derive, hparse] at h
  have hdeclared : ∀ c, (Scopes.ofStatements ss).Declares c →
      c.decl.constructorCount < 2 ^ 53 := by
    rintro c ⟨sc, name, hsc, hc⟩
    exact hsmall sc (List.mem_of_getElem? hsc) (name, c.decl) (Table.mem_of_find? hc)
  obtain ⟨S, hsound, hS⟩ := sound_deriveStatements h hdeclared
  exact Schema.violations_eq_nil_iff hsound hS

theorem exists_ok_of_any {ε α : Type} {x : Except ε α} {p : α → Bool}
    (h : x.toOption.any p = true) : ∃ a, x = .ok a ∧ p a = true := by
  cases x with
  | error e => cases h
  | ok a => exact ⟨a, rfl, h⟩

theorem eq_ok_of_any {ε α : Type} {x : Except ε α} {a : α} {p : α → Bool}
    (h : x.toOption.any p = true) (hp : ∀ b, p b = true → b = a) : x = .ok a := by
  obtain ⟨b, rfl, hb⟩ := exists_ok_of_any h
  rw [hp b hb]

/-- A class with two constructors and a method that gives the class back. -/
def storeText : String :=
  "export class Store { constructor(n: number); constructor(); open(): Store }"

theorem violations_derive_storeText : ∃ ss s, parse storeText = .ok ss ∧
    derive storeText = .ok s ∧ s.violations = [] ∧ s.Unambiguous := by
  have hparse : (parse storeText).toOption.any (fun ss => (Scopes.ofStatements ss).all.all
      fun sc => sc.classes.all fun p => p.2.constructorCount < 2 ^ 53) = true := by
    decide +kernel
  have hderive : (derive storeText).toOption.any (fun s => s.violations.isEmpty) = true := by
    decide +kernel
  obtain ⟨ss, hss, hsmall⟩ := exists_ok_of_any hparse
  obtain ⟨s, hs, hnil⟩ := exists_ok_of_any hderive
  have hnil : s.violations = [] := List.isEmpty_iff.mp hnil
  refine ⟨ss, s, hss, hs, hnil, (violations_derive_eq_nil_iff hss hs ?_).mp hnil⟩
  simpa only [List.all_eq_true, decide_eq_true_eq] using hsmall

/-- The name of a member may have a dot in it, and the class of the method is then misread. -/
theorem dottedMember_has_violation :
    (derive "export declare class A \x7b \"x.y\"(): void \x7d").toOption.map Schema.violations =
      some [⟨"A.x.y", ".args[0]", .wrongReceiver "A.x"⟩] := by
  decide +kernel

-- A function under the name of a class that is referred to stands where the constructor would.
example : (derive
    "export declare function Error(): void; export declare function f(): Error").toOption.map
      Schema.violations = some [⟨"f", ".ret", .noConstructor "Error"⟩] := by
  decide +kernel

end ApiSurface.Declaration
