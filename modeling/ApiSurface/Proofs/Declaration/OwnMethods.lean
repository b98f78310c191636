/-
# `ApiSurface.Proofs.Declaration.OwnMethods` — which methods a derived schema has

A method that a reached class declares has an entry in the derived schema, made from its own
signatures, unless something else of the surface brings an entry under the same name
(`ownMethod_derived`).  Statics of the class itself, methods of its parent and the entries of the
host all give way to it.  A function of a namespace that shares the name of the class does not
(`namespaceFunction_replaces_method`).
-/
import ApiSurface.Proofs.Declaration.Derived
import ApiSurface.Proofs.Declaration.Reached

namespace ApiSurface

namespace Declaration

/-- What the conversions of a text read that leads to the items. -/
def worldOf (ss : List Statement) (items : List SurfaceItem) : World :=
  ⟨Scopes.ofStatements ss, classNames items⟩

/-- The items that the exports of statements lead to. -/
def IsSurface (ss : List Statement) (items : List SurfaceItem) : Prop :=
  surface (Scopes.ofStatements ss) ((Scopes.ofStatements ss).all.length + 1) = .ok items

/-- The classes that the items of a text reach. -/
abbrev ReachedIn (ss : List Statement) (items : List SurfaceItem) : ClassRef → Prop :=
  Reached (worldOf ss items) (convertFully (worldOf ss items)) items

/-- No two classes that the items of a text reach have one name. -/
def DistinctNames (ss : List Statement) (items : List SurfaceItem) : Prop :=
  ∀ c c', ReachedIn ss items c → ReachedIn ss items c' →
    (worldOf ss items).className c = (worldOf ss items).className c' → c = c'

theorem exists_run_of_derive {ss : List Statement} {items : List SurfaceItem} {s : Schema}
    (hitems : IsSurface ss items) (h : deriveStatements ss = .ok s) :
    ∃ d, emitAll (worldOf ss items) (convertFully (worldOf ss items)) items ⟨.empty, [], []⟩ =
      some ((), d) ∧ s = d.schema.seeded := by
  obtain ⟨items', d, hitems', hrun, rfl⟩ := exists_run_of_deriveStatements h
  cases hitems.symm.trans hitems'
  exact ⟨d, hrun, rfl⟩

/-- **A method of a reached class has its own entry in the derived schema**, unless an item or
another class brings an entry under the same name. -/
theorem ownMethod_derived {ss : List Statement} {items : List SurfaceItem} {s : Schema}
    (hitems : IsSurface ss items) (h : deriveStatements ss = .ok s)
    (hnames : DistinctNames ss items) {c : ClassRef} (hc : ReachedIn ss items c) {member : Member}
    (hmember : member ∈ c.decl.members) {m : String} {sig : FnSig}
    (hsig : methodSig? false member = some (m, sig)) (hm : Standard.isMember m = false) :
    let w := worldOf ss items
    let name := w.className c ++ "." ++ m
    (∃ e, s.find? name = some e ∧ e.convention = .method ∧ Owns w (convertFully w) c (name, e)) ∨
      BroughtElsewhere w (convertFully w) items c name := by
  intro w name
  obtain ⟨d, hrun, rfl⟩ := exists_run_of_derive hitems h
  have hsettled := settled_of_emitAll hrun hnames hc
  obtain ⟨es, hes⟩ := hsettled.gives
  obtain ⟨hformed, hdefined⟩ := formed_classEntries hes
  have hmem : name ∈ es.methods.map Prod.fst := by
    rw [hformed.methods]
    refine List.mem_map_of_mem (f := fun m => w.className c ++ "." ++ m) ?_
    exact List.mem_filter.mpr ⟨hdefined member hmember m sig hsig, by rw [hm]; rfl⟩
  obtain ⟨p, hp, hname⟩ := List.mem_map.mp hmem
  have howns : Owns w (convertFully w) c p := ⟨es, hes, hp⟩
  rw [← hname]
  exact (hsettled.methods p howns).imp_left fun hfind =>
    ⟨p.2, by rw [Schema.find?_seeded, hfind, Option.some_or], howns.convention, howns⟩

/-! ## Texts -/

/-- The class that an item is, if it is one. -/
def SurfaceItem.classRef? : SurfaceItem → Option ClassRef
  | .ofClass scope decl _ => some ⟨scope, decl⟩
  | _ => none

/-- Whether a class extends no other class and refers to none. -/
def standsAlone (w : World) (c : ClassRef) : Bool :=
  (parentClass? w c).isNone &&
    (classEntries w (convertFully w) c).elim false fun p => p.2.isEmpty

/-- Whether a class has a method of the name. -/
def ClassRef.hasMethod (c : ClassRef) (m : String) : Bool :=
  c.decl.members.any fun member => (methodSig? false member).any fun p => p.1 == m

theorem ClassRef.exists_of_hasMethod {c : ClassRef} {m : String} (h : c.hasMethod m = true) :
    ∃ member ∈ c.decl.members, ∃ sig, methodSig? false member = some (m, sig) := by
  obtain ⟨member, hmember, h⟩ := List.any_eq_true.mp h
  obtain ⟨p, hp, hname⟩ := (Option.any_eq_true _ _).mp h
  exact ⟨member, hmember, p.2, by rw [hp, ← beq_iff_eq.mp hname]⟩

theorem reached_of_classRef? {w : World} {conv : Converter} {items : List SurfaceItem}
    {item : SurfaceItem} {c : ClassRef} (hitem : item ∈ items) (hc : item.classRef? = some c) :
    Reached w conv items c := by
  cases item with
  | ofFunction | ofVariable => cases hc
  | ofClass scope decl name =>
      cases hc
      exact .exported hitem

/-- A surface that is one class standing alone reaches no other one. -/
theorem reached_of_standsAlone {w : World} {item : SurfaceItem} {c : ClassRef}
    (hitem : item.classRef? = some c) (halone : standsAlone w c = true) {r : ClassRef}
    (hr : Reached w (convertFully w) [item] r) : r = c := by
  obtain ⟨hparent, hrefers⟩ := Bool.and_eq_true_iff.mp halone
  cases item with
  | ofFunction | ofVariable => cases hitem
  | ofClass scope decl name =>
      cases hitem
      induction hr with
      | exported hmem =>
          cases List.mem_singleton.mp hmem
          rfl
      | ofItem hmem hitem =>
          rw [List.mem_singleton.mp hmem] at hitem
          obtain ⟨_, _, heq, hr⟩ := hitem
          cases heq
          cases hr
      | parent hc hp ih =>
          subst ih
          rw [hp] at hparent
          cases hparent
      | ofClass hc hr ih =>
          subst ih
          obtain ⟨es, refs, heq, hmem⟩ := hr
          rw [heq] at hrefers
          obtain rfl : refs = [] := List.isEmpty_iff.mp hrefers
          cases hmem

/-- A class with a static under the name of a method. -/
def sharedNameText : String :=
  "export declare class A \x7b m(x: number): void; static m(): string \x7d"

theorem sharedName_ownMethod : ∃ ss items s c member sig, parse sharedNameText = .ok ss ∧
    IsSurface ss items ∧ deriveStatements ss = .ok s ∧ DistinctNames ss items ∧
    ReachedIn ss items c ∧ member ∈ c.decl.members ∧ methodSig? false member = some ("m", sig) ∧
    Standard.isMember "m" = false ∧
    let w := worldOf ss items
    let name := w.className c ++ "." ++ "m"
    (∃ e, s.find? name = some e ∧ e.convention = .method ∧ Owns w (convertFully w) c (name, e)) ∨
      BroughtElsewhere w (convertFully w) items c name := by
  have hcheck : (parse sharedNameText).toOption.any (fun ss =>
      (surface (Scopes.ofStatements ss) ((Scopes.ofStatements ss).all.length + 1)).toOption.any
        (fun items => items.length == 1 && items.all fun item => item.classRef?.any fun c =>
          standsAlone (worldOf ss items) c && c.hasMethod "m") &&
      (deriveStatements ss).toOption.any fun _ => true) = true := by
    decide +kernel
  obtain ⟨ss, hss, hcheck⟩ := exists_ok_of_any hcheck
  obtain ⟨hsurface, hderive⟩ := Bool.and_eq_true_iff.mp hcheck
  obtain ⟨items, hitems, hcheck⟩ := exists_ok_of_any hsurface
  obtain ⟨s, hs, -⟩ := exists_ok_of_any hderive
  obtain ⟨hlength, hall⟩ := Bool.and_eq_true_iff.mp hcheck
  obtain ⟨item, rfl⟩ := List.length_eq_one_iff.mp (beq_iff_eq.mp hlength)
  obtain ⟨c, hclass, hc⟩ :=
    (Option.any_eq_true _ _).mp (List.all_eq_true.mp hall item List.mem_cons_self)
  obtain ⟨halone, hmethod⟩ := Bool.and_eq_true_iff.mp hc
  obtain ⟨member, hmember, sig, hsig⟩ := ClassRef.exists_of_hasMethod hmethod
  have hnames : DistinctNames ss [item] := fun r r' hr hr' _ =>
    (reached_of_standsAlone hclass halone hr).trans
      (reached_of_standsAlone hclass halone hr').symm
  have hreached : ReachedIn ss [item] c := reached_of_classRef? List.mem_cons_self hclass
  exact ⟨ss, [item], s, c, member, sig, hss, hitems, hs, hnames, hreached, hmember, hsig, by decide,
    ownMethod_derived hitems hs hnames hreached hmember hsig (by decide)⟩

/-- A class with a method, and a namespace that merges with it and has a function of that name. -/
def mergedNamespaceText : String :=
  "export declare class A \x7b m(x: number): void \x7d " ++
    "export declare namespace A \x7b function m(): string; \x7d"

/-- The members of a namespace are written after the class that it merges with. -/
theorem namespaceFunction_replaces_method : ∃ ss items s c member sig e,
    parse mergedNamespaceText = .ok ss ∧ IsSurface ss items ∧ deriveStatements ss = .ok s ∧
    ReachedIn ss items c ∧ (worldOf ss items).className c = "A" ∧ member ∈ c.decl.members ∧
    methodSig? false member = some ("m", sig) ∧ Standard.isMember "m" = false ∧
    s.find? "A.m" = some e ∧ e.convention = .free := by
  have hcheck : (parse mergedNamespaceText).toOption.any (fun ss =>
      (surface (Scopes.ofStatements ss) ((Scopes.ofStatements ss).all.length + 1)).toOption.any
        (fun items => items.any fun item => item.classRef?.any fun c =>
          (worldOf ss items).className c == "A" && c.hasMethod "m") &&
      (deriveStatements ss).toOption.any fun s =>
        (s.find? "A.m").any fun e => e.convention == .free) = true := by
    decide +kernel
  obtain ⟨ss, hss, hcheck⟩ := exists_ok_of_any hcheck
  obtain ⟨hsurface, hderive⟩ := Bool.and_eq_true_iff.mp hcheck
  obtain ⟨items, hitems, hcheck⟩ := exists_ok_of_any hsurface
  obtain ⟨s, hs, hentry⟩ := exists_ok_of_any hderive
  obtain ⟨item, hitem, hclass⟩ := List.any_eq_true.mp hcheck
  obtain ⟨c, hc, hclass⟩ := (Option.any_eq_true _ _).mp hclass
  obtain ⟨hname, hmethod⟩ := Bool.and_eq_true_iff.mp hclass
  obtain ⟨member, hmember, sig, hsig⟩ := ClassRef.exists_of_hasMethod hmethod
  obtain ⟨e, he, hfree⟩ := (Option.any_eq_true _ _).mp hentry
  exact ⟨ss, items, s, c, member, sig, e, hss, hitems, hs, reached_of_classRef? hitem hc,
    beq_iff_eq.mp hname, hmember, hsig, by decide, he, beq_iff_eq.mp hfree⟩

end Declaration

end ApiSurface
