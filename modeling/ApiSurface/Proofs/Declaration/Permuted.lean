/-
# `ApiSurface.Proofs.Declaration.Permuted` — declarations in another order

A text may declare and export its functions, classes, interfaces, names for types, enumerations and
variables in any order: where no two of them share a name and no class is its own ancestor, the
schema derived from it does not change (`deriveStatements_perm`).  The worlds of two orders are
alike and their surfaces have the same items, so what these describe in one of them they describe in
the other, and that is one schema.
-/
import ApiSurface.Proofs.Declaration.Exported

namespace ApiSurface.Declaration

open Relation

/-! ## Another order -/

section Agree

variable {w w' : World} (h : w.Agree w') {conv : Converter}

include h

theorem Region.of_agree {c : ClassRef} {s : Schema} (hregion : Region w conv c s) :
    Region w' conv c s := by
  induction hregion with
  | root hparent hes hs =>
      rw [h.parentClass?] at hparent
      rw [h.classEntries] at hes
      rw [h.className] at hs
      exact .root hparent hes hs
  | child hparent hbefore hnew hes hs ih =>
      rw [h.parentClass?] at hparent
      rw [h.classEntries] at hes
      rw [h.className] at hnew hs
      exact .child hparent ih hnew hes hs

theorem Describes.of_agree {items : List SurfaceItem} {s : Schema}
    (hdescribes : Describes w conv items s) : Describes w' conv items s := by
  refine ⟨fun item hitem => ?_, hdescribes.elsewhere⟩
  have hbrings := hdescribes.brings item hitem
  cases item with
  | ofClass scope decl name => exact Region.of_agree h hbrings
  | ofFunction | ofVariable =>
      obtain ⟨es, hes, hs⟩ := hbrings
      rw [h.itemEntries] at hes
      exact ⟨es, hes, hs⟩

end Agree

theorem deriveStatements_of_run {ss : List Statement} {items : List SurfaceItem} {d : Deriver}
    (hitems : IsSurface ss items)
    (h : emitAll (worldOf ss items) (convertFully (worldOf ss items)) items ⟨.empty, [], []⟩ =
      some ((), d)) : deriveStatements ss = .ok d.schema.seeded := by
  unfold deriveStatements
  rw [IsSurface] at hitems
  simp only [hitems]
  rw [worldOf] at h
  simp only [h]

section Permuting

variable {ds ds' : List Decl} (hnames : (ds.map Decl.name).Nodup) (hperm : ds.Perm ds')

include hnames hperm

theorem itemsOf_perm : (itemsOf ds).Perm (itemsOf ds') := by
  have hvalue : ∀ ds, (Scope.ofDecls ds).valueNamed? 0 = (Scope.ofDecls ds).bare.valueNamed? 0 :=
    fun _ => rfl
  have hsame : itemsNamed (.ofDecls ds) = itemsNamed (.ofDecls ds') := by
    funext n
    rw [itemsNamed, itemsNamed, hvalue, hvalue, Scope.bare_ofDecls_perm hnames hperm]
  rw [itemsOf, itemsOf, hsame]
  exact hperm.flatMap_right _

theorem alike_worldOfDecls (hscopes : ∀ d ∈ ds, d.opensScope = false) :
    (worldOfDecls ds).Alike (worldOfDecls ds') where
  scopes := by
    have hscopes' : ∀ d ∈ ds', d.opensScope = false := fun d hd =>
      hscopes d (hperm.mem_iff.mpr hd)
    rw [worldOfDecls, worldOfDecls, worldOf, worldOf, Scopes.ofStatements_exportedAll hscopes,
      Scopes.ofStatements_exportedAll hscopes', Scopes.bare, Scopes.bare, List.map_singleton,
      List.map_singleton, Scope.bare_ofDecls_perm hnames hperm]
  className := by
    funext c
    rw [className_worldOfDecls, className_worldOfDecls]

end Permuting

/-- The order of declarations does not matter, as long as their names have no dots in them. -/
theorem deriveStatements_perm_of_undotted {ds ds' : List Decl} {s : Schema}
    (hscopes : ∀ d ∈ ds, d.opensScope = false) (hnames : (ds.map Decl.name).Nodup)
    (hdots : ∀ d ∈ ds, Undotted d.name)
    (hacyclic : ∀ c, ¬ TransGen (Scopes.ofStatements (exportedAll ds)).Extends c c)
    (hperm : ds.Perm ds') (h : deriveStatements (exportedAll ds) = .ok s) :
    deriveStatements (exportedAll ds') = .ok s := by
  have hscopes' : ∀ d ∈ ds', d.opensScope = false := fun d hd => hscopes d (hperm.mem_iff.mpr hd)
  have hnames' : (ds'.map Decl.name).Nodup := (hperm.map _).nodup_iff.mp hnames
  have hdots' : ∀ d ∈ ds', Undotted d.name := fun d hd => hdots d (hperm.mem_iff.mpr hd)
  have halike := alike_worldOfDecls hnames hperm hscopes
  have hacyclic' : ∀ c, ¬ TransGen (Scopes.ofStatements (exportedAll ds')).Extends c c := by
    have hsame : (Scopes.ofStatements (exportedAll ds)).Extends =
        (Scopes.ofStatements (exportedAll ds')).Extends := by
      funext c p
      have htype := halike.typeNamed?
      rw [worldOfDecls, worldOfDecls, worldOf, worldOf] at htype
      rw [Scopes.Extends, Scopes.Extends, htype]
    exact hsame ▸ hacyclic
  have hflat := flat_worldOfDecls hscopes hnames hdots hacyclic
  have hflat' := flat_worldOfDecls hscopes' hnames' hdots' hacyclic'
  have hfaithful : ∀ w : World, Faithful w (fun _ => True) (convertFully w) := fun w =>
    faithful_convertFully fun _ _ => trivial
  -- The first run describes its items in one world, and so it does in the other one.
  obtain ⟨d, hrun, rfl⟩ := exists_run_of_derive (isSurface_itemsOf hscopes hnames hdots) h
  have hdescribes := describes_of_emitAll hflat (hfaithful _) hrun
  have hdescribes' := (hdescribes.of_agree halike.agree).perm (itemsOf_perm hnames hperm)
  rw [halike.agree.convertFully] at hdescribes'
  obtain ⟨d', hrun', hschema⟩ := exists_run_of_describes hflat' (hfaithful _) hdescribes'
  rw [← hschema]
  exact deriveStatements_of_run (isSurface_itemsOf hscopes' hnames' hdots') hrun'

/-- **The order of exported declarations does not matter**: a text that declares functions, classes,
interfaces, names for types, enumerations and variables of different names, no class its own
ancestor, has the schema of its declarations in any other order. -/
theorem deriveStatements_perm {text : String} {ds ds' : List Decl} {s : Schema}
    (hparse : parse text = .ok (exportedAll ds)) (hscopes : ∀ d ∈ ds, d.opensScope = false)
    (hnames : (ds.map Decl.name).Nodup)
    (hacyclic : ∀ c, ¬ TransGen (Scopes.ofStatements (exportedAll ds)).Extends c c)
    (hperm : ds.Perm ds') (h : derive text = .ok s) :
    deriveStatements (exportedAll ds') = .ok s := by
  have hdots : ∀ d ∈ ds, Undotted d.name := fun d hd =>
    undotted_of_parse hparse (List.mem_map_of_mem (f := fun d => Statement.decl d true) hd)
      (hscopes d hd)
  rw [derive, hparse] at h
  exact deriveStatements_perm_of_undotted hscopes hnames hdots hacyclic hperm h

/-! ## A text -/

/-- The declarations that are exported. -/
def exportedDecls (ss : List Statement) : List Decl :=
  ss.filterMap fun
    | .decl d true => some d
    | _ => none

/-- Whether all statements are exported declarations. -/
def allExported (ss : List Statement) : Bool :=
  ss.all fun
    | .decl _ true => true
    | _ => false

theorem exportedAll_exportedDecls {ss : List Statement} (h : allExported ss = true) :
    exportedAll (exportedDecls ss) = ss := by
  induction ss with
  | nil => rfl
  | cons st ss ih =>
      obtain ⟨hst, hss⟩ := Bool.and_eq_true_iff.mp h
      have hrest : exportedAll (exportedDecls ss) = ss := ih hss
      cases st with
      | decl d exported =>
          cases exported with
          | false => cases hst
          | true => exact congrArg (.decl d true :: ·) hrest
      | exportAssignment | exportList | other => cases hst

/-- Whether no class extends one that extends another one. -/
def Scopes.parentsAreRoots (s : Scopes) : Bool :=
  s.all.zipIdx.all fun p => p.1.classes.all fun q =>
    (parentClass? ⟨s, []⟩ ⟨p.2, q.2⟩).all fun r => r.decl.parent.isNone

theorem acyclic_of_parentsAreRoots {s : Scopes} (h : s.parentsAreRoots = true) (c : ClassRef) :
    ¬ TransGen s.Extends c c := by
  have hdeclared : ∀ {c p}, s.Extends c p → s.Declares p := by
    rintro c p ⟨path, args, -, hname⟩
    exact Scopes.typeNamed?_declares hname
  have hroot : ∀ {c p}, s.Declares c → s.Extends c p → p.decl.parent = none := by
    rintro c p ⟨sc, name, hsc, hc⟩ hp
    have hmem : (sc, c.scope) ∈ s.all.zipIdx := List.mem_zipIdx_iff_getElem?.mpr hsc
    have hall := List.all_eq_true.mp (List.all_eq_true.mp h _ hmem) _ (Table.mem_of_find? hc)
    rw [(parentClass?_eq_some_iff (w := ⟨s, []⟩)).mpr hp] at hall
    simpa using hall
  intro hcycle
  obtain ⟨b, -, hlast⟩ := TransGen.tail'_iff.mp hcycle
  obtain ⟨p, hfirst, hrest⟩ := TransGen.head'_iff.mp hcycle
  have hnone := hroot (hdeclared hlast) hfirst
  -- The circle leads on from the parent, which extends nothing.
  have hnext : ∃ q, s.Extends p q := by
    rcases ReflTransGen.cases_head hrest with rfl | ⟨q, hq, -⟩
    · exact ⟨p, hfirst⟩
    · exact ⟨q, hq⟩
  obtain ⟨q, path, args, hsome, -⟩ := hnext
  cases hnone.symm.trans hsome

/-- A class that comes before the one it extends, and a function that refers to both. -/
def kennelText : String :=
  "export class Dog extends Pet { bark(at: Pet): void } " ++
    "export function adopt(p: Pet, d?: Dog): Pet; export class Pet { name(): string } " ++
    "export const sizes: { least(): number }"

/-- The other order has the parent first. -/
theorem deriveStatements_perm_kennelText : ∃ ds s, parse kennelText = .ok (exportedAll ds) ∧
    (∀ d ∈ ds, d.opensScope = false) ∧ (ds.map Decl.name).Nodup ∧
    (∀ c, ¬ TransGen (Scopes.ofStatements (exportedAll ds)).Extends c c) ∧ ds.Perm ds.reverse ∧
    derive kennelText = .ok s ∧ deriveStatements (exportedAll ds.reverse) = .ok s := by
  have hcheck : (parse kennelText).toOption.any (fun ss => allExported ss &&
      ((exportedDecls ss).all fun d => !d.opensScope) &&
      decide ((exportedDecls ss).map Decl.name).Nodup &&
      (Scopes.ofStatements ss).parentsAreRoots &&
      (derive kennelText).toOption.any fun _ => true) = true := by
    decide +kernel
  obtain ⟨ss, hss, hcheck⟩ := exists_ok_of_any hcheck
  simp only [Bool.and_eq_true, decide_eq_true_eq] at hcheck
  obtain ⟨⟨⟨⟨hexported, hscopes⟩, hnames⟩, hroots⟩, hderive⟩ := hcheck
  obtain ⟨s, hs, -⟩ := exists_ok_of_any hderive
  have hsame := exportedAll_exportedDecls hexported
  have hparse : parse kennelText = .ok (exportedAll (exportedDecls ss)) :=
    hss.trans (congrArg Except.ok hsame.symm)
  have hscopes : ∀ d ∈ exportedDecls ss, d.opensScope = false := fun d hd => by
    simpa using List.all_eq_true.mp hscopes d hd
  have hacyclic := acyclic_of_parentsAreRoots hroots
  rw [← hsame] at hacyclic
  have hperm := (List.reverse_perm (exportedDecls ss)).symm
  exact ⟨exportedDecls ss, s, hparse, hscopes, hnames, hacyclic, hperm, hs,
    deriveStatements_perm hparse hscopes hnames hacyclic hperm hs⟩

end ApiSurface.Declaration
