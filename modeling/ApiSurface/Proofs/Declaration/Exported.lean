/-
# `ApiSurface.Proofs.Declaration.Exported` — a scope of exported declarations

A text that only exports functions, classes, interfaces, names for types, enumerations and variables
has one scope.  Declarations of different names go to different places of it, so their order is seen
in its exports alone (`bare_ofDecls_perm`), and with it in the order of the items of the surface
(`surface_ofDecls`).  Where the names have no dots in them, the surface is flat
(`flat_worldOfDecls`).
-/
import ApiSurface.Proofs.Declaration.Alike
import ApiSurface.Proofs.Declaration.Described
import ApiSurface.Proofs.Declaration.Words

namespace ApiSurface.Declaration

open Relation

/-! ## One scope -/

namespace Scope

/-- Declares something and exports it under its name. -/
def exporting (sc : Scope) (d : Decl) : Scope :=
  (sc.declare d).addExport ⟨d.name, d.name⟩

/-- The scope of exported declarations. -/
def ofDecls (ds : List Decl) : Scope :=
  ds.foldl exporting .root

end Scope

theorem Scopes.ofStatements_exportedAll {ds : List Decl} (h : ∀ d ∈ ds, d.opensScope = false) :
    Scopes.ofStatements (exportedAll ds) = ⟨[.ofDecls ds]⟩ := by
  have hall : ∀ (all : Bool) (ds : List Decl), (∀ d ∈ ds, d.opensScope = false) → ∀ sc : Scope,
      addStatements 0 all (exportedAll ds) ⟨[sc]⟩ = ⟨[ds.foldl Scope.exporting sc]⟩ := by
    intro all ds
    induction ds with
    | nil => exact fun _ _ => rfl
    | cons d ds ih =>
        intro h sc
        obtain ⟨hd, hds⟩ := List.forall_mem_cons.mp h
        have hstep : addStatement 0 all (.decl d true) ⟨[sc]⟩ = ⟨[sc.exporting d]⟩ := by
          cases d with
          | namespaceDecl | moduleDecl => cases hd
          | functionDecl | classDecl | interfaceDecl | aliasDecl | enumDecl | variableDecl =>
              simp [addStatement, addDecl, isModule, Scopes.addExport, Scopes.modify,
                Scope.exporting]
        rw [exportedAll, List.map_cons, addStatements, hstep]
        exact ih hds _
  exact hall _ ds h _

namespace Scope

theorem bare_exporting (sc : Scope) (d : Decl) : (sc.exporting d).bare = sc.bare.declare d := by
  have hdeclare : (sc.declare d).bare = sc.bare.declare d := by
    cases d <;> rfl
  rw [← hdeclare, exporting, addExport]
  split <;> rfl

theorem bare_ofDecls (ds : List Decl) : (ofDecls ds).bare = ds.foldl declare .root := by
  have hfold : ∀ (ds : List Decl) (sc : Scope),
      (ds.foldl exporting sc).bare = ds.foldl declare sc.bare := by
    intro ds
    induction ds with
    | nil => exact fun _ => rfl
    | cons d ds ih =>
        intro sc
        rw [List.foldl_cons, List.foldl_cons, ih, bare_exporting]
  exact hfold ds .root

theorem appended_comm {α : Type} {m n : String} (h : m ≠ n) (t : List (String × List α)) (a b : α) :
    appended (appended t m a) n b = appended (appended t n b) m a := by
  simp only [appended]
  rw [Table.find?_insert_of_ne h, Table.find?_insert_of_ne h.symm, Table.insert_comm h]

/-- Declarations of different names may change places. -/
theorem declare_comm {d d' : Decl} (h : d.name ≠ d'.name) (sc : Scope) :
    (sc.declare d).declare d' = (sc.declare d').declare d := by
  cases d <;> cases d' <;> try rfl
  case functionDecl.functionDecl | interfaceDecl.interfaceDecl =>
    simp only [Decl.name] at h
    simp only [declare, appended_comm h]
  case classDecl.classDecl | aliasDecl.aliasDecl | enumDecl.enumDecl | variableDecl.variableDecl =>
    simp only [Decl.name] at h
    simp only [declare, Table.insert_comm h]

/-- The order of declarations with different names is seen in the exports alone. -/
theorem bare_ofDecls_perm {ds ds' : List Decl} (hnames : (ds.map Decl.name).Nodup)
    (hperm : ds.Perm ds') : (ofDecls ds).bare = (ofDecls ds').bare := by
  rw [bare_ofDecls, bare_ofDecls]
  refine hperm.foldl_eq' (fun d hd d' hd' sc => ?_) _
  by_cases hname : d.name = d'.name
  · rw [List.inj_on_of_nodup_map hnames hd hd' hname]
  · exact declare_comm hname sc

/-- Every declaration is exported under its name, in the order of declaration. -/
theorem exports_ofDecls {ds : List Decl} (hnames : (ds.map Decl.name).Nodup) :
    (ofDecls ds).exports = ds.map fun d => ⟨d.name, d.name⟩ := by
  have hfold : ∀ (ds : List Decl) (sc : Scope),
      (sc.exports.map ExportName.outer ++ ds.map Decl.name).Nodup →
      (ds.foldl exporting sc).exports = sc.exports ++ ds.map fun d => ⟨d.name, d.name⟩ := by
    intro ds
    induction ds with
    | nil => exact fun sc _ => (List.append_nil _).symm
    | cons d ds ih =>
        intro sc hnodup
        have hsame : (sc.declare d).exports = sc.exports := by
          cases d <;> rfl
        have hnew : (sc.exporting d).exports = sc.exports ++ [⟨d.name, d.name⟩] := by
          rw [exporting, addExport, hsame, if_neg]
          intro hany
          obtain ⟨e, he, heq⟩ := List.any_eq_true.mp hany
          exact (List.nodup_append.mp hnodup).2.2 e.outer (List.mem_map_of_mem he) d.name
            List.mem_cons_self (beq_iff_eq.mp heq)
        rw [List.foldl_cons, ih, hnew, List.append_assoc]
        · rfl
        · rw [hnew, List.map_append, List.append_assoc]
          exact hnodup
  exact hfold ds .root hnames

/-- What only namespaces and modules add to a scope. -/
theorem ofDecls_plain (ds : List Decl) : (ofDecls ds).parent = none ∧
    (ofDecls ds).namespaces = [] ∧ (ofDecls ds).assignment = none ∧ (ofDecls ds).modules = [] := by
  have hbare : ∀ sc : Scope, sc.bare.parent = none ∧ sc.bare.namespaces = [] ∧
      sc.bare.assignment = none ∧ sc.bare.modules = [] → sc.parent = none ∧ sc.namespaces = [] ∧
      sc.assignment = none ∧ sc.modules = [] := fun _ h => h
  refine hbare _ ?_
  rw [bare_ofDecls]
  exact List.foldlRecOn (motive := fun sc : Scope => sc.parent = none ∧ sc.namespaces = [] ∧
    sc.assignment = none ∧ sc.modules = []) _ _ ⟨rfl, rfl, rfl, rfl⟩ fun sc hsc d _ => by
      cases d <;> exact hsc

/-- A class is found under its own name, and it is one of the declarations. -/
theorem mem_of_find?_classes {ds : List Decl} {n : String} {c : ClassDecl}
    (h : Table.find? (ofDecls ds).classes n = some c) : n = c.name ∧ .classDecl c ∈ ds := by
  have hall : ∀ p ∈ (ds.foldl declare .root).classes, p.1 = p.2.name ∧ .classDecl p.2 ∈ ds := by
    have hroot : ∀ p ∈ Scope.root.classes, p.1 = p.2.name ∧ .classDecl p.2 ∈ ds :=
      fun _ hp => absurd hp List.not_mem_nil
    refine List.foldlRecOn (motive := fun sc : Scope => ∀ p ∈ sc.classes,
      p.1 = p.2.name ∧ .classDecl p.2 ∈ ds) _ _ hroot fun sc hsc d hd => ?_
    cases d with
    | classDecl c =>
        intro p hp
        rcases Table.mem_insert hp with rfl | hp
        · exact ⟨rfl, hd⟩
        · exact hsc p hp
    | _ => exact hsc
  rw [← bare_ofDecls] at hall
  exact hall (n, c) (Table.mem_of_find? h)

end Scope

/-! ## The surface -/

theorem nameParts_of_undotted {n : String} (h : Undotted n) : nameParts n = [n] := by
  rw [nameParts, List.splitOn_eq_singleton h, List.map_singleton, String.ofList_toList]

/-- The items that a name of the outermost scope stands for. -/
def itemsNamed (sc : Scope) (n : String) : List SurfaceItem :=
  ((sc.valueNamed? 0 n).map fun v => itemOf v n (n ++ ".")).getD []

theorem surfaceName_same {n : String} (h : Undotted n) :
    ExportName.surfaceName ⟨n, n⟩ = n := by
  rw [ExportName.surfaceName, nameParts_of_undotted h]
  split <;> rfl

theorem foldlM_ok {ε α β : Type} {f : List β → α → Except ε (List β)} {g : α → List β}
    {l : List α} (h : ∀ a ∈ l, ∀ bs, f bs a = .ok (bs ++ g a)) :
    ∀ bs, l.foldlM f bs = .ok (bs ++ l.flatMap g) := by
  induction l with
  | nil => exact fun bs => congrArg Except.ok (List.append_nil bs).symm
  | cons a l ih =>
      intro bs
      obtain ⟨ha, hl⟩ := List.forall_mem_cons.mp h
      rw [List.foldlM_cons, ha, List.flatMap_cons, ← List.append_assoc]
      exact ih hl _

/-- The surface lists the items of the names in the order of their declaration. -/
theorem surface_ofDecls {ds : List Decl} (hnames : (ds.map Decl.name).Nodup)
    (hdots : ∀ d ∈ ds, Undotted d.name) : surface ⟨[.ofDecls ds]⟩ 2 =
      .ok (ds.flatMap fun d => itemsNamed (.ofDecls ds) d.name) := by
  obtain ⟨hparent, hnamespaces, hassignment, hmodules⟩ := Scope.ofDecls_plain ds
  have hvalue : ∀ n, Undotted n → (⟨[.ofDecls ds]⟩ : Scopes).valueNamed? 0 (nameParts n) =
      (Scope.ofDecls ds).valueNamed? 0 n := by
    intro n hn
    rw [nameParts_of_undotted hn]
    show Scopes.outward _ _ 0 = _
    rw [Scopes.outward]
    simp only [Scopes.get?, List.getElem?_cons_zero, hparent]
    split
    next a ha => exact ha.symm
    next ha => exact ha.symm
  have hscope : moduleSurface ⟨[.ofDecls ds]⟩ 2 0 =
      .ok (ds.flatMap fun d => itemsNamed (.ofDecls ds) d.name) := by
    unfold moduleSurface
    simp only [Scopes.get?, List.getElem?_cons_zero, Option.bind_some, hassignment]
    rw [scopeSurface]
    simp only [Scopes.get?, List.getElem?_cons_zero, Option.map_some, Option.getD_some,
      Scope.exports_ofDecls hnames]
    rw [List.foldlM_map]
    refine foldlM_ok (fun d hd items => ?_) []
    simp only [hvalue d.name (hdots d hd), surfaceName_same (hdots d hd), String.empty_append]
    cases hv : (Scope.ofDecls ds).valueNamed? 0 d.name with
    | none => simp [itemsNamed, hv, pure, Except.pure]
    | some v =>
        have hnamespace : v.ofNamespace = none := by
          rw [(Scope.valueNamed?_spec hv).2.2.2, hnamespaces]
          rfl
        simp [itemsNamed, hv, hnamespace, pure, Except.pure, bind, Except.bind]
  rw [surface]
  simp only [Scopes.get?, List.getElem?_cons_zero, Option.map_some, Option.getD_some, hmodules,
    List.mapM_cons, List.mapM_nil, hscope]
  show Except.ok (List.flatten [_]) = _
  rw [List.flatten_singleton]

section Flatness

variable {ds : List Decl}

/-- The items of exported declarations. -/
def itemsOf (ds : List Decl) : List SurfaceItem :=
  ds.flatMap fun d => itemsNamed (.ofDecls ds) d.name

/-- The world of exported declarations. -/
def worldOfDecls (ds : List Decl) : World :=
  worldOf (exportedAll ds) (itemsOf ds)

/-- What an item is that a name stands for. -/
theorem mem_itemsNamed {sc : Scope} {n : String} {item : SurfaceItem} (h : item ∈ itemsNamed sc n) :
    itemsNamed sc n = [item] ∧ item.name = n ∧
      (∀ scope type name memberPrefix, item = .ofVariable scope type name memberPrefix →
        memberPrefix = name ++ ".") ∧
      ∀ scope decl name, item = .ofClass scope decl name →
        scope = 0 ∧ Table.find? sc.classes n = some decl := by
  unfold itemsNamed at h ⊢
  cases hv : sc.valueNamed? 0 n with
  | none =>
      rw [hv] at h
      cases h
  | some v =>
      obtain ⟨hscope, hclass, -⟩ := Scope.valueNamed?_spec hv
      rw [hv] at h
      simp only [Option.map_some, Option.getD_some] at h ⊢
      unfold itemOf at h ⊢
      split at h
      next c hc =>
        obtain rfl := List.mem_singleton.mp h
        refine ⟨rfl, rfl, nofun, ?_⟩
        rintro _ _ _ ⟨rfl⟩
        exact ⟨hscope, hclass.symm.trans hc⟩
      · split at h
        next hfunctions =>
          obtain rfl := List.mem_singleton.mp h
          exact ⟨if_pos hfunctions, rfl, nofun, nofun⟩
        next hfunctions =>
          split at h
          · obtain rfl := List.mem_singleton.mp h
            refine ⟨if_neg hfunctions, rfl, ?_, nofun⟩
            rintro _ _ _ _ ⟨rfl⟩
            rfl
          · cases h

theorem exists_of_mem_itemsOf {item : SurfaceItem} (h : item ∈ itemsOf ds) :
    ∃ d ∈ ds, item ∈ itemsNamed (.ofDecls ds) d.name :=
  List.mem_flatMap.mp h

/-- A class of the scope is an item. -/
theorem mem_itemsOf_of_find?_classes {n : String} {c : ClassDecl}
    (h : Table.find? (Scope.ofDecls ds).classes n = some c) : .ofClass 0 c c.name ∈ itemsOf ds := by
  obtain ⟨rfl, hc⟩ := Scope.mem_of_find?_classes h
  refine List.mem_flatMap.mpr ⟨_, hc, ?_⟩
  have hvalue : (Scope.ofDecls ds).valueNamed? 0 c.name ≠ none := by
    simp [Scope.valueNamed?, ValueSymbol.isEmpty, h]
  obtain ⟨v, hv⟩ := Option.ne_none_iff_exists'.mp hvalue
  obtain ⟨hscope, hclass, -⟩ := Scope.valueNamed?_spec hv
  show _ ∈ itemsNamed _ c.name
  simp [itemsNamed, hv, itemOf, hclass, h, hscope]

theorem names_itemsOf_sublist : ((itemsOf ds).map SurfaceItem.name).Sublist (ds.map Decl.name) := by
  have hall : ∀ (sc : Scope) (ds : List Decl),
      ((ds.flatMap fun d => itemsNamed sc d.name).map SurfaceItem.name).Sublist
        (ds.map Decl.name) := by
    intro sc ds
    induction ds with
    | nil => exact .slnil
    | cons d ds ih =>
        rw [List.flatMap_cons, List.map_append, List.map_cons]
        show List.Sublist _ ([d.name] ++ ds.map Decl.name)
        refine List.Sublist.append ?_ ih
        cases hitems : itemsNamed sc d.name with
        | nil => exact List.nil_sublist _
        | cons item items =>
            obtain ⟨hone, hname, -⟩ := mem_itemsNamed (hitems ▸ List.mem_cons_self)
            rw [hitems] at hone
            rw [hone, List.map_singleton, hname]
  exact hall _ ds

theorem decl_of_mem_itemsOf {scope : Nat} {decl : ClassDecl} {name : String}
    (h : .ofClass scope decl name ∈ itemsOf ds) : name = decl.name := by
  obtain ⟨d, -, hitem⟩ := exists_of_mem_itemsOf h
  obtain ⟨-, hname, -, hclass⟩ := mem_itemsNamed hitem
  exact hname.trans (Scope.mem_of_find?_classes (hclass _ _ _ rfl).2).1

/-- Every class has its own name. -/
theorem className_worldOfDecls (c : ClassRef) : (worldOfDecls ds).className c = c.decl.name := by
  rcases className_spec (exportedAll ds) (itemsOf ds) c with ⟨-, hname⟩ | ⟨decl, hmem, hname⟩
  · exact hname
  · exact (decl_of_mem_itemsOf hmem).trans hname

variable (hscopes : ∀ d ∈ ds, d.opensScope = false) (hnames : (ds.map Decl.name).Nodup)
  (hdots : ∀ d ∈ ds, Undotted d.name)

include hscopes hnames hdots

/-- Exported declarations have the surface of their items. -/
theorem isSurface_itemsOf : IsSurface (exportedAll ds) (itemsOf ds) := by
  rw [IsSurface, Scopes.ofStatements_exportedAll hscopes]
  exact surface_ofDecls hnames hdots

theorem flat_worldOfDecls
    (hacyclic : ∀ c, ¬ TransGen (Scopes.ofStatements (exportedAll ds)).Extends c c) :
    Flat (worldOfDecls ds) (itemsOf ds) where
  undotted := by
    intro item hitem
    obtain ⟨d, hd, hitem⟩ := exists_of_mem_itemsOf hitem
    exact (mem_itemsNamed hitem).2.1 ▸ hdots d hd
  nodup := hnames.sublist names_itemsOf_sublist
  members := by
    intro scope type name memberPrefix hitem
    obtain ⟨d, -, hitem⟩ := exists_of_mem_itemsOf hitem
    exact (mem_itemsNamed hitem).2.2.1 _ _ _ _ rfl
  declared := itemsDeclared_surface (isSurface_itemsOf hscopes hnames hdots)
  named := by
    intro scope decl name hitem
    rw [className_worldOfDecls]
    exact (decl_of_mem_itemsOf hitem).symm
  complete := by
    rintro ⟨scope, decl⟩ ⟨sc, n, hsc, hc⟩
    rw [worldOfDecls, worldOf, Scopes.ofStatements_exportedAll hscopes] at hsc
    rw [className_worldOfDecls]
    cases scope with
    | zero =>
        cases hsc
        exact mem_itemsOf_of_find?_classes hc
    | succ => cases hsc
  acyclic := hacyclic

end Flatness

end ApiSurface.Declaration
