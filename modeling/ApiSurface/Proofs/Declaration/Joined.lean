/-
# `ApiSurface.Proofs.Declaration.Joined` — interfaces in one declaration

What the declarations of an interface say can be put together in a single one (`joinDecls`).  The
scopes of a text with all interfaces joined are looked up in as before, but for the declarations
that an interface has, and these say the same.  So texts with the same joined scopes have worlds
that agree (`agree_of_joined`), and as no interface is on the surface they also have the same one
(`surface_joined`).

What is declared next is joined to the same, whether the declarations before it have been joined or
not; so statements keep scopes the same that have the same joins (`joined_addStatements`).

How deep a conversion may go is computed from the number of places in the scopes.  Joining changes
the order of the places of an interface, all members coming before all clauses, but not their
number.

**Main result** (`deriveStatements_eq_of_joined`): statements with the same joined scopes have the
same schema.
-/
import ApiSurface.Proofs.Declaration.Agreeing
import ApiSurface.Proofs.Declaration.Enclosing
import ApiSurface.Proofs.Declaration.Mapped
import ApiSurface.Proofs.Lookup

namespace ApiSurface.Declaration

/-! ## Declarations put together -/

/-- All that the declarations of an interface say, in a single one. -/
def joinDecls : List InterfaceDecl → List InterfaceDecl
  | [] => []
  | d :: ds =>
    [{ d with
      parents := (d :: ds).flatMap InterfaceDecl.parents
      members := (d :: ds).flatMap InterfaceDecl.members }]

theorem sameContents_joinDecls (ds : List InterfaceDecl) : SameContents (joinDecls ds) ds := by
  cases ds with
  | nil => exact .refl []
  | cons d ds => exact ⟨rfl, List.append_nil _, List.append_nil _⟩

theorem SameContents.joinDecls_eq {ds ds' : List InterfaceDecl} (h : SameContents ds ds') :
    joinDecls ds = joinDecls ds' := by
  have hhead := h.head
  cases ds with
  | nil =>
      cases ds' with
      | nil => rfl
      | cons d' ds' => cases hhead
  | cons d ds =>
      cases ds' with
      | nil => cases hhead
      | cons d' ds' =>
          obtain ⟨hname, hparams⟩ := Prod.mk.inj (Option.some.inj hhead)
          rw [joinDecls, joinDecls, h.parents, h.members, hname, hparams]

theorem SameContents.trans {ds ds' ds'' : List InterfaceDecl} (h : SameContents ds ds')
    (h' : SameContents ds' ds'') : SameContents ds ds'' :=
  ⟨h.head.trans h'.head, h.parents.trans h'.parents, h.members.trans h'.members⟩

theorem SameContents.symm {ds ds' : List InterfaceDecl} (h : SameContents ds ds') :
    SameContents ds' ds :=
  ⟨h.head.symm, h.parents.symm, h.members.symm⟩

theorem joinDecls_eq_iff {ds ds' : List InterfaceDecl} :
    joinDecls ds = joinDecls ds' ↔ SameContents ds ds' :=
  ⟨fun h => (sameContents_joinDecls ds).symm.trans (h ▸ sameContents_joinDecls ds'),
    SameContents.joinDecls_eq⟩

theorem SameContents.append {ds ds' es es' : List InterfaceDecl} (h : SameContents ds ds')
    (h' : SameContents es es') : SameContents (ds ++ es) (ds' ++ es') where
  head := by
    simp only [List.head?_append, Option.map_or, h.head, h'.head]
  parents := by rw [List.flatMap_append, List.flatMap_append, h.parents, h'.parents]
  members := by rw [List.flatMap_append, List.flatMap_append, h.members, h'.members]

/-! ## Scopes with joined interfaces -/

/-- Each interface of the scope in a single declaration. -/
def Scope.joined (sc : Scope) : Scope :=
  { sc with interfaces := sc.interfaces.map fun p => (p.1, joinDecls p.2) }

/-- An interface in a single declaration. -/
def TypeSymbol.joined : TypeSymbol → TypeSymbol
  | .ofInterface scope ds => .ofInterface scope (joinDecls ds)
  | .ofClass scope decl => .ofClass scope decl
  | .ofAlias scope decl => .ofAlias scope decl
  | .ofEnum decl => .ofEnum decl
  | .enumMember value => .enumMember value

theorem Scope.keepsWays_joined : Scope.KeepsWays Scope.joined :=
  ⟨fun _ => rfl, fun _ => rfl⟩

theorem TypeSymbol.keepsEnums_joined : TypeSymbol.KeepsEnums TypeSymbol.joined := by
  refine ⟨fun t e => ?_, fun _ => rfl⟩
  cases t <;> simp [TypeSymbol.joined]

theorem Scope.typeNamed?_joined (id : Nat) (sc : Scope) (n : String) :
    sc.joined.typeNamed? id n = (sc.typeNamed? id n).map TypeSymbol.joined := by
  have hfind : Table.find? sc.joined.interfaces n =
      (Table.find? sc.interfaces n).map joinDecls :=
    Table.find?_map sc.interfaces joinDecls n
  have hclasses : sc.joined.classes = sc.classes := rfl
  have haliases : sc.joined.aliases = sc.aliases := rfl
  have henums : sc.joined.enums = sc.enums := rfl
  simp only [Scope.typeNamed?, hfind, hclasses, haliases, henums]
  cases Table.find? sc.classes n with
  | some c => rfl
  | none =>
      cases Table.find? sc.interfaces n with
      | some ds => rfl
      | none =>
          cases Table.find? sc.aliases n with
          | some a => rfl
          | none => cases Table.find? sc.enums n <;> rfl

theorem sameSymbol_of_joined {t t' : Option TypeSymbol}
    (h : t.map TypeSymbol.joined = t'.map TypeSymbol.joined) : SameSymbol t t' := by
  cases t with
  | none =>
      rw [Option.map_eq_none_iff.mp h.symm]
      exact .refl none
  | some t =>
      obtain ⟨t', rfl, hjoined⟩ := Option.map_eq_some_iff.mp h.symm
      cases t with
      | ofInterface scope ds =>
          cases t' with
          | ofInterface scope' ds' =>
              obtain ⟨rfl, hds⟩ := TypeSymbol.ofInterface.inj hjoined
              exact .interface scope' (joinDecls_eq_iff.mp hds.symm)
          | ofClass | ofAlias | ofEnum | enumMember => cases hjoined
      | ofClass | ofAlias | ofEnum | enumMember =>
          cases t' <;> cases hjoined
          exact .refl _

namespace Scopes

/-- The scopes with each interface in a single declaration. -/
def joined (s : Scopes) : Scopes :=
  s.map Scope.joined

theorem typeNamed?_joined (s : Scopes) (start : Nat) (path : List String) :
    s.joined.typeNamed? start path = (s.typeNamed? start path).map TypeSymbol.joined :=
  s.typeNamed?_map Scope.keepsWays_joined TypeSymbol.keepsEnums_joined Scope.typeNamed?_joined
    start path

theorem valueNamed?_joined (s : Scopes) : s.joined.valueNamed? = s.valueNamed? := by
  funext start path
  exact s.valueNamed?_map Scope.keepsWays_joined (fun _ _ _ => rfl) start path

end Scopes

/-! ## Declared after joining -/

namespace Scope

/-- What an interface has after one more declaration, joined. -/
theorem joined_appended (t : List (String × List InterfaceDecl)) (name : String)
    (i : InterfaceDecl) : (appended t name i).map (fun p => (p.1, joinDecls p.2)) =
      Table.insert (t.map fun p => (p.1, joinDecls p.2)) name
        (joinDecls ((Table.find? t name).getD [] ++ [i])) :=
  Table.map_insert t joinDecls name _

theorem joined_joined (sc : Scope) : sc.joined.joined = sc.joined := by
  simp only [joined, List.map_map, Function.comp_def, (sameContents_joinDecls _).joinDecls_eq]

/-- What is declared next says as much after joining as before. -/
theorem joined_declare (sc : Scope) (d : Decl) :
    (sc.declare d).joined = (sc.joined.declare d).joined := by
  cases d with
  | interfaceDecl i =>
      have hds : SameContents ((Table.find? sc.interfaces i.name).getD [])
          ((Table.find? sc.joined.interfaces i.name).getD []) := by
        rw [joined, Table.find?_map]
        cases Table.find? sc.interfaces i.name with
        | none => exact .refl []
        | some ds => exact (sameContents_joinDecls ds).symm
      have hagain : sc.joined.interfaces.map (fun p => (p.1, joinDecls p.2)) =
          sc.interfaces.map fun p => (p.1, joinDecls p.2) :=
        congrArg Scope.interfaces sc.joined_joined
      have hinterfaces : (appended sc.interfaces i.name i).map (fun p => (p.1, joinDecls p.2)) =
          (appended sc.joined.interfaces i.name i).map fun p => (p.1, joinDecls p.2) := by
        rw [joined_appended, joined_appended, (hds.append (.refl [i])).joinDecls_eq, hagain]
      exact congrArg (fun is => { sc with interfaces := is }) hinterfaces
  -- Nothing else looks at the interfaces.
  | functionDecl | classDecl | aliasDecl | enumDecl | variableDecl | namespaceDecl | moduleDecl =>
      exact (joined_joined (sc.declare _)).symm

end Scope

namespace Scopes

variable {s s' : Scopes}

theorem joined_eq_iff : s.joined = s'.joined ↔
    ∀ i, (s.get? i).map Scope.joined = (s'.get? i).map Scope.joined := by
  refine ⟨fun h i => ?_, fun h => ext_get? fun i => ?_⟩
  · rw [← get?_map, ← get?_map]
    exact congrArg (Scopes.get? · i) h
  · rw [joined, joined, get?_map, get?_map, h i]

/-- What a change does can be told from the joined scope. -/
def RespectsJoin (f : Scope → Scope) : Prop :=
  ∀ sc, (f sc).joined = (f sc.joined).joined

theorem RespectsJoin.of_commutes {f : Scope → Scope} (hf : ∀ sc, (f sc).joined = f sc.joined) :
    RespectsJoin f := by
  intro sc
  rw [← hf, Scope.joined_joined]

theorem respectsJoin_declare (d : Decl) : RespectsJoin (·.declare d) :=
  fun sc => sc.joined_declare d

theorem respectsJoin_addExport (e : ExportName) : RespectsJoin (·.addExport e) := by
  refine .of_commutes fun sc => ?_
  cases hany : sc.exports.any fun x => x.outer == e.outer <;>
    simp [Scope.addExport, Scope.joined, hany]

/-- Scopes with the same joins are changed to scopes with the same joins. -/
theorem joined_modify (h : s.joined = s'.joined) (id : Nat) {f : Scope → Scope}
    (hf : RespectsJoin f) : (s.modify id f).joined = (s'.modify id f).joined := by
  rw [joined_eq_iff] at h ⊢
  intro i
  have hi := h i
  rw [get?_modify, get?_modify]
  cases hs : s.get? i with
  | none =>
      rw [hs] at hi
      rw [Option.map_eq_none_iff.mp hi.symm]
  | some sc =>
      rw [hs] at hi
      obtain ⟨sc', hs', hsc⟩ := Option.map_eq_some_iff.mp hi.symm
      rw [hs', Option.map_some, Option.map_some, Option.map_some, Option.map_some]
      split
      · rw [hf sc, ← hsc, ← hf sc']
      · rw [hsc]

/-- Changes with the same joins. -/
theorem joined_modify_congr (s : Scopes) (id : Nat) {f g : Scope → Scope}
    (hfg : ∀ sc, (f sc).joined = (g sc).joined) :
    (s.modify id f).joined = (s.modify id g).joined := by
  refine joined_eq_iff.mpr fun i => ?_
  rw [get?_modify, get?_modify, Option.map_map, Option.map_map]
  refine congrArg (Option.map · (s.get? i)) (funext fun sc => ?_)
  simp only [Function.comp_apply]
  split
  · exact hfg sc
  · rfl

section

variable (h : s.joined = s'.joined) (id : Nat)

include h

theorem joined_addChild : (s.addChild id).1 = (s'.addChild id).1 ∧
    (s.addChild id).2.joined = (s'.addChild id).2.joined := by
  have hall : s.all.map Scope.joined = s'.all.map Scope.joined := congrArg Scopes.all h
  refine ⟨?_, congrArg Scopes.mk ?_⟩
  · simpa [addChild] using congrArg List.length hall
  · simp only [addChild, List.map_append, hall]

theorem joined_namespaceIn (name : String) :
    (s.namespaceIn id name).1 = (s'.namespaceIn id name).1 ∧
      (s.namespaceIn id name).2.joined = (s'.namespaceIn id name).2.joined := by
  have hfind : ((s.get? id).bind fun sc => Table.find? sc.namespaces name) =
      (s'.get? id).bind fun sc => Table.find? sc.namespaces name := by
    rw [← s.find?_namespaces_map Scope.keepsWays_joined,
      ← s'.find?_namespaces_map Scope.keepsWays_joined]
    exact congrArg (fun s : Scopes => (s.get? id).bind fun sc => Table.find? sc.namespaces name) h
  obtain ⟨hnew, hchild⟩ := joined_addChild h id
  unfold namespaceIn
  rw [hfind]
  split
  · exact ⟨rfl, h⟩
  · simp only [hnew]
    exact ⟨trivial, joined_modify hchild id (.of_commutes fun _ => rfl)⟩

theorem joined_moduleIn : (s.moduleIn id).1 = (s'.moduleIn id).1 ∧
    (s.moduleIn id).2.joined = (s'.moduleIn id).2.joined := by
  obtain ⟨hnew, hchild⟩ := joined_addChild h id
  simp only [moduleIn, hnew]
  exact ⟨trivial, joined_modify hchild id (.of_commutes fun _ => rfl)⟩

theorem joined_addExports (names : List ExportName) :
    (s.addExports id names).joined = (s'.addExports id names).joined := by
  induction names generalizing s s' with
  | nil => exact h
  | cons n names ih => exact ih (joined_modify h id (respectsJoin_addExport _))

end

mutual

/-- Statements make as much of scopes with the same joins. -/
theorem joined_addStatements : ∀ (id : Nat) (all : Bool) (ss : List Statement) {s s' : Scopes},
    s.joined = s'.joined →
      (addStatements id all ss s).joined = (addStatements id all ss s').joined
  | id, all, [], s, s', h => by rwa [addStatements, addStatements]
  | id, all, st :: ss, s, s', h => by
      rw [addStatements, addStatements]
      exact joined_addStatements id all ss (joined_addStatement id all st h)

theorem joined_addStatement : ∀ (id : Nat) (all : Bool) (st : Statement) {s s' : Scopes},
    s.joined = s'.joined → (addStatement id all st s).joined = (addStatement id all st s').joined
  | id, all, .decl d exported, s, s', h => by
      have hd := joined_addDecl id d h
      rw [addStatement, addStatement]
      split
      · exact joined_modify hd id (respectsJoin_addExport _)
      · exact hd
  | id, all, .exportAssignment name, s, s', h => by
      rw [addStatement, addStatement]
      exact joined_modify h id (.of_commutes fun _ => rfl)
  | id, all, .exportList names none, s, s', h => by
      rw [addStatement, addStatement]
      exact joined_addExports h id names
  | id, all, .exportList _ (some _), s, s', h => by rwa [addStatement, addStatement]
  | id, all, .other, s, s', h => by rwa [addStatement, addStatement]

theorem joined_addDecl : ∀ (id : Nat) (d : Decl) {s s' : Scopes}, s.joined = s'.joined →
    (addDecl id d s).joined = (addDecl id d s').joined
  | id, .namespaceDecl name body, s, s', h => by
      obtain ⟨hns, hjoined⟩ := joined_namespaceIn h id name
      rw [addDecl_namespace, addDecl_namespace, hns]
      exact joined_addStatements _ _ body hjoined
  | id, .moduleDecl path body, s, s', h => by
      obtain ⟨hm, hjoined⟩ := joined_moduleIn h id
      rw [addDecl_module, addDecl_module, hm]
      exact joined_addStatements _ _ body hjoined
  | id, .functionDecl _ _, s, s', h | id, .classDecl _, s, s', h
  | id, .interfaceDecl _, s, s', h | id, .aliasDecl _, s, s', h
  | id, .enumDecl _, s, s', h | id, .variableDecl _ _, s, s', h => by
      rw [addDecl, addDecl]
      exact joined_modify h id (respectsJoin_declare _)

end

end Scopes

/-! ## Places -/

theorem partsOfAll_append (tys tys' : List TypeExpr) :
    partsOfAll (tys ++ tys') = partsOfAll tys ++ partsOfAll tys' := by
  induction tys with
  | nil => rfl
  | cons ty tys ih => rw [List.cons_append, partsOfAll, partsOfAll, ih, List.append_assoc]

/-- The places of an interface are counted by its members and its clauses. -/
theorem length_interfacePlaces (scope : Nat) (ds : List InterfaceDecl) :
    (interfacePlaces scope ds).length = (boundPlaces scope (interfaceParams ds)).length +
      ((partsOfAll ((ds.flatMap InterfaceDecl.members).filterMap Member.propertyType?)).length +
        (partsOfAll ((ds.flatMap InterfaceDecl.parents).flatMap TypeExpr.arguments)).length) := by
  have hparts : (partsOfAll (ds.flatMap fun d => d.members.filterMap Member.propertyType? ++
      d.parents.flatMap TypeExpr.arguments)).length =
      (partsOfAll ((ds.flatMap InterfaceDecl.members).filterMap Member.propertyType?)).length +
        (partsOfAll ((ds.flatMap InterfaceDecl.parents).flatMap TypeExpr.arguments)).length := by
    induction ds with
    | nil => rfl
    | cons d ds ih =>
        simp only [List.flatMap_cons, List.filterMap_append, List.flatMap_append,
          partsOfAll_append, List.length_append, ih]
        omega
  rw [interfacePlaces, List.length_append, placesOf, List.length_map, hparts]

theorem SameContents.length_interfacePlaces {ds ds' : List InterfaceDecl} (h : SameContents ds ds')
    (scope : Nat) : (interfacePlaces scope ds).length = (interfacePlaces scope ds').length := by
  rw [Declaration.length_interfacePlaces, Declaration.length_interfacePlaces, h.interfaceParams,
    h.members, h.parents]

theorem Scope.length_places_joined (sc : Scope) (id : Nat) :
    (sc.joined.places id).length = (sc.places id).length := by
  have hinterfaces : (sc.joined.interfaces.flatMap fun p => interfacePlaces id p.2).length =
      (sc.interfaces.flatMap fun p => interfacePlaces id p.2).length := by
    rw [joined, List.flatMap_map, List.length_flatMap, List.length_flatMap]
    exact congrArg List.sum (List.map_congr_left fun p _ =>
      (sameContents_joinDecls p.2).length_interfacePlaces id)
  simp only [Scope.places, List.length_append, hinterfaces]
  rfl

theorem Scope.length_expandable_joined (sc : Scope) (id : Nat) :
    (sc.joined.expandable id).length = (sc.expandable id).length := by
  simp only [Scope.expandable, joined, List.length_append, List.length_map]

/-! ## Worlds with the same joined scopes -/

section

variable {w w' : World} (h : w.scopes.joined = w'.scopes.joined)

include h

theorem count_eq_of_joined {f : Scope → Nat} (hf : ∀ sc, f sc.joined = f sc) :
    w.scopes.count f = w'.scopes.count f := by
  rw [← w.scopes.count_map hf, ← w'.scopes.count_map hf]
  exact congrArg (Scopes.count · f) h

theorem length_collect_of_joined {α : Type} {f : Scope → Nat → List α}
    (hf : ∀ sc id, (f sc.joined id).length = (f sc id).length) :
    (w.scopes.all.zipIdx.flatMap fun p => f p.1 p.2).length =
      (w'.scopes.all.zipIdx.flatMap fun p => f p.1 p.2).length := by
  rw [← w.scopes.length_collect_map hf, ← w'.scopes.length_collect_map hf]
  exact congrArg (fun s : Scopes => (s.all.zipIdx.flatMap fun p => f p.1 p.2).length) h

/-- Where interfaces say the same, conversions are the same. -/
theorem agree_of_joined (hnames : w.className = w'.className) : w.Agree w' where
  typeNamed? := by
    intro start path
    refine sameSymbol_of_joined ?_
    rw [← w.scopes.typeNamed?_joined, ← w'.scopes.typeNamed?_joined, h]
  valueNamed? := by
    rw [← w.scopes.valueNamed?_joined, ← w'.scopes.valueNamed?_joined, h]
  className := hnames
  interfaceCount := count_eq_of_joined h fun _ => List.length_map _
  aliasCount := count_eq_of_joined h fun _ => rfl
  classCount := count_eq_of_joined h fun _ => rfl
  depthFor := by
    have hexpandable : w.scopes.expandable.length = w'.scopes.expandable.length :=
      length_collect_of_joined h (f := fun sc id => sc.expandable id) Scope.length_expandable_joined
    have hplaces : w.scopes.places.length = w'.scopes.places.length :=
      length_collect_of_joined h (f := fun sc id => sc.places id) Scope.length_places_joined
    funext ty
    rw [World.depthFor, World.depthFor, hexpandable, hplaces]

end

/-! ## The surface -/

theorem surface_joined (s : Scopes) : surface s.joined = surface s := by
  have hscope : ∀ fuel, scopeSurface s.joined fuel = scopeSurface s fuel := by
    intro fuel
    induction fuel with
    | zero => rfl
    | succ fuel ih =>
        funext id start
        have hexports : (s.joined.get? id).map Scope.exports = (s.get? id).map Scope.exports := by
          rw [Scopes.joined, Scopes.get?_map, Option.map_map]
          rfl
        simp only [scopeSurface, ih, s.valueNamed?_joined, hexports]
  have hmodule : ∀ fuel, moduleSurface s.joined fuel = moduleSurface s fuel := by
    intro fuel
    funext id
    have hassignment : (s.joined.get? id).bind Scope.assignment =
        (s.get? id).bind Scope.assignment := by
      rw [Scopes.joined, Scopes.get?_map, Option.bind_map]
      rfl
    simp only [moduleSurface, assignedSurface, hscope, s.valueNamed?_joined, hassignment]
  have hmodules : (s.joined.get? 0).map Scope.modules = (s.get? 0).map Scope.modules := by
    rw [Scopes.joined, Scopes.get?_map, Option.map_map]
    rfl
  funext fuel
  simp only [surface, hmodule, hmodules]

/-- **Statements whose interfaces say the same have the same schema.** -/
theorem deriveStatements_eq_of_joined {ss ss' : List Statement}
    (h : (Scopes.ofStatements ss).joined = (Scopes.ofStatements ss').joined) :
    deriveStatements ss = deriveStatements ss' := by
  have hlength : (Scopes.ofStatements ss).all.length = (Scopes.ofStatements ss').all.length := by
    have hjoined := congrArg (fun s : Scopes => s.all.length) h
    simpa [Scopes.joined, Scopes.map] using hjoined
  have hsurface : surface (Scopes.ofStatements ss) = surface (Scopes.ofStatements ss') := by
    rw [← surface_joined, h, surface_joined]
  have hagree : ∀ items, World.Agree ⟨Scopes.ofStatements ss, classNames items⟩
      ⟨Scopes.ofStatements ss', classNames items⟩ := fun items => agree_of_joined h rfl
  unfold deriveStatements
  simp only [hsurface, hlength, (hagree _).convertFully, (hagree _).emitAll]

end ApiSurface.Declaration
