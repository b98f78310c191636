/-
# `ApiSurface.Proofs.Declaration.Places` — where conversions lead

A conversion leads to the parts of its type, and from names to what the scopes declare for them.  A
set of places that is closed under both (`Closed`) is never left.  For a type at one place the parts
of the type and the places that the scopes declare are such a set, and there are only so many of
them (`closed_placesFrom`).
-/
import ApiSurface.Declaration.Derivation
import ApiSurface.Proofs.Declaration.Asks

namespace ApiSurface.Declaration

/-- The set has the parts of its types. -/
def PartClosed (V : Place → Prop) : Prop :=
  ∀ (o : Outline) ty, V (o.at ty) → ∀ ty' ∈ ty.parts, V (o.at ty')

/-- The set has the parts of its types and all places that the scopes declare. -/
structure Closed (w : World) (V : Place → Prop) : Prop where
  part : PartClosed V
  declared : ∀ p ∈ w.scopes.places, V p

theorem closed_true {w : World} : Closed w fun _ => True :=
  ⟨fun _ _ _ _ _ => trivial, fun _ _ => trivial⟩

/-! ## Parts -/

theorem mem_partsOfAll {tys : List TypeExpr} {ty ty' : TypeExpr} (h : ty ∈ tys)
    (h' : ty' ∈ ty.parts) : ty' ∈ partsOfAll tys := by
  induction tys with
  | nil => cases h
  | cons t tys ih =>
      rw [partsOfAll]
      rcases List.mem_cons.mp h with rfl | h
      · exact List.mem_append_left _ h'
      · exact List.mem_append_right _ (ih h)

theorem self_mem_parts (ty : TypeExpr) : ty ∈ ty.parts := by
  cases ty <;> exact List.mem_cons_self

/-- The parts of a type other than itself. -/
def TypeExpr.inside (ty : TypeExpr) : List TypeExpr :=
  ty.parts.tail

theorem parts_eq (ty : TypeExpr) : ty.parts = ty :: ty.inside := by
  cases ty <;> rfl

theorem sublist_of_mem_parts {ty ty' : TypeExpr}
    (hinside : ∀ t ∈ ty.inside, t.parts.Sublist ty.inside) (h : ty' ∈ ty.parts) :
    ty'.parts.Sublist ty.parts := by
  rw [parts_eq] at h
  rcases List.mem_cons.mp h with rfl | h
  · exact .refl _
  · exact (hinside ty' h).trans (List.tail_sublist _)

mutual

theorem sublist_inside : ∀ (ty : TypeExpr), ∀ t ∈ ty.inside, t.parts.Sublist ty.inside
  | .ref _ args => sublist_partsOfAll args
  | .array item => fun _ => sublist_of_mem_parts (sublist_inside item)
  | .tuple items => sublist_partsOfItems items
  | .union members => sublist_partsOfAll members
  | .intersection members => sublist_partsOfAll members
  | .object members => sublist_partsOfMembers members
  | .keyword _ | .textLiteral _ | .numberLiteral _ | .boolLiteral _ | .template | .function _
  | .query _ | .keyof _ | .predicate | .computed => List.forall_mem_nil _

theorem sublist_partsOfAll : ∀ (tys : List TypeExpr), ∀ t ∈ partsOfAll tys,
    t.parts.Sublist (partsOfAll tys)
  | [] => List.forall_mem_nil _
  | ty :: tys => List.forall_mem_append.mpr
      ⟨fun _ h => (sublist_of_mem_parts (sublist_inside ty) h).trans (List.sublist_append_left ..),
        fun t h => (sublist_partsOfAll tys t h).trans (List.sublist_append_right ..)⟩

theorem sublist_partsOfItems : ∀ (items : List TupleItem), ∀ t ∈ partsOfItems items,
    t.parts.Sublist (partsOfItems items)
  | [] => List.forall_mem_nil _
  | .mk ty _ _ :: items => List.forall_mem_append.mpr
      ⟨fun _ h => (sublist_of_mem_parts (sublist_inside ty) h).trans (List.sublist_append_left ..),
        fun t h => (sublist_partsOfItems items t h).trans (List.sublist_append_right ..)⟩

theorem sublist_partsOfMembers : ∀ (members : List Member), ∀ t ∈ partsOfMembers members,
    t.parts.Sublist (partsOfMembers members)
  | [] => List.forall_mem_nil _
  | .property _ _ (some ty) _ :: members => List.forall_mem_append.mpr
      ⟨fun _ h => (sublist_of_mem_parts (sublist_inside ty) h).trans (List.sublist_append_left ..),
        fun t h => (sublist_partsOfMembers members t h).trans (List.sublist_append_right ..)⟩
  | .property _ _ none _ :: members | .method .. :: members | .constructor _ :: members
  | .call _ :: members | .index .. :: members => sublist_partsOfMembers members

end

/-- What is inside of a type has fewer parts. -/
theorem length_parts_lt {ty ty' : TypeExpr} (h : ty' ∈ ty.inside) :
    ty'.parts.length < ty.parts.length := by
  have hle := (sublist_inside ty ty' h).length_le
  rw [parts_eq ty, List.length_cons]
  omega

theorem mem_partsOfItems {items : List TupleItem} {ty : TypeExpr} {optional rest : Bool}
    (h : TupleItem.mk ty optional rest ∈ items) : ty ∈ partsOfItems items := by
  induction items with
  | nil => cases h
  | cons item items ih =>
      rcases List.mem_cons.mp h with rfl | hrest
      · exact List.mem_append_left _ (self_mem_parts ty)
      · obtain ⟨t, _, _⟩ := item
        exact List.mem_append_right _ (ih hrest)

theorem mem_partsOfMembers {members : List Member} {m : Member} (h : m ∈ members) {ty : TypeExpr}
    (hty : m.propertyType? = some ty) : ty ∈ partsOfMembers members := by
  induction members with
  | nil => cases h
  | cons m' members ih =>
      rcases List.mem_cons.mp h with rfl | hrest
      · cases m with
        | property name optional type modifiers =>
            cases hty
            exact List.mem_append_left _ (self_mem_parts ty)
        | method | constructor | call | index => cases hty
      · cases m' with
        | property name optional type modifiers =>
            cases type with
            | none => exact ih hrest
            | some t => exact List.mem_append_right _ (ih hrest)
        | method | constructor | call | index => exact ih hrest

theorem mem_placesOf {scope : Nat} {bound : List String} {types : List TypeExpr} {ty : TypeExpr}
    (h : ty ∈ types) : ⟨scope, bound, ty⟩ ∈ placesOf scope bound types :=
  List.mem_map_of_mem (mem_partsOfAll h (self_mem_parts ty))

/-! ## What names lead to -/

theorem mem_collect {α : Type} {s : Scopes} {id : Nat} {sc : Scope} (hsc : s.get? id = some sc)
    {f : Scope → Nat → List α} {a : α} (h : a ∈ f sc id) :
    a ∈ s.all.zipIdx.flatMap fun p => f p.1 p.2 :=
  List.mem_flatMap.mpr ⟨(sc, id), List.mem_zipIdx_iff_getElem?.mpr hsc, h⟩

/-- As many things as there are declarations, if there is one for each. -/
theorem length_collect {α : Type} {s : Scopes} {f : Scope → Nat → List α} {declared : Scope → Nat}
    (h : ∀ sc id, (f sc id).length = declared sc) :
    (s.all.zipIdx.flatMap fun p => f p.1 p.2).length = s.count declared := by
  have hfrom : ∀ (l : List Scope) (k : Nat), ((l.zipIdx k).flatMap fun p => f p.1 p.2).length =
      l.foldr (fun d n => declared d + n) 0 := by
    intro l
    induction l with
    | nil =>
        intro _
        rfl
    | cons sc l ih =>
        intro k
        rw [List.zipIdx_cons, List.flatMap_cons, List.length_append, h, ih, List.foldr_cons]
  exact hfrom s.all 0

/-- The keys of the interfaces of all scopes. -/
def Scopes.interfaceKeys (s : Scopes) : List DeclKey :=
  s.all.zipIdx.flatMap fun p => p.1.interfaces.map fun q => interfaceKey p.2 q.2

theorem length_interfaceKeys (w : World) : w.scopes.interfaceKeys.length = w.interfaceCount := by
  refine length_collect (f := fun (sc : Scope) id => sc.interfaces.map fun q => interfaceKey id q.2)
    fun sc id => ?_
  exact List.length_map _

/-- The keys of the names for types of all scopes. -/
def Scopes.aliasKeys (s : Scopes) : List DeclKey :=
  s.all.zipIdx.flatMap fun p => p.1.aliases.map fun q => (p.2, q.2.name)

theorem length_aliasKeys (w : World) : w.scopes.aliasKeys.length = w.aliasCount := by
  refine length_collect (f := fun (sc : Scope) id => sc.aliases.map fun q => (id, q.2.name))
    fun sc id => ?_
  exact List.length_map _

theorem expandable_of_interfaceKeys {s : Scopes} {key : DeclKey} (h : key ∈ s.interfaceKeys) :
    key ∈ s.expandable := by
  obtain ⟨p, hp, hkey⟩ := List.mem_flatMap.mp h
  exact List.mem_flatMap.mpr ⟨p, hp, List.mem_append_left _ (List.mem_append_right _ hkey)⟩

theorem expandable_of_aliasKeys {s : Scopes} {key : DeclKey} (h : key ∈ s.aliasKeys) :
    key ∈ s.expandable := by
  obtain ⟨p, hp, hkey⟩ := List.mem_flatMap.mp h
  exact List.mem_flatMap.mpr ⟨p, hp, List.mem_append_left _ (List.mem_append_left _ hkey)⟩

theorem Scope.eq_of_typeNamed?_alias {sc : Scope} {id id' : Nat} {name : String} {a : AliasDecl}
    (h : sc.typeNamed? id name = some (.ofAlias id' a)) : id' = id ∧ (name, a) ∈ sc.aliases := by
  unfold Scope.typeNamed? at h
  split at h
  · cases h
  · split at h
    · cases h
    · split at h
      next a' ha =>
        cases h
        exact ⟨rfl, Table.mem_of_find? ha⟩
      · obtain ⟨e, -, he⟩ := Option.map_eq_some_iff.mp h
        cases he

theorem Scope.eq_of_typeNamed?_interface {sc : Scope} {id id' : Nat} {name : String}
    {decls : List InterfaceDecl} (h : sc.typeNamed? id name = some (.ofInterface id' decls)) :
    id' = id ∧ (name, decls) ∈ sc.interfaces := by
  unfold Scope.typeNamed? at h
  split at h
  · cases h
  · split at h
    next is his =>
      cases h
      exact ⟨rfl, Table.mem_of_find? his⟩
    · split at h
      · cases h
      · obtain ⟨e, -, he⟩ := Option.map_eq_some_iff.mp h
        cases he

theorem exists_of_typeNamed?_alias {s : Scopes} {start id : Nat} {path : List String}
    {a : AliasDecl} (h : s.typeNamed? start path = some (.ofAlias id a)) :
    ∃ sc name, s.get? id = some sc ∧ (name, a) ∈ sc.aliases := by
  rcases Scopes.typeOfParts?_spec h with ⟨value, hvalue⟩ | ⟨id', sc, name, hsc, ht⟩
  · cases hvalue
  · obtain ⟨rfl, ha⟩ := Scope.eq_of_typeNamed?_alias ht
    exact ⟨sc, name, hsc, ha⟩

theorem exists_of_typeNamed?_interface {s : Scopes} {start id : Nat} {path : List String}
    {decls : List InterfaceDecl} (h : s.typeNamed? start path = some (.ofInterface id decls)) :
    ∃ sc name, s.get? id = some sc ∧ (name, decls) ∈ sc.interfaces := by
  rcases Scopes.typeOfParts?_spec h with ⟨value, hvalue⟩ | ⟨id', sc, name, hsc, ht⟩
  · cases hvalue
  · obtain ⟨rfl, ha⟩ := Scope.eq_of_typeNamed?_interface ht
    exact ⟨sc, name, hsc, ha⟩

theorem alias_declared {s : Scopes} {start id : Nat} {path : List String} {a : AliasDecl}
    (h : s.typeNamed? start path = some (.ofAlias id a)) :
    (∀ p ∈ a.places id, p ∈ s.places) ∧ (id, a.name) ∈ s.aliasKeys := by
  obtain ⟨sc, name, hsc, ha⟩ := exists_of_typeNamed?_alias h
  constructor
  · intro p hp
    refine mem_collect (f := fun sc id => sc.places id) hsc ?_
    refine List.mem_append_left _ (List.mem_append_left _ ?_)
    exact List.mem_flatMap.mpr ⟨(name, a), ha, hp⟩
  · refine mem_collect (f := fun sc id => sc.aliases.map fun q => (id, q.2.name)) hsc ?_
    exact List.mem_map.mpr ⟨(name, a), ha, rfl⟩

theorem interface_declared {s : Scopes} {start id : Nat} {path : List String}
    {decls : List InterfaceDecl} (h : s.typeNamed? start path = some (.ofInterface id decls)) :
    (∀ p ∈ interfacePlaces id decls, p ∈ s.places) ∧ interfaceKey id decls ∈ s.interfaceKeys := by
  obtain ⟨sc, name, hsc, ha⟩ := exists_of_typeNamed?_interface h
  constructor
  · intro p hp
    refine mem_collect (f := fun sc id => sc.places id) hsc ?_
    refine List.mem_append_left _ (List.mem_append_right _ ?_)
    exact List.mem_flatMap.mpr ⟨(name, decls), ha, hp⟩
  · refine mem_collect (f := fun sc id => sc.interfaces.map fun q => interfaceKey id q.2) hsc ?_
    exact List.mem_map.mpr ⟨(name, decls), ha, rfl⟩

theorem variable_declared {s : Scopes} {start : Nat} {path : List String} {v : ValueSymbol}
    {ty : TypeExpr} {last : String} (h : s.valueNamed? start path = some v)
    (hty : v.variableType = some (some ty)) (hlast : path.getLast? = some last) :
    ⟨v.scope, [], ty⟩ ∈ s.places ∧ (v.scope, last) ∈ s.expandable := by
  obtain ⟨id, sc, name, hname, hsc, hv⟩ := Scopes.lookup_spec h
  obtain rfl : name = last := by
    rw [List.head?_reverse, hlast] at hname
    exact (Option.some.inj hname).symm
  obtain ⟨rfl, -, hvariable, -⟩ := Scope.valueNamed?_spec hv
  have hmem := Table.mem_of_find? (hvariable.symm.trans hty)
  constructor
  · refine mem_collect (f := fun sc id => sc.places id) hsc ?_
    refine List.mem_append_right _ (List.mem_flatMap.mpr ⟨(name, some ty), hmem, ?_⟩)
    exact mem_placesOf List.mem_cons_self
  · refine mem_collect (f := fun sc id => sc.expandable id) hsc ?_
    exact List.mem_append_right _ (List.mem_map.mpr ⟨(name, some ty), hmem, rfl⟩)

/-! ## The places of a conversion -/

variable {w : World}

theorem partClosed_append {ps ps' : List Place} (h : PartClosed (· ∈ ps))
    (h' : PartClosed (· ∈ ps')) : PartClosed (· ∈ ps ++ ps') :=
  fun o ty hmem ty' hty' => List.mem_append.mpr ((List.mem_append.mp hmem).imp
    (fun hmem => h o ty hmem ty' hty') fun hmem => h' o ty hmem ty' hty')

theorem partClosed_flatMap {α : Type} {l : List α} {f : α → List Place}
    (h : ∀ a ∈ l, PartClosed (· ∈ f a)) : PartClosed (· ∈ l.flatMap f) := by
  intro o ty hmem ty' hty'
  obtain ⟨a, ha, hmem⟩ := List.mem_flatMap.mp hmem
  exact List.mem_flatMap.mpr ⟨a, ha, h a ha o ty hmem ty' hty'⟩

theorem partClosed_placesOf (scope : Nat) (bound : List String) (types : List TypeExpr) :
    PartClosed (· ∈ placesOf scope bound types) := by
  intro o ty hmem ty' hty'
  obtain ⟨t, ht, heq⟩ := List.mem_map.mp hmem
  obtain ⟨hscope, hbound, rfl⟩ := Place.mk.inj heq
  refine List.mem_map.mpr ⟨ty', (sublist_partsOfAll types t ht).subset hty', ?_⟩
  rw [hscope, hbound]
  rfl

theorem partClosed_places (s : Scopes) : PartClosed (· ∈ s.places) := by
  refine partClosed_flatMap fun p _ => partClosed_append (partClosed_append ?_ ?_) ?_
  · exact partClosed_flatMap fun _ _ =>
      partClosed_append (partClosed_placesOf _ _ _) (partClosed_placesOf _ _ _)
  · exact partClosed_flatMap fun _ _ =>
      partClosed_append (partClosed_placesOf _ _ _) (partClosed_placesOf _ _ _)
  · exact partClosed_flatMap fun _ _ => partClosed_placesOf _ _ _

/-- All places that the conversion of a type may lead to. -/
def placesFrom (w : World) (p : Place) : List Place :=
  w.scopes.places ++ placesOf p.scope p.bound [p.type]

theorem closed_placesFrom (p : Place) : Closed w (· ∈ placesFrom w p) where
  part := partClosed_append (partClosed_places _) (partClosed_placesOf _ _ _)
  declared := fun _ hmem => List.mem_append_left _ hmem

theorem mem_placesFrom (p : Place) : p ∈ placesFrom w p :=
  List.mem_append_right _ (mem_placesOf List.mem_cons_self)

theorem length_placesFrom (p : Place) :
    (placesFrom w p).length = w.scopes.places.length + p.type.parts.length := by
  rw [placesFrom, List.length_append, placesOf, List.length_map, partsOfAll, partsOfAll,
    List.append_nil]

end ApiSurface.Declaration
