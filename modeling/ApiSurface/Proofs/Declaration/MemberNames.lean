/-
# `ApiSurface.Proofs.Declaration.MemberNames` — where the names of methods come from

A class has the methods that it declares and those of the interfaces that it implements, which may
be inherited by these from other interfaces or stand in a type literal under a name.  Wherever they
are found, they are members that some scope shows (`members_membersOf`).  So if no member of a text
has a dot in its name, no method of a class has (`undotted_of_mem_defined`).
-/
import ApiSurface.Proofs.Declaration.Offers

namespace ApiSurface.Declaration

open Conversion

/-- The name of a property or a method. -/
def Member.name? : Member → Option String
  | .property name .. | .method name .. => some name
  | .constructor _ | .call _ | .index .. => none

theorem name?_of_methodSig? {statics : Bool} {m : Member} {n : String} {sig : FnSig}
    (h : methodSig? statics m = some (n, sig)) : m.name? = some n := by
  unfold methodSig? at h
  split at h
  · split at h
    · cases h
      rfl
    · cases h
  · split at h
    · cases h
      rfl
    · cases h
  · cases h

/-- The members of a type literal. -/
def TypeExpr.literalMembers : TypeExpr → List Member
  | .object members => members
  | _ => []

/-- The members that a scope shows: those of its classes and interfaces, and those of type literals
that have a name or are implemented. -/
def Scope.members (sc : Scope) : List Member :=
  (sc.classes.flatMap fun p => p.2.members ++ p.2.interfaces.flatMap TypeExpr.literalMembers) ++
    (sc.interfaces.flatMap fun p => p.2.flatMap InterfaceDecl.members) ++
      sc.aliases.flatMap fun p => p.2.type.literalMembers

/-- All members that scopes show have the property. -/
def Scopes.Shows (s : Scopes) (M : Member → Prop) : Prop :=
  ∀ sc ∈ s.all, ∀ m ∈ sc.members, M m

/-- The member has no dot in its name, if it has a name. -/
def Member.Undotted (m : Member) : Prop :=
  ∀ n, m.name? = some n → ApiSurface.Undotted n

variable {w : World} {conv : Converter} {M : Member → Prop}

theorem members_class (hM : w.scopes.Shows M) {c : ClassRef} (hc : w.scopes.Declares c) :
    (∀ m ∈ c.decl.members, M m) ∧ ∀ ty ∈ c.decl.interfaces, ∀ m ∈ ty.literalMembers, M m := by
  obtain ⟨sc, name, hsc, hfind⟩ := hc
  have hall : ∀ m ∈ c.decl.members ++ c.decl.interfaces.flatMap TypeExpr.literalMembers, M m := by
    intro m hm
    refine hM sc (List.mem_of_getElem? hsc) m ?_
    refine List.mem_append_left _ (List.mem_append_left _ ?_)
    exact List.mem_flatMap.mpr ⟨(name, c.decl), Table.mem_of_find? hfind, hm⟩
  obtain ⟨hown, hliterals⟩ := List.forall_mem_append.mp hall
  exact ⟨hown, fun ty hty m hm => hliterals m (List.mem_flatMap.mpr ⟨ty, hty, hm⟩)⟩

theorem members_interface (hM : w.scopes.Shows M) {start id : Nat} {path : List String}
    {decls : List InterfaceDecl}
    (h : w.scopes.typeNamed? start path = some (.ofInterface id decls)) :
    ∀ d ∈ decls, ∀ m ∈ d.members, M m := by
  obtain ⟨sc, name, hsc, hmem⟩ := exists_of_typeNamed?_interface h
  intro d hd m hm
  refine hM sc (List.mem_of_getElem? hsc) m (List.mem_append_left _ (List.mem_append_right _ ?_))
  exact List.mem_flatMap.mpr ⟨(name, decls), hmem, List.mem_flatMap.mpr ⟨d, hd, hm⟩⟩

theorem members_alias (hM : w.scopes.Shows M) {start id : Nat} {path : List String}
    {a : AliasDecl} (h : w.scopes.typeNamed? start path = some (.ofAlias id a)) :
    ∀ m ∈ a.type.literalMembers, M m := by
  obtain ⟨sc, name, hsc, hmem⟩ := exists_of_typeNamed?_alias h
  intro m hm
  refine hM sc (List.mem_of_getElem? hsc) m (List.mem_append_right _ ?_)
  exact List.mem_flatMap.mpr ⟨(name, a), hmem, hm⟩

theorem members_parentInterfaces (hM : w.scopes.Shows M) {scope : Nat} {parents : List TypeExpr} :
    ∀ p ∈ parentInterfaces w scope parents, ∀ d ∈ p.2.1, ∀ m ∈ d.members, M m := by
  intro p hp
  obtain ⟨ty, -, heq⟩ := List.mem_filterMap.mp hp
  split at heq
  · split at heq
    next hname =>
      cases heq
      exact members_interface hM hname
    · cases heq
  · cases heq

theorem forall_mem_placed {members : List Member} (h : ∀ m ∈ members, M m) (env : Env) :
    ∀ pm ∈ placed members env, M pm.1 := by
  intro pm hpm
  obtain ⟨m, hm, rfl⟩ := List.mem_map.mp hpm
  exact h m hm

mutual

theorem members_interfaceMembers (hM : w.scopes.Shows M) (active : List DeclKey) :
    ∀ fuel scope decls args caller visited r, (∀ d ∈ decls, ∀ m ∈ d.members, M m) →
      (interfaceMembers w conv active fuel scope decls args caller visited).Gives r →
        ∀ pm ∈ r.1, M pm.1
  | 0, _, _, _, _, _, _, _, h => by
      rw [interfaceMembers] at h
      obtain ⟨_, h⟩ := h
      cases h
  | fuel + 1, scope, decls, args, caller, visited, r, hdecls, h => by
      rw [interfaceMembers] at h
      obtain ⟨env, -, h⟩ := gives_bind h
      obtain ⟨q, hparents, h⟩ := gives_bind h
      obtain rfl := gives_pure h
      refine List.forall_mem_append.mpr ⟨fun pm hpm => ?_, ?_⟩
      · obtain ⟨d, hd, hpm⟩ := List.mem_flatMap.mp hpm
        exact forall_mem_placed (hdecls d hd) env pm hpm
      · refine members_parentMembers hM active fuel env visited _ q (fun p hp => ?_) hparents
        obtain ⟨d, -, hp⟩ := List.mem_flatMap.mp hp
        exact members_parentInterfaces hM p hp

theorem members_parentMembers (hM : w.scopes.Shows M) (active : List DeclKey) :
    ∀ fuel env visited parents r, (∀ p ∈ parents, ∀ d ∈ p.2.1, ∀ m ∈ d.members, M m) →
      (parentMembers w conv active fuel env visited parents).Gives r → ∀ pm ∈ r.1, M pm.1
  | _, _, _, [], _, _, h => by
      rw [parentMembers] at h
      rw [gives_pure h]
      exact List.forall_mem_nil _
  | fuel, env, visited, (scope, decls, args) :: rest, r, hparents, h => by
      obtain ⟨hfirst, hrest⟩ := List.forall_mem_cons.mp hparents
      rw [parentMembers] at h
      split at h
      · exact members_parentMembers hM active fuel env visited rest r hrest h
      · obtain ⟨q, hq, h⟩ := gives_bind h
        obtain ⟨q', hq', h⟩ := gives_bind h
        obtain rfl := gives_pure h
        exact List.forall_mem_append.mpr
          ⟨members_interfaceMembers hM active fuel scope decls args env _ q hfirst hq,
            members_parentMembers hM active fuel env _ rest q' hrest hq'⟩

end

theorem members_membersOfType (hM : w.scopes.Shows M) (fuel : Nat) : ∀ active env ty l,
    (∀ m ∈ ty.literalMembers, M m) → (membersOfType w conv fuel active env ty).Gives (some l) →
      ∀ pm ∈ l, M pm.1 := by
  have hnone : ∀ l : List PlacedMember, ¬ (pure none : Conversion _).Gives (some l) :=
    fun l h => nomatch gives_pure h
  induction fuel with
  | zero =>
      rintro active env ty l - ⟨_, h⟩
      rw [membersOfType] at h
      cases h
  | succ fuel ih =>
      intro active env ty l hty h
      rw [membersOfType.eq_def] at h
      simp only at h
      split at h
      next members =>
        cases gives_pure h
        exact forall_mem_placed hty env
      next name args =>
        split at h
        next scope decls hname =>
          obtain ⟨members, hmembers, h⟩ := gives_bind h
          cases gives_pure h
          unfold membersOfInterface at hmembers
          obtain ⟨r, hr, hmembers⟩ := gives_bind hmembers
          rw [gives_pure hmembers]
          exact members_interfaceMembers hM active _ scope decls args env _ r
            (members_interface hM hname) hr
        next scope decl hname =>
          split at h
          · exact absurd h (hnone l)
          · obtain ⟨inner, -, h⟩ := gives_bind h
            exact ih _ inner decl.type l (members_alias hM hname) h
        · exact absurd h (hnone l)
      · exact absurd h (hnone l)

/-- **The members that a type has are shown by a scope**, or by the type itself. -/
theorem members_membersOf (hM : w.scopes.Shows M) {env : Env} {ty : TypeExpr}
    {l : List PlacedMember} (hty : ∀ m ∈ ty.literalMembers, M m)
    (h : (membersOf w conv env ty).Gives (some l)) : ∀ pm ∈ l, M pm.1 :=
  members_membersOfType hM _ [] env ty l hty h

/-- **No method of a class has a dot in its name if no member that a scope shows has.** -/
theorem undotted_of_mem_defined (hM : w.scopes.Shows Member.Undotted) {c : ClassRef}
    (hc : w.scopes.Declares c) {es : ClassEntries} (hes : (classEntries w conv c).Gives es) :
    ∀ m ∈ es.defined, Undotted m := by
  intro m hm
  obtain ⟨hown, hliterals⟩ := members_class hM hc
  rcases ((shaped_classEntries hes).2 (.method m)).mp hm with
    ⟨member, hmember, sig, hsig⟩ | ⟨env, -, ty, hty, members, hmembers, pm, hpm, sig, hsig⟩
  · exact hown member hmember m (name?_of_methodSig? hsig)
  · exact members_membersOf hM (hliterals ty hty) hmembers pm hpm m (name?_of_methodSig? hsig)

end ApiSurface.Declaration
