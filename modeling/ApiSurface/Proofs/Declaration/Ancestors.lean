/-
# `ApiSurface.Proofs.Declaration.Ancestors` — which members an interface has, and in which order

The interfaces that an interface extends may extend one another in any shape, in circles too.  The
order in which their members are collected is given by the rules of `DepthFirst`: an interface that
came earlier is passed over, and one that is new comes before all that it extends.  The keys of what
came earlier are the visited ones of the program, so that the rules and the program go the same way,
and as each step visits an interface of the text that was not visited before, there is an end
(`exists_depthFirst`).

That everything reachable is in the order is not seen from one step: an interface that is passed
over may still be in the middle of being collected.  What every step keeps is that the interfaces
extended by the new ones have come by the end (`DepthFirst.parents_came`).

**Main results** (`exists_membersOfInterface`, `DepthFirst.mem_iff`): the members of an interface
are collected in the order of the rules, and the order has every interface that it leads to, once.
-/
import ApiSurface.Proofs.Declaration.Enclosing
import ApiSurface.Proofs.Declaration.Nested

namespace ApiSurface.Declaration

open Relation (ReflTransGen)

/-! ## The interfaces of a text -/

/-- A table of interfaces has the declarations of a name under that name. -/
structure NamedTable (t : List (String × List InterfaceDecl)) : Prop where
  order : Table.Ascending t
  named : ∀ p ∈ t, p.2.head?.map InterfaceDecl.name = some p.1

theorem namedTable_nil : NamedTable [] :=
  ⟨Table.ascending_nil, nofun⟩

theorem NamedTable.appended {t : List (String × List InterfaceDecl)} (h : NamedTable t)
    (i : InterfaceDecl) : NamedTable (Scope.appended t i.name i) := by
  refine ⟨Table.ascending_insert h.order _ _, fun p hp => ?_⟩
  rcases Table.mem_insert hp with rfl | hp
  · cases hfind : Table.find? t i.name with
    | none => rfl
    | some decls =>
        have hname := h.named _ (Table.mem_of_find? hfind)
        cases decls with
        | nil => cases hname
        | cons d decls => exact hname
  · exact h.named p hp

namespace Scopes

/-- The interfaces of every scope stand under their names. -/
def InterfacesNamed (s : Scopes) : Prop :=
  ∀ sc ∈ s.all, NamedTable sc.interfaces

variable {s : Scopes}

theorem InterfacesNamed.modify (h : s.InterfacesNamed) (id : Nat) {f : Scope → Scope}
    (hf : ∀ sc, NamedTable sc.interfaces → NamedTable (f sc).interfaces) :
    (s.modify id f).InterfacesNamed := by
  intro sc hsc
  obtain ⟨i, hi⟩ := List.mem_iff_getElem?.mp hsc
  obtain ⟨old, hold, rfl⟩ := Option.map_eq_some_iff.mp ((get?_modify s id i f).symm.trans hi)
  have hnamed := h old (List.mem_of_getElem? hold)
  split
  · exact hf old hnamed
  · exact hnamed

theorem InterfacesNamed.addChild (h : s.InterfacesNamed) (outer : Nat) :
    (s.addChild outer).2.InterfacesNamed := by
  intro sc hsc
  rcases List.mem_append.mp hsc with hsc | hsc
  · exact h sc hsc
  · rw [List.mem_singleton.mp hsc]
    exact namedTable_nil

theorem InterfacesNamed.namespaceIn (h : s.InterfacesNamed) (id : Nat) (name : String) :
    (s.namespaceIn id name).2.InterfacesNamed := by
  unfold Scopes.namespaceIn
  split
  · exact h
  · exact (h.addChild id).modify id fun _ hsc => hsc

theorem InterfacesNamed.declare (h : s.InterfacesNamed) (id : Nat) (d : Decl) :
    (s.modify id (·.declare d)).InterfacesNamed :=
  h.modify id fun sc hsc => by cases d <;> first | exact hsc | exact hsc.appended _

theorem InterfacesNamed.addExport (h : s.InterfacesNamed) (id : Nat) (inner outer : String) :
    (s.addExport id inner outer).InterfacesNamed :=
  h.modify id fun sc hsc => by unfold Scope.addExport; split <;> exact hsc

mutual

theorem interfacesNamed_addStatements (id : Nat) (all : Bool) : ∀ (ss : List Statement)
    (s : Scopes), s.InterfacesNamed → (addStatements id all ss s).InterfacesNamed
  | [], s, h => by
      rw [addStatements]
      exact h
  | st :: ss, s, h => by
      rw [addStatements]
      exact interfacesNamed_addStatements id all ss _ (interfacesNamed_addStatement id all st s h)

theorem interfacesNamed_addStatement (id : Nat) (all : Bool) : ∀ (st : Statement) (s : Scopes),
    s.InterfacesNamed → (addStatement id all st s).InterfacesNamed
  | .decl d exported, s, h => by
      rw [addStatement]
      split
      · exact (interfacesNamed_addDecl id d s h).addExport id _ _
      · exact interfacesNamed_addDecl id d s h
  | .exportAssignment name, s, h => by
      rw [addStatement]
      exact h.modify id fun _ hsc => hsc
  | .exportList names none, s, h => by
      rw [addStatement]
      exact List.foldlRecOn (motive := InterfacesNamed) _ _ h
        fun _ hs n _ => hs.addExport id n.inner n.outer
  | .exportList _ (some _), s, h => by
      rw [addStatement]
      exact h
  | .other, s, h => by
      rw [addStatement]
      exact h

theorem interfacesNamed_addDecl (id : Nat) : ∀ (d : Decl) (s : Scopes),
    s.InterfacesNamed → (addDecl id d s).InterfacesNamed
  | .namespaceDecl name body, s, h => by
      rw [addDecl]
      exact interfacesNamed_addStatements _ _ body _ (h.namespaceIn id name)
  | .moduleDecl path body, s, h => by
      rw [addDecl]
      exact interfacesNamed_addStatements _ _ body _ ((h.addChild id).modify id fun _ hsc => hsc)
  | .functionDecl name sig, s, h => by
      rw [addDecl]
      exact h.declare id _
  | .classDecl c, s, h => by
      rw [addDecl]
      exact h.declare id _
  | .interfaceDecl i, s, h => by
      rw [addDecl]
      exact h.declare id _
  | .aliasDecl a, s, h => by
      rw [addDecl]
      exact h.declare id _
  | .enumDecl e, s, h => by
      rw [addDecl]
      exact h.declare id _
  | .variableDecl name type, s, h => by
      rw [addDecl]
      exact h.declare id _

end

theorem interfacesNamed_ofStatements (ss : List Statement) : (ofStatements ss).InterfacesNamed :=
  interfacesNamed_addStatements 0 _ ss _ (List.forall_mem_singleton.mpr namedTable_nil)

end Scopes

/-! ## Interfaces and what they extend -/

/-- An interface: all its declarations, and the scope that they stand in. -/
structure InterfaceRef where
  scope : Nat
  decls : List InterfaceDecl

namespace InterfaceRef

/-- What tells an interface from others: its scope and its name. -/
def key (i : InterfaceRef) : DeclKey :=
  interfaceKey i.scope i.decls

/-- The members of all declarations of an interface, in their order. -/
def members (i : InterfaceRef) : List PlacedMember :=
  i.decls.flatMap fun d => placed d.members { scope := i.scope }

/-- The interfaces that the declarations name in their clauses, with the type arguments. -/
def clauses (w : World) (i : InterfaceRef) : List (Nat × List InterfaceDecl × List TypeExpr) :=
  i.decls.flatMap fun d => parentInterfaces w i.scope d.parents

/-- The interface that a clause names. -/
def ofClause (c : Nat × List InterfaceDecl × List TypeExpr) : InterfaceRef :=
  ⟨c.1, c.2.1⟩

/-- The interfaces that an interface extends, in the order of the clauses. -/
def parents (w : World) (i : InterfaceRef) : List InterfaceRef :=
  (i.clauses w).map ofClause

/-- The interface stands in the table of its scope. -/
def Declared (w : World) (i : InterfaceRef) : Prop :=
  ∃ sc name, w.scopes.get? i.scope = some sc ∧ (name, i.decls) ∈ sc.interfaces

/-- The first interface is the other one or extends it, directly or not. -/
def LeadsTo (w : World) : InterfaceRef → InterfaceRef → Prop :=
  ReflTransGen fun i j => j ∈ i.parents w

/-- An interface of the text that leads to interfaces without type parameters only. -/
structure Lineal (w : World) (i : InterfaceRef) : Prop where
  declared : i.Declared w
  free : ∀ j, i.LeadsTo w j → interfaceParams j.decls = []

variable {w : World} {i j : InterfaceRef}

theorem Declared.key_mem (h : i.Declared w) : i.key ∈ w.scopes.interfaceKeys := by
  obtain ⟨sc, name, hsc, hmem⟩ := h
  refine mem_collect (f := fun sc id => sc.interfaces.map fun q => interfaceKey id q.2) hsc ?_
  exact List.mem_map.mpr ⟨(name, i.decls), hmem, rfl⟩

theorem declared_of_parent (h : j ∈ i.parents w) : j.Declared w := by
  obtain ⟨c, hc, rfl⟩ := List.mem_map.mp h
  obtain ⟨d, -, hc⟩ := List.mem_flatMap.mp hc
  obtain ⟨ty, -, heq⟩ := List.mem_filterMap.mp hc
  split at heq
  · split at heq
    next id decls hname =>
      cases heq
      exact exists_of_typeNamed?_interface hname
    · cases heq
  · cases heq

theorem Lineal.parent (h : i.Lineal w) (hj : j ∈ i.parents w) : j.Lineal w :=
  ⟨declared_of_parent hj, fun k hk => h.free k (.head hj hk)⟩

/-- Where no interface has type parameters, all of them are lineal. -/
theorem Declared.lineal (h : i.Declared w)
    (hfree : ∀ sc ∈ w.scopes.all, ∀ p ∈ sc.interfaces, interfaceParams p.2 = []) :
    i.Lineal w := by
  refine ⟨h, fun j hj => ?_⟩
  have hdeclared : j.Declared w := by
    rcases ReflTransGen.cases_tail hj with rfl | ⟨k, -, hk⟩
    · exact h
    · exact declared_of_parent hk
  obtain ⟨sc, name, hsc, hmem⟩ := hdeclared
  exact hfree sc (List.mem_of_getElem? hsc) _ hmem

/-- The scope and the name say which interface it is. -/
theorem Declared.eq_of_key (hnamed : w.scopes.InterfacesNamed) (hi : i.Declared w)
    (hj : j.Declared w) (h : i.key = j.key) : i = j := by
  obtain ⟨sc, name, hsc, hmem⟩ := hi
  obtain ⟨sc', name', hsc', hmem'⟩ := hj
  have htable := hnamed sc (List.mem_of_getElem? hsc)
  obtain ⟨scope, decls⟩ := i
  obtain ⟨scope', decls'⟩ := j
  obtain ⟨rfl, hname⟩ : scope = scope' ∧ _ := Prod.mk.inj h
  cases hsc.symm.trans hsc'
  rw [htable.named _ hmem, htable.named _ hmem'] at hname
  obtain rfl : name = name' := hname
  have hfound := (Table.find?_eq_some_iff htable.order).mpr hmem
  rw [(Table.find?_eq_some_iff htable.order).mpr hmem'] at hfound
  exact congrArg (InterfaceRef.mk scope) (Option.some.inj hfound).symm

end InterfaceRef

/-! ## The order -/

/-- The interfaces that come from a list, depth first, where `earlier` ones have come already: one
with the key of an earlier one is passed over. -/
inductive DepthFirst (w : World) :
    List InterfaceRef → List InterfaceRef → List InterfaceRef → Prop
  | done {earlier : List InterfaceRef} : DepthFirst w earlier [] []
  | seen {earlier pending order : List InterfaceRef} {i : InterfaceRef}
      (came : i.key ∈ earlier.map InterfaceRef.key) (rest : DepthFirst w earlier pending order) :
      DepthFirst w earlier (i :: pending) order
  | enter {earlier pending above others : List InterfaceRef} {i : InterfaceRef}
      (new : i.key ∉ earlier.map InterfaceRef.key)
      (extended : DepthFirst w (earlier ++ [i]) (i.parents w) above)
      (rest : DepthFirst w (earlier ++ i :: above) pending others) :
      DepthFirst w earlier (i :: pending) (i :: (above ++ others))

namespace DepthFirst

open InterfaceRef

variable {w : World} {earlier pending order : List InterfaceRef} {i j : InterfaceRef}

/-- The rules leave no choice. -/
theorem unique (h : DepthFirst w earlier pending order) :
    ∀ {order'}, DepthFirst w earlier pending order' → order = order' := by
  induction h with
  | done =>
      intro order' h'
      cases h'
      rfl
  | seen came _ ih =>
      intro order' h'
      cases h' with
      | seen _ rest => exact ih rest
      | enter new _ _ => exact absurd came new
  | enter new _ _ ihextended ihrest =>
      intro order' h'
      cases h' with
      | seen came _ => exact absurd came new
      | enter _ extended rest =>
          obtain rfl := ihextended extended
          rw [ihrest rest]

/-- No key comes twice. -/
theorem nodup (h : DepthFirst w earlier pending order) :
    (earlier.map key).Nodup → ((earlier ++ order).map key).Nodup := by
  induction h with
  | done => exact fun hearlier => by rwa [List.append_nil]
  | seen _ _ ih => exact ih
  | @enter earlier pending above others i new _ _ ihextended ihrest =>
      intro hearlier
      have hnext : ((earlier ++ [i]).map key).Nodup := by
        rw [List.map_append, List.nodup_append]
        refine ⟨hearlier, List.nodup_singleton _, fun a ha b hb hab => new ?_⟩
        rwa [← List.mem_singleton.mp hb, ← hab]
      have habove := ihextended hnext
      rw [List.append_assoc, List.singleton_append] at habove
      have hrest := ihrest habove
      rwa [List.append_assoc] at hrest

/-- What comes is what the list leads to. -/
theorem leadsTo (h : DepthFirst w earlier pending order) :
    ∀ j ∈ order, ∃ i ∈ pending, i.LeadsTo w j := by
  induction h with
  | done => exact nofun
  | seen _ _ ih =>
      intro j hj
      obtain ⟨i, hi, hleads⟩ := ih j hj
      exact ⟨i, List.mem_cons_of_mem _ hi, hleads⟩
  | @enter earlier pending above others i _ _ _ ihextended ihrest =>
      intro j hj
      rcases List.mem_cons.mp hj with rfl | hj
      · exact ⟨j, List.mem_cons_self, .refl⟩
      rcases List.mem_append.mp hj with hj | hj
      · obtain ⟨k, hk, hleads⟩ := ihextended j hj
        exact ⟨i, List.mem_cons_self, .head hk hleads⟩
      · obtain ⟨k, hk, hleads⟩ := ihrest j hj
        exact ⟨k, List.mem_cons_of_mem _ hk, hleads⟩

/-- Every interface of the list has come in the end. -/
theorem came (h : DepthFirst w earlier pending order) :
    ∀ i ∈ pending, i.key ∈ (earlier ++ order).map key := by
  induction h with
  | done => exact nofun
  | @seen earlier pending order i came _ ih =>
      refine List.forall_mem_cons.mpr ⟨?_, ih⟩
      rw [List.map_append]
      exact List.mem_append_left _ came
  | @enter earlier pending above others i _ _ _ _ ihrest =>
      refine List.forall_mem_cons.mpr ⟨?_, fun k hk => ?_⟩
      · exact List.mem_map_of_mem (List.mem_append_right _ List.mem_cons_self)
      · have hcame := ihrest k hk
        rwa [List.append_assoc] at hcame

/-- What the new interfaces extend has come in the end. -/
theorem parents_came (h : DepthFirst w earlier pending order) :
    ∀ j ∈ order, ∀ p ∈ j.parents w, p.key ∈ (earlier ++ order).map key := by
  induction h with
  | done => exact nofun
  | seen _ _ ih => exact ih
  | @enter earlier pending above others i _ extended _ ihextended ihrest =>
      have hsplit : earlier ++ i :: (above ++ others) = (earlier ++ [i] ++ above) ++ others := by
        simp only [List.append_assoc, List.cons_append, List.nil_append]
      have hextended : ∀ j ∈ i :: above, ∀ p ∈ j.parents w,
          p.key ∈ (earlier ++ [i] ++ above).map key :=
        List.forall_mem_cons.mpr ⟨extended.came, ihextended⟩
      rw [hsplit]
      show ∀ j ∈ (i :: above) ++ others, _
      refine List.forall_mem_append.mpr ⟨fun j hj p hp => ?_, fun j hj p hp => ?_⟩
      · rw [List.map_append]
        exact List.mem_append_left _ (hextended j hj p hp)
      · have hrest := ihrest j hj p hp
        rwa [← List.singleton_append, ← List.append_assoc] at hrest

/-- From a single interface everything comes that it leads to, and nothing else. -/
theorem mem_iff (hnamed : w.scopes.InterfacesNamed) (hi : i.Declared w)
    (h : DepthFirst w [] [i] order) : j ∈ order ↔ i.LeadsTo w j := by
  have hdeclared : ∀ k, i.LeadsTo w k → k.Declared w := by
    intro k hk
    rcases ReflTransGen.cases_tail hk with rfl | ⟨l, -, hl⟩
    · exact hi
    · exact declared_of_parent hl
  have hleads : ∀ k ∈ order, i.LeadsTo w k := by
    intro k hk
    obtain ⟨l, hl, hlk⟩ := h.leadsTo k hk
    exact List.mem_singleton.mp hl ▸ hlk
  -- An interface of the text that has come by its key has come itself.
  have hmem : ∀ k, i.LeadsTo w k → k.key ∈ order.map key → k ∈ order := by
    intro k hk hkey
    obtain ⟨l, hl, hlk⟩ := List.mem_map.mp hkey
    exact (hdeclared l (hleads l hl)).eq_of_key hnamed (hdeclared k hk) hlk ▸ hl
  refine ⟨hleads j, fun hj => ?_⟩
  induction hj with
  | refl => exact hmem i .refl (h.came i List.mem_cons_self)
  | @tail k l hk hl ih => exact hmem l (.tail hk hl) (h.parents_came k ih l hl)

end DepthFirst

/-! ## What is collected -/

namespace InterfaceRef

/-- The keys of the interfaces that have come, the last one first. -/
def keysOf (earlier : List InterfaceRef) : List DeclKey :=
  (earlier.map key).reverse

variable {w : World} {i : InterfaceRef}

theorem keysOf_concat (earlier : List InterfaceRef) (i : InterfaceRef) :
    keysOf (earlier ++ [i]) = i.key :: keysOf earlier := by
  rw [keysOf, List.map_append, List.reverse_append]
  rfl

theorem mem_keysOf {earlier : List InterfaceRef} {k : DeclKey} :
    k ∈ keysOf earlier ↔ k ∈ earlier.map key :=
  List.mem_reverse

/-- One more interface has its own members before those of the interfaces that it extends. -/
theorem interfaceMembers_eq (hfree : interfaceParams i.decls = []) {conv : Converter}
    {active : List DeclKey} {fuel : Nat} (args : List TypeExpr) (caller : Env)
    {visited visited' : List DeclKey} {inherited : List PlacedMember}
    (h : parentMembers w conv active fuel { scope := i.scope } visited (i.clauses w) =
      pure (inherited, visited')) :
    interfaceMembers w conv active (fuel + 1) i.scope i.decls args caller visited =
      pure (i.members ++ inherited, visited') := by
  have henv : envInside conv active caller i.scope (interfaceParams i.decls) args =
      pure { scope := i.scope } := by
    rw [hfree]
    rfl
  rw [interfaceMembers]
  change (envInside conv active caller i.scope (interfaceParams i.decls) args >>= _) = _
  rw [henv, pure_bind]
  change (parentMembers w conv active fuel { scope := i.scope } visited (i.clauses w) >>= _) = _
  rw [h, pure_bind]
  rfl

section

variable {conv : Converter} {active : List DeclKey} {fuel : Nat} {env : Env}
  {visited visited' visited'' : List DeclKey} {args : List TypeExpr}
  {cs : List (Nat × List InterfaceDecl × List TypeExpr)}

theorem parentMembers_seen (h : i.key ∈ visited) :
    parentMembers w conv active fuel env visited ((i.scope, i.decls, args) :: cs) =
      parentMembers w conv active fuel env visited cs := by
  rw [parentMembers]
  exact if_pos (List.contains_iff_mem.mpr h)

theorem parentMembers_enter (h : i.key ∉ visited) {first others : List PlacedMember}
    (hfirst : interfaceMembers w conv active fuel i.scope i.decls args env (i.key :: visited) =
      pure (first, visited'))
    (hrest : parentMembers w conv active fuel env visited' cs = pure (others, visited'')) :
    parentMembers w conv active fuel env visited ((i.scope, i.decls, args) :: cs) =
      pure (first ++ others, visited'') := by
  rw [parentMembers]
  refine (if_neg fun hc => h (List.contains_iff_mem.mp hc)).trans ?_
  change (interfaceMembers w conv active fuel i.scope i.decls args env (i.key :: visited) >>= _) = _
  rw [hfirst, pure_bind]
  change (parentMembers w conv active fuel env visited' cs >>= _) = _
  rw [hrest, pure_bind]

end

theorem visited_of_depthFirst {earlier pending order : List InterfaceRef} {fuel : Nat}
    (h : Visited w.scopes.interfaceKeys fuel (keysOf earlier))
    (hpending : ∀ j ∈ pending, j.Lineal w) (horder : DepthFirst w earlier pending order) :
    Visited w.scopes.interfaceKeys fuel (keysOf (earlier ++ order)) := by
  refine ⟨List.nodup_reverse.mpr (horder.nodup (List.nodup_reverse.mp h.nodup)), ?_, ?_⟩
  · intro k hk
    rw [mem_keysOf, List.map_append] at hk
    rcases List.mem_append.mp hk with hk | hk
    · exact h.declared k (mem_keysOf.mpr hk)
    · obtain ⟨j, hj, rfl⟩ := List.mem_map.mp hk
      obtain ⟨l, hl, hleads⟩ := horder.leadsTo j hj
      rcases ReflTransGen.cases_tail hleads with rfl | ⟨m, -, hm⟩
      · exact (hpending j hl).declared.key_mem
      · exact (declared_of_parent hm).key_mem
  · have henough := h.enough
    simp only [keysOf, List.length_reverse, List.length_map, List.length_append] at henough ⊢
    omega

/-- The interfaces that clauses name have an order, and their members are collected in it. -/
theorem exists_depthFirst (fuel : Nat) : ∀ (earlier : List InterfaceRef)
    (cs : List (Nat × List InterfaceDecl × List TypeExpr)), (∀ j ∈ cs.map ofClause, j.Lineal w) →
      Visited w.scopes.interfaceKeys (fuel + 1) (keysOf earlier) →
        ∃ order, DepthFirst w earlier (cs.map ofClause) order ∧ ∀ conv active env,
          parentMembers w conv active fuel env (keysOf earlier) cs =
            pure (order.flatMap members, keysOf (earlier ++ order)) := by
  induction fuel using Nat.strongRecOn with
  | ind fuel ihfuel =>
      intro earlier cs
      induction cs generalizing earlier with
      | nil =>
          intro _ _
          refine ⟨[], .done, fun conv active env => ?_⟩
          rw [parentMembers, List.append_nil]
          rfl
      | cons c cs ih =>
          intro hcs hvisited
          obtain ⟨i, args, rfl⟩ : ∃ (i : InterfaceRef) (args : _), c = (i.scope, i.decls, args) :=
            ⟨ofClause c, c.2.2, rfl⟩
          obtain ⟨hlineal, hrest⟩ := List.forall_mem_cons.mp hcs
          change i.Lineal w at hlineal
          by_cases hcame : i.key ∈ earlier.map key
          · obtain ⟨order, horder, hcollects⟩ := ih earlier hrest hvisited
            refine ⟨order, .seen hcame horder, fun conv active env => ?_⟩
            rw [parentMembers_seen (mem_keysOf.mpr hcame)]
            exact hcollects conv active env
          · have hnew : i.key ∉ keysOf earlier := fun h => hcame (mem_keysOf.mp h)
            have hentered := hvisited.cons hlineal.declared.key_mem hnew
            obtain ⟨fuel, rfl⟩ := Nat.exists_eq_succ_of_ne_zero (Nat.ne_of_gt hentered.pos)
            rw [← keysOf_concat] at hentered
            -- Up the clauses of the interface there is one step less; then the list goes on.
            obtain ⟨above, habove, hcollects⟩ := ihfuel fuel (Nat.lt_succ_self fuel)
              (earlier ++ [i]) (i.clauses w) (fun j hj => hlineal.parent hj) hentered
            have hvisited' := visited_of_depthFirst hentered (fun j hj => hlineal.parent hj) habove
            rw [List.append_assoc, List.singleton_append] at hvisited' hcollects
            obtain ⟨others, hothers, hcollects'⟩ := ih (earlier ++ i :: above) hrest
              hvisited'.succ
            refine ⟨i :: (above ++ others), .enter hcame habove hothers,
              fun conv active env => ?_⟩
            have hfirst := interfaceMembers_eq (hlineal.free i .refl) args env
              (hcollects conv active { scope := i.scope })
            rw [keysOf_concat] at hfirst
            rw [parentMembers_enter hnew hfirst (hcollects' conv active env), List.flatMap_cons,
              List.flatMap_append, List.append_assoc, List.append_assoc, List.cons_append]

/-- The members of an interface are collected in the order of the rules. -/
theorem exists_membersOfInterface (hi : i.Lineal w) : ∃ order, DepthFirst w [] [i] order ∧
    ∀ conv active env args, membersOfInterface w conv active env i.scope i.decls args =
      pure (order.flatMap members) := by
  have hvisited : Visited w.scopes.interfaceKeys (w.interfaceCount + 1) (keysOf [i]) := by
    refine ⟨List.pairwise_singleton _ _, List.forall_mem_singleton.mpr hi.declared.key_mem, ?_⟩
    rw [length_interfaceKeys, keysOf, List.length_reverse, List.length_map, List.length_singleton]
    omega
  obtain ⟨above, habove, hcollects⟩ := exists_depthFirst w.interfaceCount [i] (i.clauses w)
    (fun j hj => hi.parent hj) hvisited
  refine ⟨i :: (above ++ []), .enter nofun habove .done, fun conv active env args => ?_⟩
  have hall := interfaceMembers_eq (hi.free i .refl) args env
    (hcollects conv active { scope := i.scope })
  change (interfaceMembers w conv active (w.interfaceCount + 1) i.scope i.decls args env
    (keysOf [i]) >>= fun r => pure r.1) = _
  rw [hall, pure_bind, List.append_nil, List.flatMap_cons]

end InterfaceRef

end ApiSurface.Declaration
