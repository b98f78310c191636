/-
# `ApiSurface.Proofs.Declaration.Shadowing` — the first declaration of a name counts

The shape of an object type is made from its members one after the other, and a name that the shape
has already is passed over.  So what is in the shape stays (`taken_shapeOfMembers`), and every name
has the guess for its first visible declaration.  Later declarations are not even converted, so that
only the first ones have to come to an end.

**Main result** (`collected_of_lineal`): the members of an interface are those of all interfaces
that it leads to, each once and depth first, and for every name the first visible declaration in
this order is the one that the object has.
-/
import ApiSurface.Proofs.Declaration.Ancestors

namespace ApiSurface.Declaration

/-! ## The first declaration of a name -/

/-- The name of a property or a method that is seen on objects. -/
def Member.visibleName? : Member → Option String
  | property name _ _ modifiers | method name _ _ modifiers =>
    if modifiers.onInstance then some name else none
  | constructor _ | call _ | index _ _ => none

/-- The first visible declaration of a name. -/
def firstDeclared? (members : List PlacedMember) (name : String) : Option PlacedMember :=
  members.find? fun m => m.1.visibleName? == some name

/-- The guess for what a member declares. -/
def declaredGuess (w : World) (conv : Converter) (active : List DeclKey) :
    PlacedMember → Conversion Guess
  | (.property _ optional (some ty) _, env) =>
    if optional then convertUnion w conv active env ty true else conv active env ty
  | (.property _ _ none _, _) => pure .any
  | _ => pure .undefined

/-- A property has the guess for its declaration, and without a declaration there is none. -/
inductive TakenFrom (w : World) (conv : Converter) (active : List DeclKey) :
    Option PlacedMember → Option Guess → Prop
  | absent : TakenFrom w conv active none none
  | declared {m : PlacedMember} {g : Guess} {refs : List ClassRef}
      (h : declaredGuess w conv active m = some (g, refs)) :
      TakenFrom w conv active (some m) (some g)

/-- Every property of the shape is taken from the first visible declaration of its name. -/
structure TakesFirst (w : World) (conv : Converter) (active : List DeclKey)
    (members : List PlacedMember) (shape : List (String × Guess)) : Prop where
  order : Table.Ascending shape
  taken : ∀ name,
    TakenFrom w conv active (firstDeclared? members name) (Table.find? shape name)

section

variable {w : World} {conv : Converter} {active : List DeclKey}

theorem firstDeclared?_skip {m : PlacedMember} {name : String} (h : m.1.visibleName? ≠ some name)
    (r : List PlacedMember) : firstDeclared? (m :: r) name = firstDeclared? r name := by
  refine List.find?_cons_of_neg ?_
  rwa [beq_iff_eq]

theorem firstDeclared?_self {m : PlacedMember} {name : String} (h : m.1.visibleName? = some name)
    (r : List PlacedMember) : firstDeclared? (m :: r) name = some m := by
  refine List.find?_cons_of_pos ?_
  rwa [beq_iff_eq]

/-- A name without a property is not one that the shape has already. -/
theorem visibleName?_ne_of_has {m : PlacedMember} {shape : List (String × Guess)}
    {declared name : String} (hname : m.1.visibleName? = some declared)
    (hhas : Table.has shape declared = true) (hnone : Table.find? shape name = none) :
    m.1.visibleName? ≠ some name := by
  intro heq
  obtain rfl := Option.some.inj (hname.symm.trans heq)
  rw [Table.has, hnone] at hhas
  cases hhas

theorem shapeOfMembers_hidden {m : PlacedMember} (h : m.1.visibleName? = none)
    (r : List PlacedMember) (shape : List (String × Guess)) :
    shapeOfMembers w conv active shape (m :: r) = shapeOfMembers w conv active shape r := by
  obtain ⟨m, env⟩ := m
  cases m with
  | property name optional type modifiers | method name optional sig modifiers =>
      have hhidden : modifiers.onInstance = false := by
        simpa [Member.visibleName?] using h
      simp only [shapeOfMembers, hhidden, Bool.not_false, Bool.true_or, if_true]
  | constructor sig | call sig | index value modifiers =>
      rw [shapeOfMembers] <;> simp

theorem shapeOfMembers_visible {m : PlacedMember} {name : String}
    (h : m.1.visibleName? = some name) (r : List PlacedMember) (shape : List (String × Guess)) :
    shapeOfMembers w conv active shape (m :: r) =
      if Table.has shape name then shapeOfMembers w conv active shape r
      else declaredGuess w conv active m >>= fun g =>
        shapeOfMembers w conv active (Table.insert shape name g) r := by
  obtain ⟨m, env⟩ := m
  cases m with
  | property name' optional type modifiers =>
      obtain ⟨hvisible, rfl⟩ : modifiers.onInstance = true ∧ name' = name := by
        simpa [Member.visibleName?] using h
      rw [shapeOfMembers]
      simp only [hvisible, Bool.not_true, Bool.false_or]
      cases type <;> cases optional <;> rfl
  | method name' optional sig modifiers =>
      obtain ⟨hvisible, rfl⟩ : modifiers.onInstance = true ∧ name' = name := by
        simpa [Member.visibleName?] using h
      rw [shapeOfMembers]
      simp only [hvisible, Bool.not_true, Bool.false_or, declaredGuess, pure_bind]
  | constructor sig | call sig | index value modifiers => cases h

/-- What is in the shape stays, and what is new is taken from the first declaration. -/
theorem taken_shapeOfMembers {members : List PlacedMember} :
    ∀ {shape result : List (String × Guess)} {refs : List ClassRef}, Table.Ascending shape →
      shapeOfMembers w conv active shape members = some (result, refs) →
        Table.Ascending result ∧ ∀ name,
          (∀ g, Table.find? shape name = some g → Table.find? result name = some g) ∧
          (Table.find? shape name = none →
            TakenFrom w conv active (firstDeclared? members name) (Table.find? result name)) := by
  induction members with
  | nil =>
      intro shape result refs order h
      cases h
      exact ⟨order, fun name => ⟨fun _ hg => hg, fun hnone => hnone ▸ .absent⟩⟩
  | cons m r ih =>
      intro shape result refs order h
      cases hname : m.1.visibleName? with
      | none =>
          rw [shapeOfMembers_hidden hname] at h
          obtain ⟨order', htaken⟩ := ih order h
          refine ⟨order', fun name => ?_⟩
          rw [firstDeclared?_skip (by rw [hname]; nofun)]
          exact htaken name
      | some declared =>
          rw [shapeOfMembers_visible hname] at h
          split at h
          next hhas =>
            -- An earlier declaration has given the name its property already.
            obtain ⟨order', htaken⟩ := ih order h
            refine ⟨order', fun name => ⟨(htaken name).1, fun hnone => ?_⟩⟩
            rw [firstDeclared?_skip (visibleName?_ne_of_has hname hhas hnone)]
            exact (htaken name).2 hnone
          next hnew =>
            obtain ⟨g, first, more, hg, hrest, -⟩ := Conversion.bind_eq_some_iff.mp h
            obtain ⟨order', htaken⟩ := ih (Table.ascending_insert order declared g) hrest
            refine ⟨order', fun name => ?_⟩
            have hfind := Table.find?_insert shape declared g name
            by_cases heq : name = declared
            · subst heq
              rw [if_pos rfl] at hfind
              rw [firstDeclared?_self hname, (htaken name).1 g hfind]
              refine ⟨fun g' hg' => ?_, fun _ => .declared hg⟩
              rw [Table.has, hg'] at hnew
              exact absurd rfl hnew
            · rw [if_neg heq] at hfind
              rw [firstDeclared?_skip (by rw [hname]; exact fun h => heq (Option.some.inj h).symm),
                ← hfind]
              exact htaken name

theorem takesFirst_shapeOfMembers {members : List PlacedMember} {shape : List (String × Guess)}
    {refs : List ClassRef} (h : shapeOfMembers w conv active [] members = some (shape, refs)) :
    TakesFirst w conv active members shape := by
  obtain ⟨order, htaken⟩ := taken_shapeOfMembers Table.ascending_nil h
  exact ⟨order, fun name => (htaken name).2 rfl⟩

/-- The shape is made if what the first declarations stand for is. -/
theorem ends_shapeOfMembers {members : List PlacedMember} : ∀ {shape : List (String × Guess)},
    (∀ name m, Table.find? shape name = none → firstDeclared? members name = some m →
      (declaredGuess w conv active m).Ends) →
        (shapeOfMembers w conv active shape members).Ends := by
  induction members with
  | nil => exact fun _ => ⟨_, [], rfl⟩
  | cons m r ih =>
      intro shape h
      cases hname : m.1.visibleName? with
      | none =>
          rw [shapeOfMembers_hidden hname]
          refine ih fun name m' hnone hm' => h name m' hnone ?_
          rwa [firstDeclared?_skip (by rw [hname]; nofun)]
      | some declared =>
          rw [shapeOfMembers_visible hname]
          split
          next hhas =>
            refine ih fun name m' hnone hm' => h name m' hnone ?_
            rwa [firstDeclared?_skip (visibleName?_ne_of_has hname hhas hnone)]
          next hnew =>
            have hnone : Table.find? shape declared = none := by
              rw [Table.has, Bool.not_eq_true, Option.isSome_eq_false_iff] at hnew
              exact Option.isNone_iff_eq_none.mp hnew
            obtain ⟨g, refs, hg⟩ := h declared m hnone (firstDeclared?_self hname r)
            refine Conversion.ends_bind.mpr ⟨g, refs, hg, ih fun name m' hnone' hm' => ?_⟩
            rw [Table.find?_insert] at hnone'
            split at hnone'
            · cases hnone'
            next hne =>
              refine h name m' hnone' ?_
              rwa [firstDeclared?_skip (by rw [hname]; exact fun h => hne (Option.some.inj h).symm)]

end

/-! ## Objects -/

/-- The guess for an object with the shape: one that can only be called has no use as a value, and
one with too many properties is unknown. -/
def objectGuess (members : List PlacedMember) (shape : List (String × Guess)) : Guess :=
  if members.any (fun m => m.1.isCallable) && shape.isEmpty then .undefined
  else if maxProperties < shape.length then .any
  else .object shape

/-- The conversion gives the guess for an object with the members, of which the first visible one of
each name counts; it has a result if what these stand for has one. -/
structure ObjectFrom (w : World) (conv : Converter) (active : List DeclKey)
    (members : List PlacedMember) (x : Conversion Guess) : Prop where
  guess : ∀ g refs, x = some (g, refs) →
    ∃ shape, TakesFirst w conv active members shape ∧ g = objectGuess members shape
  ends_iff : x.Ends ↔ ∀ name m, firstDeclared? members name = some m →
    (declaredGuess w conv active m).Ends

variable {w : World}

theorem objectFrom_objectOfMembers (conv : Converter) (active : List DeclKey)
    (members : List PlacedMember) :
    ObjectFrom w conv active members (objectOfMembers w conv active members) := by
  have hobject : objectOfMembers w conv active members = (do
      let shape ← shapeOfMembers w conv active [] members
      return objectGuess members shape) := by
    refine congrArg (shapeOfMembers w conv active [] members >>= ·) (funext fun shape => ?_)
    rw [objectGuess]
    split
    · rfl
    · split <;> rfl
  rw [hobject]
  constructor
  · intro g refs h
    obtain ⟨shape, first, more, hshape, hg, -⟩ := Conversion.bind_eq_some_iff.mp h
    cases hg
    exact ⟨shape, takesFirst_shapeOfMembers hshape, rfl⟩
  · refine Conversion.ends_bind.trans ⟨?_, fun h => ?_⟩
    · rintro ⟨shape, refs, hshape, -⟩ name m hm
      have htaken := (takesFirst_shapeOfMembers hshape).taken name
      rw [hm] at htaken
      generalize Table.find? shape name = found at htaken
      cases htaken with
      | declared hg => exact ⟨_, _, hg⟩
    · obtain ⟨shape, refs, hshape⟩ := ends_shapeOfMembers fun name m _ => h name m
      exact ⟨shape, refs, hshape, _, [], rfl⟩

/-! ## Interfaces -/

/-- The members of the interface are collected in the order, which is the one of the rules and has
every interface that this one leads to, once. -/
structure InterfaceRef.Collected (w : World) (i : InterfaceRef) (order : List InterfaceRef) :
    Prop where
  depthFirst : DepthFirst w [] [i] order
  only : ∀ order', DepthFirst w [] [i] order' → order' = order
  once : (order.map InterfaceRef.key).Nodup
  reached : ∀ j, j ∈ order ↔ i.LeadsTo w j
  members : ∀ conv active env args, membersOfInterface w conv active env i.scope i.decls args =
    pure (order.flatMap InterfaceRef.members)

/-- **The members of an interface without type parameters are those of all interfaces that it leads
to, in the order of the rules, whatever circles there are**, and its conversion gives the guess for
an object in which the first visible declaration of each name counts. -/
theorem collected_of_lineal {ss : List Statement} (hw : w.scopes = Scopes.ofStatements ss)
    {i : InterfaceRef} (hi : i.Lineal w) :
    ∃ order, i.Collected w order ∧ ∀ conv active env args, i.key ∉ active →
      ObjectFrom w conv (i.key :: active) (order.flatMap InterfaceRef.members)
        (convertInterface w conv active env i.scope i.decls args) := by
  have hnamed : w.scopes.InterfacesNamed := hw ▸ Scopes.interfacesNamed_ofStatements ss
  obtain ⟨order, horder, hmembers⟩ := InterfaceRef.exists_membersOfInterface hi
  refine ⟨order, ⟨horder, fun _ h => h.unique horder, ?_, fun j => ?_, hmembers⟩, ?_⟩
  · exact horder.nodup List.nodup_nil
  · exact horder.mem_iff hnamed hi.declared
  · intro conv active env args hnew
    have hconvert : convertInterface w conv active env i.scope i.decls args =
        objectOfMembers w conv (i.key :: active) (order.flatMap InterfaceRef.members) := by
      have hcontains : ¬ active.contains (interfaceKey i.scope i.decls) = true :=
        fun h => hnew (List.contains_iff_mem.mp h)
      refine (if_neg hcontains).trans ?_
      change (membersOfInterface w conv (i.key :: active) env i.scope i.decls args >>= _) = _
      rw [hmembers, pure_bind]
      rfl
    rw [hconvert]
    exact objectFrom_objectOfMembers conv (i.key :: active) _

/-- Two interfaces that extend each other, and one in two declarations that extends both of them. -/
def circleInterfaces : List InterfaceDecl :=
  [⟨"Base", [], [.ref ["Left"] []], [.property "id" false (some (.keyword .number)) {}]⟩,
    ⟨"Left", [], [.ref ["Base"] []], [.property "id" false (some (.keyword .string)) {}]⟩,
    ⟨"Both", [], [.ref ["Left"] [], .ref ["Base"] []], [.property "size" false none {}]⟩,
    ⟨"Both", [], [], [.method "turn" true .empty {}]⟩]

/-- Each of them is in the order once. -/
theorem collected_circleInterfaces :
    let ss : List Statement := circleInterfaces.map fun d => .decl (.interfaceDecl d) true
    let w : World := ⟨Scopes.ofStatements ss, []⟩
    let base : InterfaceRef := ⟨0, circleInterfaces.take 1⟩
    let left : InterfaceRef := ⟨0, (circleInterfaces.drop 1).take 1⟩
    let both : InterfaceRef := ⟨0, circleInterfaces.drop 2⟩
    both.Lineal w ∧ both.Collected w [both, left, base] := by
  intro ss w base left both
  have hdeclared : both.Declared w :=
    ⟨_, "Both", rfl, List.mem_cons_of_mem _ List.mem_cons_self⟩
  have hlineal : both.Lineal w := by
    refine hdeclared.lineal ?_
    simp only [← List.isEmpty_iff]
    decide +kernel
  have hbase : base.parents w = [left] := by with_unfolding_all rfl
  have hleft : left.parents w = [base] := by with_unfolding_all rfl
  have hboth : both.parents w = [left, base] := by with_unfolding_all rfl
  have hbelow : DepthFirst w [both, left, base] (base.parents w) [] := by
    rw [hbase]
    exact .seen (by decide +kernel) .done
  have hbelow' : DepthFirst w [both, left] (left.parents w) (base :: ([] ++ [])) := by
    rw [hleft]
    exact .enter (by decide +kernel) hbelow .done
  have habove : DepthFirst w [both] (both.parents w) (left :: ([base] ++ [])) := by
    rw [hboth]
    exact .enter (by decide +kernel) hbelow' (.seen (by decide +kernel) .done)
  have horder : DepthFirst w [] [both] (both :: ([left, base] ++ [])) := .enter nofun habove .done
  obtain ⟨order, hcollected, -⟩ := collected_of_lineal rfl hlineal
  exact ⟨hlineal, hcollected.only _ horder ▸ hcollected⟩

end ApiSurface.Declaration
