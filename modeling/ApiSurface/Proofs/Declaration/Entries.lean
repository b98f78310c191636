/-
# `ApiSurface.Proofs.Declaration.Entries` — what every guess of an entry has

The entry of a function, a method or a constructor is put together from the conversions of its
signatures.  A property that every way of making guesses keeps is then one of its arguments and of
its result (`keeps_entryOf`), and so of all entries that an item or the members of a class bring
(`keeps_itemEntries`, `keeps_classEntries`).  The places of the signatures are where they were
found: in the members of a class, of an interface or of a type literal.
-/
import ApiSurface.Proofs.Declaration.Brought

namespace ApiSurface

/-- Every guess of the entry has the property. -/
structure Entry.Holds (P : Guess → Prop) (e : Entry) : Prop where
  args : ∀ g ∈ e.args, P g
  ret : P e.ret

namespace Declaration

open Guess

variable {w : World} {S : String → Prop} {P : Guess → Prop}

/-! ## One signature -/

section Converting

variable (hP : Hereditary S P) {conv : Converter} (hconv : Keeps w S P conv)

include hP hconv

theorem keeps_paramGuess (env : Env) (p : Param) :
    Yields w S (paramGuess w conv env p) fun g => env.Holds S P → P g := by
  obtain ⟨name, type, optional, rest⟩ := p
  cases type with
  | none =>
      rw [paramGuess]
      exact .pure fun _ => hP.any
  | some ty =>
      rw [paramGuess]
      split
      · split
        · exact hconv [] env _
        · exact .pure fun _ => hP.any
      · split
        · exact keeps_convertUnion hP hconv [] env ty true
        · exact hconv [] env ty

theorem keeps_bindBounds (params : List TypeParam) :
    ∀ env, Yields w S (bindBounds conv env params) fun env' =>
      env.Holds S P → env'.Holds S P := by
  induction params with
  | nil =>
      intro env
      rw [bindBounds]
      exact .pure id
  | cons p ps ih =>
      intro env
      have hrest : ∀ g, Yields w S
          (bindBounds conv { env with bindings := Table.insert env.bindings p.name g } ps)
          fun env' => (env.Holds S P → P g) → env.Holds S P → env'.Holds S P := by
        refine fun g => (ih _).imp fun env' h hg henv => h ⟨fun b hb => ?_, henv.this⟩
        rcases Table.mem_insert hb with rfl | hb
        · exact hg henv
        · exact henv.bindings b hb
      rw [bindBounds]
      split
      · exact .bind (hconv [] env _) hrest
      · exact .bind (.pure fun _ => hP.any) hrest

/-- The result of a signature is the one that is given, if one is. -/
theorem keeps_convertSig (ret? : Option Guess) (s : PlacedSig) :
    Yields w S (convertSig w conv ret? s) fun r =>
      s.2.Holds S P → (∀ ret, ret? = some ret → P ret) →
        (∀ g ∈ r.1, P g) ∧ P r.2 ∧ ∀ ret, ret? = some ret → r.2 = ret := by
  refine .bind (keeps_bindBounds hP hconv s.1.typeParams s.2) fun env => ?_
  refine .bind (.mapM fun p _ => keeps_paramGuess hP hconv env p) fun args => ?_
  split
  next ret =>
    refine .bind (P := fun g => g = ret) (.pure rfl) fun g => .pure ?_
    rintro rfl hargs henv hs hret
    exact ⟨fun g hg => hargs.2 g hg (henv hs), hret g rfl, fun _ h => Option.some.inj h⟩
  next ty _ =>
    refine .bind (hconv [] env ty) fun g => .pure ?_
    intro hg hargs henv hs hret
    exact ⟨fun g hg => hargs.2 g hg (henv hs), hg (henv hs), nofun⟩
  next =>
    refine .bind (P := P) (.pure hP.any) fun g => .pure ?_
    intro hg hargs henv hs hret
    exact ⟨fun g hg => hargs.2 g hg (henv hs), hg, nofun⟩

end Converting

/-! ## Several signatures -/

theorem Hereditary.of_guessesAt (hP : Hereditary S P) {lists : List (List Guess)}
    (h : ∀ l ∈ lists, ∀ g ∈ l, P g) (i : Nat) : ∀ g ∈ guessesAt i lists, P g := by
  intro g hg
  obtain ⟨l, hl, rfl⟩ := List.mem_map.mp hg
  rw [List.getD_eq_getElem?_getD]
  cases hget : l[i]? with
  | none => exact hP.undefined
  | some g => exact h l hl g (List.mem_of_getElem? hget)

theorem Hereditary.of_combined (hP : Hereditary S P) {sigs : List (List Guess × Guess)}
    (hargs : ∀ r ∈ sigs, ∀ g ∈ r.1, P g) (hret : ∀ r ∈ sigs, P r.2) :
    (∀ g ∈ (combined sigs).1, P g) ∧ P (combined sigs).2 := by
  unfold combined
  split
  next one => exact ⟨hargs one List.mem_cons_self, hret one List.mem_cons_self⟩
  · constructor
    · intro g hg
      obtain ⟨i, -, rfl⟩ := List.mem_map.mp hg
      refine hP.union (hP.of_guessesAt (fun l hl => ?_) i)
      obtain ⟨r, hr, rfl⟩ := List.mem_map.mp hl
      exact hargs r hr
    · refine hP.union fun g hg => ?_
      obtain ⟨r, hr, rfl⟩ := List.mem_map.mp hg
      exact hret r hr

section Converting

variable (hP : Hereditary S P) {conv : Converter} (hconv : Keeps w S P conv)

include hP hconv

theorem keeps_convertSigs (ret? : Option Guess) (sigs : List PlacedSig) :
    Yields w S (sigs.mapM (convertSig w conv ret?)) fun rs => AllPlaced S P sigs →
      (∀ ret, ret? = some ret → P ret) → rs.length = sigs.length ∧
        (∀ r ∈ rs, ∀ g ∈ r.1, P g) ∧ (∀ r ∈ rs, P r.2) ∧
          ∀ ret, ret? = some ret → ∀ r ∈ rs, r.2 = ret := by
  refine (Yields.mapM (P := fun r => AllPlaced S P sigs → (∀ ret, ret? = some ret → P ret) →
    (∀ g ∈ r.1, P g) ∧ P r.2 ∧ ∀ ret, ret? = some ret → r.2 = ret)
    fun s hs => (keeps_convertSig hP hconv ret? s).imp fun r hr hsigs => hr (hsigs s hs)).imp ?_
  rintro rs ⟨hlength, hrs⟩ hsigs hret
  exact ⟨hlength, fun r hr => (hrs r hr hsigs hret).1, fun r hr => (hrs r hr hsigs hret).2.1,
    fun ret heq r hr => (hrs r hr hsigs hret).2.2 ret heq⟩

theorem keeps_entryOf (sigs : List PlacedSig) (receiver : Option Guess) (convention : Convention)
    (ret? : Option Guess) :
    Yields w S (entryOf w conv sigs receiver convention ret?) fun e => AllPlaced S P sigs →
      (∀ g, receiver = some g → P g) → (∀ ret, ret? = some ret → P ret) → e.Holds P := by
  refine .bind (keeps_convertSigs hP hconv ret? sigs) fun rs => .pure ?_
  intro hrs hsigs hreceiver hret
  obtain ⟨-, hargs, hrets, -⟩ := hrs hsigs hret
  obtain ⟨hargs', hret'⟩ := hP.of_combined hargs hrets
  exact ⟨List.forall_mem_append.mpr ⟨fun g hg => hreceiver g (Option.mem_toList.mp hg), hargs'⟩,
    hret'⟩

/-! ## The members of a class -/

theorem keeps_classEnv (c : ClassRef) :
    Yields w S (classEnv w conv c) fun env => S (w.className c) → env.Holds S P := by
  refine .bind (keeps_envInside hP hconv [] { scope := c.scope } c.scope _ []) fun env => .pure ?_
  intro henv hname
  refine ⟨(henv (holds_root _)).bindings, ?_⟩
  rintro _ ⟨rfl⟩
  exact hname

end Converting

/-- The signatures in every group stand at places where the property holds. -/
def GroupsHold (S : String → Prop) (P : Guess → Prop)
    (groups : List (String × List PlacedSig)) : Prop :=
  ∀ g ∈ groups, AllPlaced S P g.2

theorem GroupsHold.addToGroup {groups : List (String × List PlacedSig)}
    (h : GroupsHold S P groups) (name : String) {s : PlacedSig} (hs : s.2.Holds S P) :
    GroupsHold S P (addToGroup groups name s) := by
  induction groups with
  | nil => exact List.forall_mem_singleton.mpr (List.forall_mem_singleton.mpr hs)
  | cons g groups ih =>
      obtain ⟨hg, hgroups⟩ := List.forall_mem_cons.mp h
      obtain ⟨n, sigs⟩ := g
      rw [Declaration.addToGroup]
      split
      · exact List.forall_mem_cons.mpr
          ⟨AllPlaced.append hg (List.forall_mem_singleton.mpr hs), hgroups⟩
      · exact List.forall_mem_cons.mpr ⟨hg, ih hgroups⟩

theorem AllPlaced.methodGroups {members : List PlacedMember} (h : AllPlaced S P members)
    (statics : Bool) : GroupsHold S P (methodGroups members statics) := by
  unfold Declaration.methodGroups
  have hgroups : GroupsHold S P [] := fun _ hg => absurd hg List.not_mem_nil
  -- The groups made so far are general in the induction.
  generalize ([] : List (String × List PlacedSig)) = groups at hgroups ⊢
  induction members generalizing groups with
  | nil => exact hgroups
  | cons m members ih =>
      obtain ⟨hm, hms⟩ := List.forall_mem_cons.mp h
      refine ih hms _ ?_
      beta_reduce
      split
      · exact hgroups.addToGroup _ hm
      · exact hgroups

theorem AllPlaced.constructorSigs {members : List PlacedMember} (h : AllPlaced S P members) :
    AllPlaced S P (constructorSigs members) := by
  intro s hs
  obtain ⟨m, hm, heq⟩ := List.mem_filterMap.mp hs
  split at heq
  · cases heq
    exact h m hm
  · cases heq

theorem AllPlaced.callSigs {members : List PlacedMember} (h : AllPlaced S P members) :
    AllPlaced S P (callSigs members) := by
  intro s hs
  obtain ⟨m, hm, heq⟩ := List.mem_filterMap.mp hs
  split at heq
  · cases heq
    exact h m hm
  · cases heq

section Converting

variable (hP : Hereditary S P) {conv : Converter} (hconv : Keeps w S P conv)

include hP hconv

theorem keeps_instanceMethods (env : Env) (tys : List TypeExpr) :
    ∀ methods, Yields w S (instanceMethods w conv env methods tys)
      fun groups => env.Holds S P → GroupsHold S P methods → GroupsHold S P groups := by
  induction tys with
  | nil =>
      intro methods
      rw [instanceMethods]
      exact .pure fun _ h => h
  | cons ty tys ih =>
      intro methods
      rw [instanceMethods]
      refine .bind (keeps_membersOf hP hconv env ty) fun ms => ?_
      cases ms with
      | none => exact (ih methods).imp fun groups h _ henv hms => h henv hms
      | some members =>
          refine (ih _).imp fun groups h hmembers henv hms => h henv ?_
          refine List.forall_mem_append.mpr ⟨hms, fun g hg => ?_⟩
          exact (hmembers henv members rfl).methodGroups false g (List.mem_filter.mp hg).1

/-! ## What items and classes bring -/

theorem keeps_freeEntries (groups : List (String × List PlacedSig)) :
    Yields w S (freeEntries w conv groups) fun es =>
      GroupsHold S P groups → ∀ p ∈ es, p.2.Holds P := by
  refine (Yields.mapM (P := fun p => GroupsHold S P groups → p.2.Holds P) fun g hg => ?_).imp
    fun es hes hgroups p hp => hes.2 p hp hgroups
  refine .bind (keeps_entryOf hP hconv g.2 none .free none) fun e => .pure ?_
  exact fun he hgroups => he (hgroups g hg) nofun nofun

theorem keeps_methodEntries (name : String) (groups : List (String × List PlacedSig)) :
    Yields w S (methodEntries w conv name groups) fun es =>
      S name → GroupsHold S P groups → ∀ p ∈ es, p.2.Holds P := by
  refine (Yields.mapM (P := fun p => S name → GroupsHold S P groups → p.2.Holds P)
    fun g hg => ?_).imp fun es hes hname hgroups p hp => hes.2 p hp hname hgroups
  refine .bind (keeps_entryOf hP hconv g.2 (some (.ofClass name)) .method none) fun e => .pure ?_
  intro he hname hgroups
  exact he (hgroups g (List.mem_filter.mp hg).1)
    (fun _ h => Option.some.inj h ▸ hP.ofClass hname) nofun

theorem keeps_declaredConstructor (name : String) (sigs : List PlacedSig) :
    Yields w S (declaredConstructor w conv name sigs) fun e? =>
      S name → AllPlaced S P sigs → ∀ e, e? = some e → e.Holds P := by
  unfold declaredConstructor
  split
  · exact .pure fun _ _ _ h => nomatch h
  · refine .bind (keeps_entryOf hP hconv sigs none .constructor (some (.ofClass name)))
      fun e => .pure ?_
    rintro he hname hsigs _ ⟨rfl⟩
    exact he hsigs nofun fun _ h => Option.some.inj h ▸ hP.ofClass hname

end Converting

/-- Every guess that a class brings of its own has the property. -/
structure ClassEntries.Holds (P : Guess → Prop) (es : ClassEntries) : Prop where
  constructor : ∀ e, es.constructor = some e → e.Holds P
  methods : ∀ p ∈ es.methods, p.2.Holds P
  statics : ∀ p ∈ es.statics, p.2.Holds P

section Converting

variable (hP : Hereditary S P) {conv : Converter} (hconv : Keeps w S P conv)

include hP hconv

theorem keeps_classEntries (c : ClassRef) :
    Yields w S (classEntries w conv c) fun es => S (w.className c) → es.Holds P := by
  refine .bind (keeps_classEnv hP hconv c) fun env => ?_
  refine .bind (keeps_declaredConstructor hP hconv _ _) fun constructor => ?_
  refine .bind (keeps_instanceMethods hP hconv env c.decl.interfaces _) fun methods => ?_
  refine .bind (keeps_methodEntries hP hconv _ methods) fun entries => ?_
  refine .bind (keeps_freeEntries hP hconv _) fun statics => .pure ?_
  intro hstatics hentries hmethods hconstructor henv hname
  have hmembers := allPlaced_placed (henv hname) c.decl.members
  refine ⟨hconstructor hname hmembers.constructorSigs,
    hentries hname (hmethods (henv hname) (hmembers.methodGroups false)), hstatics fun g hg => ?_⟩
  obtain ⟨group, hgroup, rfl⟩ := List.mem_map.mp hg
  exact hmembers.methodGroups true group (List.mem_filter.mp hgroup).1

omit hP hconv in
theorem groupsHold_functionGroup (scope : Nat) (sigs : List FnSig) (name : String) :
    GroupsHold S P (functionGroup scope sigs name) := by
  refine List.forall_mem_singleton.mpr fun s hs => ?_
  obtain ⟨sig, -, rfl⟩ := List.mem_map.mp hs
  exact holds_root scope

omit hP hconv in
theorem groupsHold_memberFunctions (name memberPrefix : String) {ms : Option (List PlacedMember)}
    (h : ∀ l, ms = some l → AllPlaced S P l) :
    GroupsHold S P (memberFunctions name memberPrefix ms) := by
  cases ms with
  | none => exact fun _ hg => absurd hg List.not_mem_nil
  | some members =>
      have hmembers := h members rfl
      refine List.forall_mem_append.mpr ⟨fun g hg => ?_, ?_⟩
      · obtain ⟨group, hgroup, rfl⟩ := List.mem_map.mp hg
        exact hmembers.methodGroups false group hgroup
      · split
        · exact List.forall_mem_singleton.mpr hmembers.callSigs
        · exact fun _ hg => absurd hg List.not_mem_nil

theorem keeps_itemFunctions (item : SurfaceItem) :
    Yields w S (itemFunctions w conv item) (GroupsHold S P) := by
  cases item with
  | ofClass => exact .pure fun _ hg => absurd hg List.not_mem_nil
  | ofFunction scope sigs name => exact .pure (groupsHold_functionGroup scope sigs name)
  | ofVariable scope type name memberPrefix =>
      show Yields w S (variableFunctions w conv scope type name memberPrefix) _
      unfold variableFunctions
      split
      · exact .pure (groupsHold_functionGroup scope _ name)
      · split
        · refine .pure ?_
          split
          · exact groupsHold_functionGroup _ _ name
          · exact fun _ hg => absurd hg List.not_mem_nil
        · exact .pure fun _ hg => absurd hg List.not_mem_nil
      · refine .bind (keeps_membersOf hP hconv { scope := scope } type) fun ms => .pure ?_
        exact fun hms => groupsHold_memberFunctions name memberPrefix (hms (holds_root scope))

theorem keeps_itemEntries (item : SurfaceItem) :
    Yields w S (itemEntries w conv item) fun es => ∀ p ∈ es, p.2.Holds P :=
  .bind (keeps_itemFunctions hP hconv item) fun groups =>
    (keeps_freeEntries hP hconv groups).imp fun _ hes hgroups => hes hgroups

end Converting

end Declaration

end ApiSurface
