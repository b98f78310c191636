/-
# `ApiSurface.Proofs.Declaration.Brought` — what items and classes bring to a schema

Emission takes turns between converting a signature and writing its entry.  No conversion reads the
schema, so all of them may be made first: an item or a class brings entries, which one conversion
makes, and what it does to the schema is to have them written (`emitItem_eq`, `emitMembers_eq`).
What a class brings depends on the schema in one place only: without a constructor of its own it
takes over the arguments of its parent's, and at the end the parent's methods.
-/
import ApiSurface.Proofs.Declaration.Hereditary
import Mathlib.Data.List.Induction
import Mathlib.Data.List.Nodup

namespace ApiSurface

/-- Writes entries one after the other. -/
def Schema.writes (s : Schema) (es : List (String × Entry)) : Schema :=
  es.foldl (fun s p => s.insert p.1 p.2) s

namespace Declaration

/-- Makes a conversion and changes the schema by what it gives. -/
def Derive.brings (w : World) (x : Conversion (Schema → Schema)) : Derive Unit := fun d =>
  match x with
  | none => none
  | some (change, refs) =>
    let new := refs.filter fun r => !d.emitted.contains (w.className r)
    some ((), { d with schema := change d.schema, pending := new.reverse ++ d.pending })

/-- The entries of functions, each under its name. -/
def freeEntries (w : World) (conv : Converter) (groups : List (String × List PlacedSig)) :
    Conversion (List (String × Entry)) :=
  groups.mapM fun g => do return (g.1, ← entryOf w conv g.2 none .free none)

/-- The entries of the methods of a class.  Members that every object has are passed over. -/
def methodEntries (w : World) (conv : Converter) (name : String)
    (groups : List (String × List PlacedSig)) : Conversion (List (String × Entry)) :=
  (groups.filter fun g => !Standard.isMember g.1).mapM fun g => do
    return (name ++ "." ++ g.1, ← entryOf w conv g.2 (some (.ofClass name)) .method none)

/-- The entry of the constructor that a class declares, if it declares one. -/
def declaredConstructor (w : World) (conv : Converter) (name : String) (sigs : List PlacedSig) :
    Conversion (Option Entry) :=
  if sigs.isEmpty then pure none
  else do return some (← entryOf w conv sigs none .constructor (some (.ofClass name)))

/-- What a class brings of its own. -/
structure ClassEntries where
  /-- The constructor that it declares. -/
  constructor : Option Entry
  /-- The names of its methods, those from interfaces and those that are passed over included. -/
  defined : List String
  methods : List (String × Entry)
  statics : List (String × Entry)

/-- The conversion that makes what a class brings. -/
def classEntries (w : World) (conv : Converter) (c : ClassRef) : Conversion ClassEntries := do
  let name := w.className c
  let env ← classEnv w conv c
  let members := placed c.decl.members env
  let constructor ← declaredConstructor w conv name (constructorSigs members)
  let methods ← instanceMethods w conv env (methodGroups members false) c.decl.interfaces
  let defined := methods.map Prod.fst
  let entries ← methodEntries w conv name methods
  let statics := (methodGroups members true).filter fun g =>
    g.1 != "prototype" && !defined.contains g.1
  return ⟨constructor, defined, entries,
    ← freeEntries w conv (statics.map fun g => (name ++ "." ++ g.1, g.2))⟩

namespace ClassEntries

/-- The entry of the constructor; without one of its own a class constructs like its parent. -/
def constructorIn (es : ClassEntries) (name : String) (parent : Option String) (s : Schema) :
    Entry :=
  es.constructor.getD
    { args := (parent.map (constructorArgs s)).getD []
      ret := .ofClass name
      convention := .constructor }

/-- Writes what a class brings of its own. -/
def writesOwn (es : ClassEntries) (name : String) (parent : Option String) (s : Schema) : Schema :=
  ((s.insert name (es.constructorIn name parent s)).writes es.methods).writes es.statics

/-- Writes what a class brings, and then the methods of its parent. -/
def writesAll (es : ClassEntries) (name : String) (parent : Option String) (s : Schema) : Schema :=
  let own := es.writesOwn name parent s
  match parent with
  | some p => (inheritedMethods own p es.defined).foldl (inherit name (.ofClass name)) own
  | none => own

end ClassEntries

/-- Functions with the place that they are declared at, under one name. -/
def functionGroup (scope : Nat) (sigs : List FnSig) (name : String) :
    List (String × List PlacedSig) :=
  [(name, sigs.map fun s => (s, { scope := scope : Env }))]

/-- The functions that are members of a variable, and the variable itself if it can be called. -/
def memberFunctions (name memberPrefix : String) :
    Option (List PlacedMember) → List (String × List PlacedSig)
  | none => []
  | some members =>
    let calls := callSigs members
    (methodGroups members false).map (fun g => (memberPrefix ++ g.1, g.2)) ++
      if !calls.isEmpty then [(name, calls)] else []

/-- The functions of a variable by the names of their entries. -/
def variableFunctions (w : World) (conv : Converter) (scope : Nat) (type : TypeExpr)
    (name memberPrefix : String) : Conversion (List (String × List PlacedSig)) :=
  match type with
  | .function sig => pure (functionGroup scope [sig] name)
  | .query path =>
    match w.scopes.valueNamed? scope path with
    | some v =>
      pure (if v.ofClass.isNone && !v.functions.isEmpty then functionGroup v.scope v.functions name
        else [])
    | none => pure []
  | type => do return memberFunctions name memberPrefix (← membersOf w conv { scope := scope } type)

/-- The functions of an item by the names of their entries. -/
def itemFunctions (w : World) (conv : Converter) :
    SurfaceItem → Conversion (List (String × List PlacedSig))
  | .ofClass .. => pure []
  | .ofFunction scope sigs name => pure (functionGroup scope sigs name)
  | .ofVariable scope type name memberPrefix => variableFunctions w conv scope type name memberPrefix

/-- The conversion that makes what an item brings that is not a class. -/
def itemEntries (w : World) (conv : Converter) (item : SurfaceItem) :
    Conversion (List (String × Entry)) := do
  freeEntries w conv (← itemFunctions w conv item)

variable {w : World} {conv : Converter}

/-! ## Conversion first -/

namespace Derive

theorem pure_eq_brings (w : World) : (pure () : Derive Unit) = brings w (pure id) :=
  rfl

theorem insert_eq_brings (w : World) (name : String) (e : Entry) :
    Derive.insert name e = brings w (pure fun s => s.insert name e) :=
  rfl

theorem converted_brings {α : Type} (x : Conversion α) (f : α → Conversion (Schema → Schema)) :
    (converted w x >>= fun a => brings w (f a)) = brings w (x >>= f) := by
  funext d
  cases x with
  | none => rfl
  | some p =>
      obtain ⟨a, refs⟩ := p
      simp only [Bind.bind, StateT.bind, converted, Option.bind]
      cases f a with
      | none => rfl
      | some q =>
          obtain ⟨change, more⟩ := q
          simp only [brings, List.filter_append, List.reverse_append, List.append_assoc]

theorem brings_brings (x y : Conversion (Schema → Schema)) :
    (brings w x >>= fun _ => brings w y) =
      brings w (x >>= fun first => y >>= fun last => pure (last ∘ first)) := by
  funext d
  cases x with
  | none => rfl
  | some p =>
      obtain ⟨first, refs⟩ := p
      cases y with
      | none => rfl
      | some q =>
          obtain ⟨last, more⟩ := q
          show some _ = some _
          simp only [List.append_nil, List.filter_append, List.reverse_append, List.append_assoc]
          rfl

/-- A change that is made with a look at the schema as it is then. -/
theorem schema_brings (f : Schema → Schema → Schema) (x : Conversion (Schema → Schema)) :
    (schema >>= fun s => brings w (pure (f s)) >>= fun _ => brings w x) =
      brings w (x >>= fun last => pure fun s => last (f s s)) := by
  funext d
  cases x with
  | none => rfl
  | some p =>
      show some _ = some _
      rw [List.append_nil]
      rfl

end Derive

theorem emitFunctions_eq (memberPrefix : String) (groups : List (String × List PlacedSig)) :
    emitFunctions w conv memberPrefix groups = Derive.brings w
      ((fun es s => s.writes es) <$>
        freeEntries w conv (groups.map fun g => (memberPrefix ++ g.1, g.2))) := by
  induction groups with
  | nil => rfl
  | cons g groups ih =>
      obtain ⟨member, sigs⟩ := g
      rw [emitFunctions, ih]
      simp only [Derive.insert_eq_brings w, Derive.brings_brings, Derive.converted_brings,
        List.map_cons, freeEntries, List.mapM_cons, map_eq_pure_bind, bind_assoc, pure_bind]
      rfl

theorem emitMethods_eq (name : String) (groups : List (String × List PlacedSig)) :
    emitMethods w conv name (.ofClass name) groups = Derive.brings w
      ((fun es s => s.writes es) <$> methodEntries w conv name groups) := by
  induction groups with
  | nil => rfl
  | cons g groups ih =>
      obtain ⟨member, sigs⟩ := g
      rw [emitMethods, ih]
      cases hmember : Standard.isMember member with
      | true => simp [methodEntries, hmember]
      | false =>
          simp only [Bool.not_false, if_true, Derive.insert_eq_brings w, Derive.brings_brings,
            Derive.converted_brings, methodEntries, List.filter_cons, hmember, List.mapM_cons,
            map_eq_pure_bind, bind_assoc, pure_bind]
          rfl

/-- The constructor is the only entry that is made with a look at the schema. -/
theorem constructorEntry_insert (name : String) (parent : Option String) (sigs : List PlacedSig)
    (x : Conversion (Schema → Schema)) :
    (constructorEntry w conv (.ofClass name) parent sigs >>= fun e =>
        Derive.insert name e >>= fun _ => Derive.brings w x) =
      Derive.brings w (do
        let constructor ← declaredConstructor w conv name sigs
        let change ← x
        return fun s => change (s.insert name (ClassEntries.constructorIn ⟨constructor, [], [], []⟩
          name parent s))) := by
  unfold constructorEntry declaredConstructor
  cases sigs.isEmpty with
  | true =>
      simp only [if_true, bind_assoc, pure_bind]
      exact Derive.schema_brings (fun s s' => s'.insert name
        { args := (parent.map (constructorArgs s)).getD [], ret := .ofClass name,
          convention := .constructor }) x
  | false =>
      simp only [Bool.false_eq_true, if_false, Derive.insert_eq_brings w, Derive.brings_brings,
        Derive.converted_brings, bind_assoc, pure_bind]
      rfl

theorem emitInherited_eq (w : World) (name : String) (receiver : Guess) (defined : List String)
    (parent : String) :
    emitInherited name receiver defined parent = Derive.brings w
      (pure fun s => (inheritedMethods s parent defined).foldl (inherit name receiver) s) :=
  rfl

/-- **The members of a class are converted first and then written.** -/
theorem emitMembers_eq (c : ClassRef) (parent : Option String) :
    emitMembers w conv c parent = Derive.brings w
      ((fun es s => es.writesAll (w.className c) parent s) <$> classEntries w conv c) := by
  unfold emitMembers classEntries
  cases parent with
  | none =>
      simp only [emitMethods_eq, emitFunctions_eq, Derive.pure_eq_brings w, Derive.brings_brings,
        Derive.converted_brings, constructorEntry_insert, map_eq_pure_bind, bind_assoc, pure_bind]
      rfl
  | some p =>
      simp only [emitMethods_eq, emitFunctions_eq, emitInherited_eq w, Derive.brings_brings,
        Derive.converted_brings, constructorEntry_insert, map_eq_pure_bind, bind_assoc, pure_bind]
      rfl

theorem freeEntries_append (groups groups' : List (String × List PlacedSig)) :
    freeEntries w conv (groups ++ groups') =
      (freeEntries w conv groups >>= fun es =>
        freeEntries w conv groups' >>= fun es' => pure (es ++ es')) := by
  unfold freeEntries
  rw [List.mapM_append]

theorem emitFunction_eq (scope : Nat) (sigs : List FnSig) (name : String) :
    emitFunction w conv scope sigs name = Derive.brings w ((fun es s => s.writes es) <$>
      freeEntries w conv (functionGroup scope sigs name)) := by
  unfold emitFunction freeEntries functionGroup
  simp only [Derive.insert_eq_brings w, Derive.converted_brings, List.mapM_cons, List.mapM_nil,
    map_eq_pure_bind, bind_assoc, pure_bind]
  rfl

theorem emitMemberFunctions_eq (name memberPrefix : String) (members : Option (List PlacedMember)) :
    (match members with
      | none => pure ()
      | some members => do
        emitFunctions w conv memberPrefix (methodGroups members false)
        let calls := callSigs members
        if !calls.isEmpty then
          let e ← Derive.converted w (entryOf w conv calls none .free none)
          Derive.insert name e) =
      Derive.brings w ((fun es s => s.writes es) <$>
        freeEntries w conv (memberFunctions name memberPrefix members)) := by
  cases members with
  | none => rfl
  | some members =>
      rw [memberFunctions, freeEntries_append]
      simp only [emitFunctions_eq]
      split
      · simp only [Derive.insert_eq_brings w, Derive.converted_brings, Derive.brings_brings,
          freeEntries, List.mapM_cons, List.mapM_nil, map_eq_pure_bind, bind_assoc, pure_bind,
          Schema.writes, List.foldl_append]
        rfl
      · simp only [Derive.pure_eq_brings w, Derive.brings_brings, freeEntries, List.mapM_nil,
          map_eq_pure_bind, bind_assoc, pure_bind, List.append_nil]
        rfl

theorem emitVariable_eq (scope : Nat) (type : TypeExpr) (name memberPrefix : String) :
    emitVariable w conv scope type name memberPrefix =
      Derive.brings w ((fun es s => s.writes es) <$>
        (variableFunctions w conv scope type name memberPrefix >>= freeEntries w conv)) := by
  unfold emitVariable
  split
  next sig => rw [variableFunctions, pure_bind, emitFunction_eq]
  next path =>
    rw [variableFunctions]
    cases w.scopes.valueNamed? scope path with
    | none => rfl
    | some v =>
        simp only [pure_bind]
        split
        · rw [emitFunction_eq]
        · rfl
  next type hfunction hquery =>
    rw [variableFunctions]
    · simp only [bind_assoc, pure_bind, map_bind, ← Derive.converted_brings]
      exact bind_congr fun members => emitMemberFunctions_eq name memberPrefix members
    · exact hfunction
    · exact hquery

/-- **The entries of an item that is not a class are converted first and then written.** -/
theorem emitItem_eq {item : SurfaceItem}
    (hitem : ∀ scope decl name, item ≠ .ofClass scope decl name) :
    emitItem w conv item = Derive.brings w
      ((fun es s => s.writes es) <$> itemEntries w conv item) := by
  unfold itemEntries
  cases item with
  | ofClass scope decl name => exact absurd rfl (hitem scope decl name)
  | ofFunction scope sigs name => rw [emitItem, itemFunctions, pure_bind, emitFunction_eq]
  | ofVariable scope type name memberPrefix => exact emitVariable_eq scope type name memberPrefix

/-- A class is emitted as one that is referred to, and any other item is converted and written. -/
theorem class_or_brings_of_emitItem {item : SurfaceItem} {d d' : Deriver} {u : Unit}
    (h : emitItem w conv item d = some (u, d')) :
    (∃ scope decl name, item = .ofClass scope decl name ∧
      emitClass w conv (w.classCount + 1) ⟨scope, decl⟩ d = some (u, d')) ∨
    (∀ scope decl name, item ≠ .ofClass scope decl name) ∧
      Derive.brings w ((fun es s => s.writes es) <$> itemEntries w conv item) d = some (u, d') := by
  by_cases hclass : ∃ scope decl name, item = .ofClass scope decl name
  · obtain ⟨scope, decl, name, rfl⟩ := hclass
    exact Or.inl ⟨scope, decl, name, rfl, h⟩
  · have hother : ∀ scope decl name, item ≠ .ofClass scope decl name :=
      fun scope decl name h => hclass ⟨scope, decl, name, h⟩
    rw [emitItem_eq hother] at h
    exact Or.inr ⟨hother, h⟩

/-! ## What a conversion gives -/

namespace Conversion

variable {α β : Type}

/-- The conversion comes to an end with the value, whatever it refers to. -/
def Gives (x : Conversion α) (a : α) : Prop :=
  ∃ refs, x = some (a, refs)

/-- The conversion comes to an end and refers to the class on the way. -/
def Refers (x : Conversion α) (r : ClassRef) : Prop :=
  ∃ a refs, x = some (a, refs) ∧ r ∈ refs

theorem gives_bind {x : Conversion α} {f : α → Conversion β} {b : β} (h : (x >>= f).Gives b) :
    ∃ a, x.Gives a ∧ (f a).Gives b := by
  obtain ⟨refs, heq⟩ := h
  obtain ⟨a, first, more, hx, hf, -⟩ := bind_eq_some_iff.mp heq
  exact ⟨a, ⟨first, hx⟩, more, hf⟩

theorem gives_pure {a b : α} (h : (pure a : Conversion α).Gives b) : b = a := by
  obtain ⟨refs, heq⟩ := h
  cases heq
  rfl

theorem Gives.unique {x : Conversion α} {a b : α} (h : x.Gives a) (h' : x.Gives b) : a = b := by
  obtain ⟨refs, heq⟩ := h
  obtain ⟨refs', heq'⟩ := h'
  cases heq.symm.trans heq'
  rfl

/-- Entries that are made one after the other, each under its name. -/
theorem gives_named {name : α → String} {x : α → Conversion Entry} {l : List α} :
    ∀ {es}, (l.mapM fun a => do return (name a, ← x a)).Gives es →
      es.map Prod.fst = l.map name ∧ ∀ p ∈ es, ∃ a ∈ l, (x a).Gives p.2 := by
  induction l with
  | nil =>
      intro es h
      rw [gives_pure h]
      exact ⟨rfl, nofun⟩
  | cons a l ih =>
      intro es h
      rw [List.mapM_cons] at h
      obtain ⟨first, hfirst, h⟩ := gives_bind h
      obtain ⟨rest, hrest, h⟩ := gives_bind h
      obtain ⟨e, he, hfirst⟩ := gives_bind hfirst
      obtain rfl := gives_pure h
      obtain rfl := gives_pure hfirst
      obtain ⟨hnames, hmade⟩ := ih hrest
      refine ⟨congrArg (name a :: ·) hnames, List.forall_mem_cons.mpr ⟨⟨a, List.mem_cons_self, he⟩,
        fun p hp => ?_⟩⟩
      obtain ⟨a', ha', hp⟩ := hmade p hp
      exact ⟨a', List.mem_cons_of_mem _ ha', hp⟩

end Conversion

open Conversion

theorem entryOf_convention {sigs : List PlacedSig} {receiver : Option Guess}
    {convention : Convention} {ret? : Option Guess} {e : Entry}
    (h : (entryOf w conv sigs receiver convention ret?).Gives e) : e.convention = convention := by
  obtain ⟨sigs', -, h⟩ := gives_bind h
  rw [gives_pure h]

/-! ## Groups of members -/

theorem map_fst_addToGroup (groups : List (String × List PlacedSig)) (name : String)
    (s : PlacedSig) : (addToGroup groups name s).map Prod.fst =
      if name ∈ groups.map Prod.fst then groups.map Prod.fst
      else groups.map Prod.fst ++ [name] := by
  induction groups with
  | nil => rfl
  | cons g groups ih =>
      obtain ⟨n, sigs⟩ := g
      rw [addToGroup]
      by_cases hn : n = name
      · simp [hn]
      · have hne : name ≠ n := fun h => hn h.symm
        rw [if_neg (by simpa using hn), List.map_cons, ih]
        simp only [List.map_cons, List.mem_cons, hne, false_or]
        split <;> rfl

theorem methodGroups_append_singleton (members : List PlacedMember) (m : PlacedMember)
    (statics : Bool) : methodGroups (members ++ [m]) statics =
      (methodSig? statics m.1).elim (methodGroups members statics) fun p =>
        addToGroup (methodGroups members statics) p.1 (p.2, m.2) := by
  rw [methodGroups, List.foldl_append, List.foldl_cons, List.foldl_nil]
  cases methodSig? statics m.1 with
  | none => rfl
  | some p => rfl

/-- Members are grouped under their names, and no name has two groups. -/
theorem methodGroups_spec (members : List PlacedMember) (statics : Bool) :
    ((methodGroups members statics).map Prod.fst).Nodup ∧
      ∀ n, n ∈ (methodGroups members statics).map Prod.fst ↔
        ∃ m ∈ members, ∃ sig, methodSig? statics m.1 = some (n, sig) := by
  -- The groups are made from left to right, so the induction adds a member at the end.
  induction members using List.reverseRecOn with
  | nil =>
      refine ⟨List.nodup_nil, fun n => ⟨fun hn => absurd hn List.not_mem_nil, ?_⟩⟩
      rintro ⟨m, hm, -⟩
      exact absurd hm List.not_mem_nil
  | append_singleton members m ih =>
      rw [methodGroups_append_singleton]
      cases hsig : methodSig? statics m.1 with
      | none =>
          refine ⟨ih.1, fun n => (ih.2 n).trans ?_⟩
          simp [or_and_right, exists_or, hsig]
      | some p =>
          obtain ⟨name, sig⟩ := p
          rw [Option.elim_some, map_fst_addToGroup]
          constructor
          · split
            · exact ih.1
            next hnew =>
              refine List.nodup_append.mpr ⟨ih.1, List.nodup_singleton _, ?_⟩
              intro a ha b hb
              rw [List.mem_singleton.mp hb]
              exact fun h => hnew (h ▸ ha)
          · intro n
            have hn : n ∈ (if name ∈ (methodGroups members statics).map Prod.fst then
                (methodGroups members statics).map Prod.fst
                else (methodGroups members statics).map Prod.fst ++ [name]) ↔
                n ∈ (methodGroups members statics).map Prod.fst ∨ n = name := by
              split
              next h => exact ⟨Or.inl, fun hn => hn.elim id fun hn => hn ▸ h⟩
              next => simp only [List.mem_append, List.mem_singleton]
            rw [hn, ih.2 n]
            simp [or_and_right, exists_or, hsig, eq_comm]

/-- Methods of interfaces come after those of the class, under names that the class does not
define. -/
theorem gives_instanceMethods {env : Env} (tys : List TypeExpr) :
    ∀ {methods all : List (String × List PlacedSig)}, (methods.map Prod.fst).Nodup →
      (instanceMethods w conv env methods tys).Gives all →
        (all.map Prod.fst).Nodup ∧ ∀ n ∈ methods.map Prod.fst, n ∈ all.map Prod.fst := by
  induction tys with
  | nil =>
      intro methods all hnodup h
      rw [instanceMethods] at h
      rw [gives_pure h]
      exact ⟨hnodup, fun _ hn => hn⟩
  | cons ty tys ih =>
      intro methods all hnodup h
      rw [instanceMethods] at h
      obtain ⟨members?, -, h⟩ := gives_bind h
      cases members? with
      | none => exact ih hnodup h
      | some members =>
          have hgroups := (methodGroups_spec members false).1
          have hnodup' : ((addImplemented (methods.map Prod.fst) methods
              (methodGroups members false)).map Prod.fst).Nodup := by
            rw [addImplemented, List.map_append]
            refine List.nodup_append.mpr ⟨hnodup,
              hgroups.sublist (List.filter_sublist.map _), ?_⟩
            rintro a ha b hb rfl
            obtain ⟨g, hg, rfl⟩ := List.mem_map.mp hb
            simp [ha] at hg
          obtain ⟨hall, hsub⟩ := ih hnodup' h
          refine ⟨hall, fun n hn => hsub n ?_⟩
          rw [addImplemented, List.map_append]
          exact List.mem_append_left _ hn

/-! ## What a class brings -/

/-- What holds of all that a class of the name brings: methods have the names that the class
defines, each once, and no static has one of them. -/
structure ClassEntries.Formed (name : String) (es : ClassEntries) : Prop where
  nodup : es.defined.Nodup
  methods : es.methods.map Prod.fst =
    (es.defined.filter fun m => !Standard.isMember m).map fun m => name ++ "." ++ m
  methodConvention : ∀ p ∈ es.methods, p.2.convention = .method
  statics : ∀ p ∈ es.statics, ∃ m, m ∉ es.defined ∧ p.1 = name ++ "." ++ m

theorem formed_classEntries {c : ClassRef} {es : ClassEntries}
    (h : (classEntries w conv c).Gives es) : es.Formed (w.className c) ∧
      ∀ member ∈ c.decl.members, ∀ n sig, methodSig? false member = some (n, sig) →
        n ∈ es.defined := by
  obtain ⟨env, -, h⟩ := gives_bind h
  obtain ⟨constructor, -, h⟩ := gives_bind h
  obtain ⟨methods, hmethods, h⟩ := gives_bind h
  obtain ⟨entries, hentries, h⟩ := gives_bind h
  obtain ⟨statics, hstatics, h⟩ := gives_bind h
  obtain rfl := gives_pure h
  obtain ⟨hgroups, hmem⟩ := methodGroups_spec (placed c.decl.members env) false
  obtain ⟨hnodup, hown⟩ := gives_instanceMethods c.decl.interfaces hgroups hmethods
  obtain ⟨hnames, hmade⟩ := gives_named hentries
  obtain ⟨hstaticNames, -⟩ := gives_named hstatics
  refine ⟨⟨hnodup, ?_, fun p hp => ?_, fun p hp => ?_⟩, fun member hmember n sig hsig => ?_⟩
  · rw [hnames, List.filter_map, List.map_map]
    rfl
  · obtain ⟨g, -, hg⟩ := hmade p hp
    exact entryOf_convention hg
  · have hp := List.mem_map_of_mem (f := Prod.fst) hp
    rw [hstaticNames, List.map_map] at hp
    obtain ⟨g, hg, hp⟩ := List.mem_map.mp hp
    have hg := (List.mem_filter.mp hg).2
    simp only [Bool.and_eq_true, bne_iff_ne, Bool.not_eq_true', List.contains_eq_mem,
      decide_eq_false_iff_not] at hg
    exact ⟨g.1, hg.2, hp.symm⟩
  · exact hown n ((hmem n).mpr ⟨(member, env), List.mem_map_of_mem hmember, sig, hsig⟩)

end Declaration

end ApiSurface
