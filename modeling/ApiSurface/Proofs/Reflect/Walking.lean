/-
# `ApiSurface.Proofs.Reflect.Walking` — what holds of the steps of a walk holds of the walk

Five functions walk over the exports and call one another, and library code runs between their
steps.  What they are made of is little: the heap and the binding are read, a function is probed, a
name that the schema has is bound, and an entry is admitted under a new name and bound
(`Binding.Moves`).  A property of computations that is closed under these (`WalkClosed`) holds of
each of the functions and so of the whole walk.

**Main result** (`WalkClosed.mapExports`): the walk over the exports has every such property.

Which entries are admitted is a parameter.  The walk over one function is proved for any set of
entries that has those of the members and, if the name of the function is new, its own
(`WalkClosed.mapNamed`): classes inside the function are bound under names that the schema has.
-/
import ApiSurface.Reflect.Loading

namespace ApiSurface.Reflect

open Live

variable {β σ : Type}

/-! ## Entries that are admitted -/

/-- An entry that a walk may add under a name. -/
inductive Admissible : String → Entry → Prop
  | constructor (name : String) (arity : Nat) : Admissible name (unknownConstructor name arity)
  | free (name : String) (arity : Nat) : Admissible name (.unknown arity .free)
  | method (owner member : String) (arity : Nat) :
      Admissible (owner ++ "." ++ member) (unknownMethod owner arity)

/-- The entries of the set are enough for the members of every class. -/
structure Members (A : String → Entry → Prop) : Prop where
  method : ∀ owner member arity, A (owner ++ "." ++ member) (unknownMethod owner arity)
  static : ∀ name arity, A name (.unknown arity .free)

theorem members_admissible : Members Admissible :=
  ⟨.method, .free⟩

theorem admissible_admittedEntry (name : String) (arity : Nat) (constructs : Bool) :
    Admissible name (admittedEntry name arity constructs) := by
  cases constructs with
  | true => exact .constructor name arity
  | false => exact .free name arity

/-! ## What is found on a heap -/

section Found

variable {α : Type} {h : Heap (Code β)}

theorem mem_of_mem_firstOfEach {p : String × α} {l : List (String × α)} :
    ∀ {seen : List String}, p ∈ firstOfEach seen l → p ∈ l := by
  induction l with
  | nil => exact fun hp => hp
  | cons q l ih =>
      intro seen hp
      rw [firstOfEach] at hp
      split at hp
      · exact List.mem_cons_of_mem _ (ih hp)
      · rcases List.mem_cons.mp hp with rfl | hp
        · exact List.mem_cons_self
        · exact List.mem_cons_of_mem _ (ih hp)

theorem isCallable_of_mem_ownMethods {id : Nat} {m : String × Value}
    (hm : m ∈ ownMethods h id) : h.isCallable m.2 = true := by
  obtain ⟨p, -, hp⟩ := List.mem_filterMap.mp hm
  split at hp
  · cases hp
  · split at hp
    · split at hp
      next hcallable =>
        cases hp
        exact hcallable
      · cases hp
    · cases hp

theorem isCallable_of_mem_instanceMethods {f : Value} {m : String × Value}
    (hm : m ∈ instanceMethods h f) : h.isCallable m.2 = true := by
  have hall := (List.mem_filter.mp (mem_of_mem_firstOfEach hm)).1
  obtain ⟨id, -, hown⟩ := List.mem_flatMap.mp hall
  exact isCallable_of_mem_ownMethods hown

end Found

/-! ## Parts of the walk -/

/-- Binds what belongs to a function if it is a constructor. -/
def bindMembers (nested : String → Value → Mapping β σ Unit) (s : Settings) (name : String)
    (f : Value) (constructs : Bool) : Mapping β σ Unit :=
  if constructs then do
    mapMethods s name f
    mapStatics nested s name f
  else pure ()

/-- What a walk does with one of the properties that an object shows. -/
def mapShown (lib : Library β σ) (s : Settings) (depth : Nat) (start : String)
    (p : String × Value) : Mapping β σ Unit := do
  if (← Mapping.heap).isCallable p.2 then mapFunction lib s start p.2 (some p.1)
  else
    match p.2 with
    | .object nested => mapObject lib s depth (start ++ p.1 ++ ".") nested
    | _ => return

theorem mapObject_succ (lib : Library β σ) (s : Settings) (depth : Nat) (start : String)
    (id : Nat) : mapObject lib s (depth + 1) start id = (do
      ((← Mapping.heap).entries id).forM (mapShown lib s depth start)) :=
  rfl

/-! ## Properties that are closed under what a walk does -/

/-- What a walk does to a binding at one place: it binds a name that the schema has, or it admits an
entry of the set under a new one, by a value of which `live` holds. -/
inductive Binding.Moves (A : String → Entry → Prop) (live : Value → Prop) (s : Settings)
    (b : Binding) : Binding → Prop
  /-- A name that the schema has is bound. -/
  | bind {name : String} {v : Value} (known : b.schema.has name = true)
      (allowed : name ∉ s.skipped) (bindable : live v) :
      Moves A live s b { b with endpoints := Table.insert b.endpoints name v }
  /-- An entry is admitted and bound. -/
  | add {name : String} {e : Entry} {v : Value} (unknown : b.schema.find? name = none)
      (wanted : s.onlyKnown = false) (allowed : name ∉ s.skipped) (among : A name e)
      (bindable : live v) :
      Moves A live s b
        { schema := b.schema.insert name e
          endpoints := Table.insert b.endpoints name v
          admitted := b.admitted + 1 }

/-- A property of computations that start with a binding and after a heap is closed under what walks
are made of. -/
structure WalkClosed (lib : Library β σ) (s : Settings) (A : String → Entry → Prop)
    (live : Heap (Code β) → Value → Prop)
    (P : {α : Type} → Heap (Code β) → Binding → Mapping β σ α → Prop) : Prop where
  found : ∀ {h v}, h.isCallable v = true → live h v
  pure : ∀ {α h b} (a : α), P h b (pure a : Mapping β σ α)
  throw : ∀ {h b} (c : Clash), P h b (throw c : Mapping β σ Unit)
  bind : ∀ {α γ h b} {m : Mapping β σ α} {f : α → Mapping β σ γ},
    P h b m → (∀ a b', P h b' (f a)) → P h b (m >>= f)
  /-- The heap is read, and what follows comes after it. -/
  heap : ∀ {α h b} {f : Heap (Code β) → Mapping β σ α},
    (∀ h', P h' b (f h')) → P h b (Mapping.heap >>= f)
  /-- A function is probed. -/
  probe : ∀ {α h b} (v : Value) {f : Bool → Mapping β σ α},
    (∀ constructs, P h b (f constructs)) → P h b (Mapping.isConstructor lib v >>= f)
  /-- The binding is read. -/
  read : ∀ {α h b} {m m' : Mapping β σ α}, (∀ w, m b w = m' b w) → P h b m' → P h b m
  /-- The binding moves, by something that may be read from the heap. -/
  move : ∀ {α h b} {next : World β σ → Binding} {m m' : Mapping β σ α},
    (∀ w, b.Moves A (live h) s (next w)) → (∀ w, m b w = m' (next w) w) →
      (∀ w, P h (next w) m') → P h b m

namespace WalkClosed

variable {lib : Library β σ} {s : Settings} {A : String → Entry → Prop}
  {live : Heap (Code β) → Value → Prop}
  {P : {α : Type} → Heap (Code β) → Binding → Mapping β σ α → Prop}
  {α : Type} {h : Heap (Code β)} {b : Binding}

section Rules

variable (hP : WalkClosed lib s A live P)

include hP

theorem forM {l : List α} {f : α → Mapping β σ Unit} (hf : ∀ a ∈ l, ∀ b, P h b (f a)) :
    ∀ b, P h b (l.forM f) := by
  induction l with
  | nil => exact fun _ => hP.pure ()
  | cons a l ih =>
      intro b
      refine hP.bind (hf a List.mem_cons_self b) fun _ => ?_
      exact ih fun a ha => hf a (List.mem_cons_of_mem _ ha)

/-- The convention of a name is read. -/
theorem known {name : String} {f : Option Convention → Mapping β σ α}
    (hf : P h b (f ((b.schema.find? name).map Entry.convention))) :
    P h b (Mapping.known? name >>= f) := by
  refine hP.read ?_ hf
  exact fun _ => rfl

theorem bindTo {name : String} {v : Value} {e : Entry} (hsome : b.schema.find? name = some e)
    (allowed : ¬ s.skipped.contains name = true) (hv : live h v) :
    P h b (Mapping.bindTo name v : Mapping β σ Unit) := by
  have hknown : b.schema.has name = true := by rw [Schema.has, hsome, Option.isSome_some]
  have hallowed : name ∉ s.skipped := fun hmem => allowed (List.contains_iff_mem.mpr hmem)
  exact hP.move (fun _ => .bind hknown hallowed hv) (fun _ => rfl) fun _ => hP.pure ()

/-- A member that is not in the schema is admitted and bound, if the settings let it. -/
theorem admitted {name : String} {v : Value} (hnone : b.schema.find? name = none)
    (allowed : ¬ s.skipped.contains name = true) (hv : live h v) {e : Heap (Code β) → Entry}
    (he : ∀ h', A name (e h')) :
    P h b (do
      if s.onlyKnown then return
      Mapping.addEntry name (e (← Mapping.heap))
      Mapping.bindTo name v) := by
  have hallowed : name ∉ s.skipped := fun hmem => allowed (List.contains_iff_mem.mpr hmem)
  split
  · exact hP.pure ()
  next wanted =>
    exact hP.move (fun w => .add hnone (Bool.eq_false_iff.mpr wanted) hallowed (he w.heap) hv)
      (fun _ => rfl) fun _ => hP.pure ()

/-- A name is bound, and its entry is admitted if the schema had none. -/
theorem bound {name : String} {f : Value} (hf : live h f)
    (allowed : ¬ s.skipped.contains name = true)
    (wanted : ¬ (((b.schema.find? name).map Entry.convention).isNone && s.onlyKnown) = true)
    {e : Heap (Code β) → Entry} (he : b.schema.find? name = none → ∀ h', A name (e h'))
    {rest : Mapping β σ Unit} (hrest : ∀ b', P h b' rest) :
    P h b (do
      Mapping.bindTo name f
      if ((b.schema.find? name).map Entry.convention).isNone then
        Mapping.addEntry name (e (← Mapping.heap))
      rest) := by
  have hallowed : name ∉ s.skipped := fun hmem => allowed (List.contains_iff_mem.mpr hmem)
  cases hfind : b.schema.find? name with
  | some e' =>
      have hknown : b.schema.has name = true := by rw [Schema.has, hfind, Option.isSome_some]
      exact hP.move (fun _ => .bind hknown hallowed hf) (fun _ => rfl) fun _ => hrest _
  | none =>
      rw [hfind] at wanted
      exact hP.move
        (fun w => .add hfind (Bool.eq_false_iff.mpr wanted) hallowed (he hfind w.heap) hf)
        (fun _ => rfl) fun _ => hrest _

end Rules

/-! ## Members -/

section Members

variable (hP : WalkClosed lib s A live P) (hA : Members A)

include hP hA

theorem mapMethod (className : String) {m : String × Value} (hm : live h m.2) (b : Binding) :
    P h b (mapMethod s className m) := by
  unfold Reflect.mapMethod
  extract_lets name
  split
  · exact hP.pure ()
  next allowed =>
    refine hP.known ?_
    cases hfind : b.schema.find? name with
    | none => exact hP.admitted hfind allowed hm fun _ => hA.method className m.1 _
    | some e =>
        rw [Option.map_some]
        cases e.convention with
        | method => exact hP.bindTo hfind allowed hm
        | free => exact hP.throw _
        | constructor => exact hP.throw _

theorem mapMethods (h : Heap (Code β)) (className : String) (f : Value) (b : Binding) :
    P h b (mapMethods s className f) := by
  refine hP.heap fun h' => hP.forM (fun m hm => ?_) b
  exact hP.mapMethod hA className (hP.found (isCallable_of_mem_instanceMethods hm))

/-- A class that is a static function is bound under a name that the schema has. -/
theorem mapStatic {nested : String → Value → Mapping β σ Unit} (className : String)
    {m : String × Value} (hm : live h m.2)
    (hnested : ∀ name b, b.schema.find? name ≠ none → P h b (nested name m.2)) (b : Binding) :
    P h b (mapStatic nested s className m) := by
  unfold Reflect.mapStatic
  extract_lets name
  split
  · exact hP.pure ()
  next hpassed =>
    have allowed : ¬ s.skipped.contains name = true := fun hskip =>
      hpassed (by rw [hskip, Bool.or_true])
    refine hP.known ?_
    cases hfind : b.schema.find? name with
    | none => exact hP.admitted hfind allowed hm fun _ => hA.static name _
    | some e =>
        rw [Option.map_some]
        cases e.convention with
        | method => exact hP.pure ()
        | constructor => exact hnested name b (by rw [hfind]; exact Option.some_ne_none e)
        | free => exact hP.bindTo hfind allowed hm

theorem mapStatics {nested : String → Value → Mapping β σ Unit} (h : Heap (Code β))
    (className : String) (f : Value)
    (hnested : ∀ h' name v b, live h' v → b.schema.find? name ≠ none → P h' b (nested name v))
    (b : Binding) : P h b (mapStatics nested s className f) := by
  unfold Reflect.mapStatics
  split
  · refine hP.heap fun h' => hP.forM (fun m hm => ?_) b
    have hlive : live h' m.2 := hP.found (isCallable_of_mem_ownMethods hm)
    exact hP.mapStatic hA className hlive fun name b => hnested h' name m.2 b hlive
  · exact hP.pure ()

theorem bindMembers {nested : String → Value → Mapping β σ Unit} (h : Heap (Code β))
    (name : String) (f : Value)
    (hnested : ∀ h' name v b, live h' v → b.schema.find? name ≠ none → P h' b (nested name v))
    (constructs : Bool) (b : Binding) : P h b (bindMembers nested s name f constructs) := by
  unfold Reflect.bindMembers
  split
  · refine hP.bind (hP.mapMethods hA h name f b) fun _ => ?_
    exact hP.mapStatics hA h name f hnested
  · exact hP.pure ()

/-- One function is bound, and what belongs to it if it is a constructor. -/
theorem mapNamed (fuel : Nat) : ∀ (h : Heap (Code β)) (name : String) (f : Value) (b : Binding),
    live h f → (b.schema.find? name = none →
      ∀ arity constructs, A name (admittedEntry name arity constructs)) →
      P h b (mapNamed lib s fuel name f) := by
  -- The heap is general in the induction: a class inside this one is found on a later heap.
  induction fuel with
  | zero => exact fun _ _ _ _ _ _ => hP.pure ()
  | succ fuel ih =>
      intro h name f b hf hnew
      unfold Reflect.mapNamed
      split
      · exact hP.pure ()
      next allowed =>
        refine hP.known ?_
        split
        · exact hP.pure ()
        next wanted =>
          extract_lets found
          have hfound : ∀ constructs, P h b (found constructs) := by
            intro constructs
            refine hP.bound hf allowed wanted (fun hnone _ => hnew hnone _ constructs) fun b' => ?_
            refine hP.bindMembers hA h name f (fun h' n v b hv hsome => ?_) constructs b'
            exact ih h' n v b hv fun hnone => absurd hnone hsome
          split
          · exact hfound true
          · exact hP.probe f hfound

/-- A static function is bound, and what belongs to it if the schema knows it as a constructor. -/
theorem mapStatic_mapNamed (fuel : Nat) (className : String) {m : String × Value}
    (hm : live h m.2) (b : Binding) :
    P h b (Reflect.mapStatic (Reflect.mapNamed lib s fuel) s className m) :=
  hP.mapStatic hA className hm (fun name b hsome =>
    hP.mapNamed hA fuel h name m.2 b hm fun hnone => absurd hnone hsome) b

/-- What belongs to a function is bound, as deep as there are levels left. -/
theorem bindMembers_mapNamed (fuel : Nat) (h : Heap (Code β)) (name : String) (f : Value)
    (constructs : Bool) (b : Binding) :
    P h b (Reflect.bindMembers (Reflect.mapNamed lib s fuel) s name f constructs) :=
  hP.bindMembers hA h name f (fun h' name v b hv hsome =>
    hP.mapNamed hA fuel h' name v b hv fun hnone => absurd hnone hsome) constructs b

end Members

/-! ## The walk -/

section Walk

variable (hP : WalkClosed lib s A live P) (hA : Members A)
  (hall : ∀ name arity constructs, A name (admittedEntry name arity constructs))

include hP hA hall

/-- One function that may be none is bound. -/
theorem mapFunction (h : Heap (Code β)) (start : String) (f : Value) (key : Option String)
    (b : Binding) : P h b (mapFunction lib s start f key) := by
  refine hP.heap fun h' => ?_
  split
  · exact hP.pure ()
  next c hc =>
    have hf : live h' f := hP.found (by rw [Heap.isCallable, hc, Option.isSome_some])
    refine hP.read ?_ (hP.mapNamed hA (staticFuel b.schema) h' (start ++ key.getD c.name) f b hf
      fun _ => hall _)
    exact fun _ => rfl

/-- What an object shows is bound, if what the objects inside it show is. -/
theorem mapShown_of_mapObject {depth : Nat}
    (hdeeper : ∀ h start id b, P h b (mapObject lib s depth start id)) (h : Heap (Code β))
    (start : String) (p : String × Value) (b : Binding) :
    P h b (mapShown lib s depth start p) := by
  refine hP.heap fun h' => ?_
  split
  · exact hP.mapFunction hA hall h' start p.2 (some p.1) b
  · split
    · exact hdeeper h' _ _ b
    · exact hP.pure ()

theorem mapObject (depth : Nat) : ∀ (h : Heap (Code β)) (start : String) (id : Nat)
    (b : Binding), P h b (mapObject lib s depth start id) := by
  induction depth with
  | zero => exact fun _ _ _ _ => hP.pure ()
  | succ depth ih =>
      intro h start id b
      rw [mapObject_succ]
      refine hP.heap fun h' => hP.forM (fun p _ => ?_) b
      exact hP.mapShown_of_mapObject hA hall ih h' start p

theorem mapShown {depth : Nat} (h : Heap (Code β)) (start : String) (p : String × Value)
    (b : Binding) : P h b (mapShown lib s depth start p) :=
  hP.mapShown_of_mapObject hA hall (hP.mapObject hA hall depth) h start p b

/-- **The walk over the exports has every property that is closed under what it does.** -/
theorem mapExports (h : Heap (Code β)) (exports : Value) (b : Binding) :
    P h b (mapExports lib s exports) := by
  refine hP.heap fun h' => ?_
  extract_lets main walk
  clear_value main
  have hwalk : ∀ b', P h' b' (walk ()) := by
    intro b'
    cases main with
    | object id => exact hP.mapObject hA hall _ h' "" id b'
    | _ => exact hP.pure ()
  split
  · exact hP.bind (hP.mapFunction hA hall h' "" main none b) fun _ => hwalk
  · exact hwalk b

end Walk

end WalkClosed

end ApiSurface.Reflect
