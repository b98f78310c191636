/-
# `ApiSurface.Proofs.Reflect.Reachable` — every function that can be reached is bound

A walk over exports goes along the properties that objects show, from object to object, and binds
the functions it finds under the dotted path to them.  `Path` is such a way through the objects of a
heap, without a walk.

**Main result** (`reflect_binds_reachable`): if probing changes no object and unknown functions may
be admitted, then a run that succeeds has bound every function that lies at the end of a path of at
most as many properties as objects are mapped deep, unless the settings skip its name.

The paths start from where the walk does (`walkRoot`).  That is the exports, but for a module that
is no function and has a default export: such a module is taken for its default export, and what it
shows besides is not walked over (`defaultAndSibling_not_bound`).

Two things carry a path through a run.  The objects of the heap that the run started on are left as
they are (`Leaves`), so that the walk finds what was there at the start; and a name that is bound
stays bound (`Maintains`), so that it is enough to find the one step that binds it.
-/
import ApiSurface.Proofs.Reflect.Repeated
import ApiSurface.Proofs.Run.Precheck

namespace ApiSurface

open Live

variable {β σ α γ ε : Type} {h : Heap (Code β)}

/-- Library code that is run without arguments, on nothing or on a fresh object, leaves the objects
of the heap as they are. -/
def Live.Library.Still (lib : Library β σ) (h : Heap (Code β)) : Prop :=
  ∀ code i (w : World β σ), i.args = [] →
    (∀ id, i.receiver = .object id → Building.Later h id) →
      h.Extends w.heap → h.Extends (lib code i w).2.heap

namespace Reflect

/-! ## Steps that leave objects alone -/

/-- A step leaves the objects of an earlier heap as they are. -/
def Leaves (h : Heap (Code β)) (m : StateM (World β σ) α) : Prop :=
  ∀ w, h.Extends w.heap → h.Extends (m w).2.heap

namespace Leaves

theorem pure (a : α) : Leaves h (pure a : StateM (World β σ) α) :=
  fun _ ext => ext

theorem bind {m : StateM (World β σ) α} {f : α → StateM (World β σ) γ} (hm : Leaves h m)
    (hf : ∀ a, Leaves h (f a)) : Leaves h (m >>= f) :=
  fun w ext => hf _ _ (hm w ext)

theorem bind_get {f : World β σ → StateM (World β σ) α} (hf : ∀ w, Leaves h (f w)) :
    Leaves h (get >>= f) :=
  fun w ext => hf w w ext

theorem action_bind {x : Action β σ ε α} {f : α → Action β σ ε γ} (hx : Leaves h x)
    (hf : ∀ a, Leaves h (f a)) : Leaves h (x >>= f : Action β σ ε γ) := by
  intro w ext
  have ext' := hx w ext
  rw [Run.action_bind_eq]
  rcases hres : x w with ⟨e | a, w'⟩
  · rw [hres] at ext'
    exact ext'
  · rw [hres] at ext'
    exact hf a w' ext'

theorem action_bind_heap {f : Heap (Code β) → Action β σ ε α} (hf : ∀ h', Leaves h (f h')) :
    Leaves h (Action.heap >>= f : Action β σ ε α) :=
  fun w ext => hf w.heap w ext

/-- An object is put on the heap, and the step goes on with its number. -/
theorem action_bind_object (o : Obj (Code β)) {f : Nat → Action β σ ε α}
    (hf : ∀ id, Building.Later h id → Leaves h (f id)) :
    Leaves h (Action.onHeap (Building.object o) >>= f : Action β σ ε α) :=
  fun w (ext : h.Extends w.heap) => hf _ ext.size_le _ (ext.alloc o)

end Leaves

theorem leaves_raise (name : ErrorName) (message : String) :
    Leaves h (.raise name message : Action β σ Value Value) :=
  fun w ext => (Action.thrown_raise name message w ext).2

variable {lib : Library β σ} {s : Settings}

section Probing

variable (hlib : lib.Still h)

include hlib

theorem leaves_runCode (c : Code β) {i : Invocation} (hargs : i.args = [])
    (hreceiver : ∀ id, i.receiver = .object id → Building.Later h id) :
    Leaves h (runCode lib c i) := by
  intro w ext
  cases c with
  | host code => exact (code.run_unasked hargs w ext fun id _ => hreceiver id).2
  | library code => exact hlib code i w hargs hreceiver ext

theorem leaves_call (f : Value) {receiver : Value}
    (hreceiver : ∀ id, receiver = .object id → Building.Later h id) :
    Leaves h (call lib f receiver []) := by
  refine .action_bind_heap fun h' => ?_
  split
  · exact leaves_raise _ _
  next c _ =>
    cases c.flavor with
    | ofClass => exact leaves_raise _ _
    | builtin => exact leaves_raise _ _
    | ordinary => exact leaves_runCode hlib c.body rfl hreceiver
    | arrow => exact leaves_runCode hlib c.body rfl hreceiver

theorem leaves_instantiate (f : Value) (c : Callable (Code β)) :
    Leaves h (instantiate lib f c []) := by
  refine .action_bind_heap fun h' => .action_bind_object _ fun fresh hfresh => ?_
  refine (leaves_runCode hlib c.body rfl ?_).action_bind fun v => ?_
  · rintro id ⟨⟩
    exact hfresh
  · split
    · exact fun _ ext => ext
    · exact fun _ ext => ext

theorem leaves_construct (f : Value) : Leaves h (construct lib f []) := by
  refine .action_bind_heap fun h' => ?_
  split
  · exact leaves_raise _ _
  next c _ =>
    cases c.flavor with
    | arrow => exact leaves_raise _ _
    | ordinary => exact leaves_instantiate hlib f c
    | ofClass => exact leaves_instantiate hlib f c
    | builtin => exact leaves_instantiate hlib f c

theorem leaves_initializes (f : Value) : Leaves h (initializes lib f) := by
  intro w ext
  refine leaves_call hlib f ?_ _ (ext.alloc { kind := .ordinary })
  rintro id ⟨⟩
  exact ext.size_le

/-- Probing leaves the objects of an earlier heap as they are. -/
theorem leaves_classify (f : Value) : Leaves h (classify lib f) := by
  unfold classify
  refine .bind (leaves_call hlib f nofun) fun called => .bind_get fun w₁ => ?_
  split
  · exact .pure _
  refine .bind (leaves_construct hlib f) fun constructed => .bind_get fun w₂ => ?_
  extract_lets h₂
  split
  · exact .pure _
  split
  · exact .pure _
  split
  · exact .pure _
  split
  · exact .pure _
  refine (leaves_initializes hlib f).bind fun initialized => ?_
  split
  · exact .pure _
  · exact .pure _

end Probing

/-! ## Walks leave objects alone -/

/-- A computation that binds entries leaves the objects of an earlier heap as they are. -/
def Mapping.Leaves (h : Heap (Code β)) (m : Mapping β σ α) : Prop :=
  ∀ b, Reflect.Leaves h (m b)

namespace Mapping.Leaves

theorem pure (a : α) : Mapping.Leaves h (pure a : Mapping β σ α) :=
  fun _ _ ext => ext

theorem bind {m : Mapping β σ α} {f : α → Mapping β σ γ} (hm : Mapping.Leaves h m)
    (hf : ∀ a, Mapping.Leaves h (f a)) : Mapping.Leaves h (m >>= f) :=
  fun b => (hm b).action_bind fun r => hf r.1 r.2

theorem forM {l : List α} {f : α → Mapping β σ Unit} (hf : ∀ a, Mapping.Leaves h (f a)) :
    Mapping.Leaves h (l.forM f) := by
  induction l with
  | nil => exact pure ()
  | cons a l ih => exact (hf a).bind fun _ => ih

theorem get : Mapping.Leaves h (get : Mapping β σ Binding) :=
  fun _ _ ext => ext

theorem known? (name : String) : Mapping.Leaves h (Mapping.known? name : Mapping β σ _) :=
  fun _ _ ext => ext

theorem bindTo (name : String) (v : Value) :
    Mapping.Leaves h (Mapping.bindTo name v : Mapping β σ Unit) :=
  fun _ _ ext => ext

theorem isConstructor (hlib : lib.Still h) (f : Value) :
    Mapping.Leaves h (Mapping.isConstructor lib f) :=
  fun _ w ext => leaves_classify hlib f w ext

end Mapping.Leaves

/-- **A walk leaves the objects of an earlier heap as they are**, whatever it does to the binding. -/
theorem walkClosed_leaves (hlib : lib.Still h) (s : Settings) :
    WalkClosed lib s Admissible (fun _ _ => True) fun (_ : Heap (Code β)) b m =>
      Reflect.Leaves h (m b) where
  found _ := trivial
  pure _ := fun _ ext => ext
  throw _ := fun _ ext => ext
  bind hm hf := hm.action_bind fun r => hf r.1 r.2
  heap hf := fun w ext => hf w.heap w ext
  probe v _ hf := fun w ext => hf _ _ (leaves_classify hlib v w ext)
  read hrun hm := fun w ext => (hrun w).symm ▸ hm w ext
  move _ hrun hm := fun w ext => (hrun w).symm ▸ hm w w ext

/-! ## Paths through objects -/

/-- A way from an object to a value along properties that are shown, through objects that are no
functions. -/
inductive Path (h : Heap β) : Value → List String → Value → Prop
  | last {id : Nat} {key : String} {v : Value} (shown : (key, v) ∈ h.entries id) :
      Path h (.object id) [key] v
  | step {id nested : Nat} {key : String} {path : List String} {v : Value}
      (shown : (key, .object nested) ∈ h.entries id)
      (plain : h.isCallable (.object nested) = false) (rest : Path h (.object nested) path v) :
      Path h (.object id) (key :: path) v

/-- The name that a walk gives to what lies at the end of a path. -/
def dotted : List String → String
  | [] => ""
  | [key] => key
  | key :: path => key ++ "." ++ dotted path

theorem dotted_cons (key : String) {path : List String} (hpath : path ≠ []) :
    dotted (key :: path) = key ++ "." ++ dotted path := by
  cases path with
  | nil => exact absurd rfl hpath
  | cons _ _ => rfl

theorem lt_of_mem_entries {h : Heap β} {id : Nat} {p : String × Value} (hp : p ∈ h.entries id) :
    id < h.objects.size := by
  cases ho : h.obj? id with
  | some o => exact Heap.lt_of_obj? ho
  | none =>
      rw [Heap.entries, Heap.properties, ho] at hp
      exact absurd hp List.not_mem_nil

theorem Path.exists_object {h : Heap β} {v v' : Value} {path : List String}
    (hpath : Path h v path v') : ∃ id, v = .object id := by
  cases hpath with
  | @last id => exact ⟨id, rfl⟩
  | @step id => exact ⟨id, rfl⟩

theorem Path.lt {h : Heap β} {id : Nat} {path : List String} {v : Value}
    (hpath : Path h (.object id) path v) : id < h.objects.size := by
  cases hpath with
  | last shown => exact lt_of_mem_entries shown
  | step shown _ _ => exact lt_of_mem_entries shown

theorem Path.ne_nil {h : Heap β} {v v' : Value} {path : List String} (hpath : Path h v path v') :
    path ≠ [] := by
  cases hpath with
  | last => exact List.cons_ne_nil _ _
  | step => exact List.cons_ne_nil _ _

/-! ## Names that get bound -/

/-- The name has an endpoint. -/
def Binding.Bound (name : String) (b : Binding) : Prop :=
  Table.has b.endpoints name = true

theorem kept_bound (name : String) : Kept Admissible (Binding.Bound name) where
  bound b n v hb := by
    rw [Binding.Bound, Table.has_insert, show Table.has b.endpoints name = true from hb,
      Bool.or_true]
  added _ _ _ _ _ hb := hb

/-- Wherever a computation that starts with an extended heap succeeds, the name is bound. -/
def Binds (h : Heap (Code β)) (name : String) (m : Mapping β σ α) : Prop :=
  ∀ b w a b' w', h.Extends w.heap → m b w = (.ok (a, b'), w') → b'.Bound name

namespace Binds

variable {name : String}

/-- A name that is bound first stays bound. -/
theorem first {m : Mapping β σ α} {f : α → Mapping β σ γ} (hm : Binds h name m)
    (hf : ∀ a b, Maintains (Binding.Bound name) b (f a)) : Binds h name (m >>= f) := by
  intro b w c b₂ w₂ ext hr
  rw [mapping_bind_eq] at hr
  split at hr
  next a b₁ w₁ hfirst => exact hf a b₁ w₁ c b₂ w₂ (hm b w a b₁ w₁ ext hfirst) hr
  next => cases hr

/-- A name is bound later, on a heap that is still extended. -/
theorem later {m : Mapping β σ α} {f : α → Mapping β σ γ} (hm : Mapping.Leaves h m)
    (hf : ∀ a, Binds h name (f a)) : Binds h name (m >>= f) := by
  intro b w c b₂ w₂ ext hr
  rw [mapping_bind_eq] at hr
  split at hr
  next a b₁ w₁ hfirst =>
    have ext' : h.Extends (m b w).2.heap := hm b w ext
    rw [hfirst] at ext'
    exact hf a b₁ w₁ c b₂ w₂ ext' hr
  next => cases hr

/-- The heap is read, and it extends the earlier one. -/
theorem bind_heap {f : Heap (Code β) → Mapping β σ α}
    (hf : ∀ h', h.Extends h' → Binds h name (f h')) : Binds h name (Mapping.heap >>= f) :=
  fun b w a b' w' ext hr => hf w.heap ext b w a b' w' ext hr

/-- One round of a loop binds the name. -/
theorem forM {l : List α} {f : α → Mapping β σ Unit} {a : α} (ha : a ∈ l)
    (hleaves : ∀ a, Mapping.Leaves h (f a))
    (hkeeps : ∀ a b, Maintains (Binding.Bound name) b (f a)) (hf : Binds h name (f a)) :
    Binds h name (l.forM f) := by
  induction l with
  | nil => exact absurd ha List.not_mem_nil
  | cons c l ih =>
      rcases List.mem_cons.mp ha with rfl | ha
      · exact hf.first fun _ => Maintains.forM hkeeps
      · exact later (hleaves c) fun _ => ih ha

end Binds

section Walk

variable (hlib : lib.Still h) (unknown : s.onlyKnown = false)

include hlib unknown

theorem binds_mapNamed (fuel : Nat) {name : String} (hname : name ∉ s.skipped) (f : Value) :
    Binds h name (mapNamed lib s (fuel + 1) name f) := by
  have hbind : Binds h name (Mapping.bindTo name f : Mapping β σ Unit) := by
    intro b w a b' w' _ hr
    cases hr
    rw [Binding.Bound, Table.has_insert, decide_eq_true rfl, Bool.true_or]
  have hmembers := (walkClosed_maintains lib s (kept_bound name)).bindMembers_mapNamed
    members_admissible fuel h name f
  unfold mapNamed
  rw [if_neg fun hskip => hname (List.contains_iff_mem.mp hskip)]
  refine .later (.known? name) fun known => ?_
  rw [unknown, Bool.and_false, if_neg Bool.false_ne_true]
  extract_lets found
  have hfound : ∀ constructs, Binds h name (found constructs) := by
    intro constructs
    refine hbind.first fun _ b => ?_
    extract_lets rest
    split
    · refine .bind_heap fun h' => .bind (fun w a b' w' hb hr => ?_) fun _ => hmembers constructs
      cases hr
      exact hb
    · exact hmembers constructs b
  split
  · exact hfound true
  · exact .later (.isConstructor hlib f) hfound

/-- A function is bound under the name that it is given, or under its own. -/
theorem binds_mapFunction (start : String) {f : Value} {c : Callable (Code β)}
    (hc : h.callable? f = some c) (key : Option String)
    (hname : start ++ key.getD c.name ∉ s.skipped) :
    Binds h (start ++ key.getD c.name) (mapFunction lib s start f key) := by
  refine .bind_heap fun h' ext => ?_
  split
  next hnone => cases hnone.symm.trans ((ext.callable?_eq (Heap.holds_of_callable? hc)).trans hc)
  next c' hc' =>
    obtain rfl : c' = c := Option.some.inj <|
      hc'.symm.trans ((ext.callable?_eq (Heap.holds_of_callable? hc)).trans hc)
    refine .later .get fun b => ?_
    exact binds_mapNamed hlib unknown _ hname f

omit unknown in
/-- An object binds what one of the properties that it shows binds. -/
theorem binds_mapObject_of_shown {id depth : Nat} {start name : String} {p : String × Value}
    (shown : p ∈ h.entries id) (hp : Binds h name (mapShown lib s depth start p)) :
    Binds h name (mapObject lib s (depth + 1) start id) := by
  rw [mapObject_succ]
  refine .bind_heap fun h' ext => ?_
  rw [ext.entries_eq (lt_of_mem_entries shown)]
  have hleaves := walkClosed_leaves hlib s
  have hkeeps := walkClosed_maintains lib s (kept_bound name)
  refine .forM shown (fun p b => ?_) (fun p b => ?_) hp
  · exact hleaves.mapShown members_admissible admissible_admittedEntry h start p b
  · exact hkeeps.mapShown members_admissible admissible_admittedEntry h start p b

/-- **A walk binds what lies at the end of a path.**  The induction is on the path; the walk goes
one object deeper with every property on it. -/
theorem binds_mapObject {v f : Value} {path : List String} (hpath : Path h v path f)
    (hf : h.isCallable f = true) : ∀ {depth id : Nat} (start : String), v = .object id →
      path.length ≤ depth → start ++ dotted path ∉ s.skipped →
        Binds h (start ++ dotted path) (mapObject lib s depth start id) := by
  induction hpath with
  | @last id key v shown =>
      rintro (_ | depth) id start ⟨⟩ hdepth hname
      · exact absurd hdepth (Nat.not_succ_le_zero _)
      · refine binds_mapObject_of_shown hlib shown (.bind_heap fun h' ext => ?_)
        rw [if_pos ((ext.isCallable_eq (Heap.holds_of_isCallable hf)).trans hf)]
        obtain ⟨c, hc⟩ := Option.isSome_iff_exists.mp hf
        exact binds_mapFunction hlib unknown start hc (some key) hname
  | @step id nested key path v shown plain rest ih =>
      rintro (_ | depth) id start ⟨⟩ hdepth hname
      · exact absurd hdepth (Nat.not_succ_le_zero _)
      · refine binds_mapObject_of_shown hlib shown (.bind_heap fun h' ext => ?_)
        have hnested : h.Holds (.object nested) := rest.lt
        have hplain : ¬ h'.isCallable (.object nested) = true := by
          rw [ext.isCallable_eq hnested, plain]
          exact Bool.false_ne_true
        rw [if_neg hplain]
        rw [dotted_cons key rest.ne_nil, ← String.append_assoc, ← String.append_assoc] at hname ⊢
        exact ih hf (start ++ key ++ ".") rfl (Nat.le_of_succ_le_succ hdepth) hname

end Walk

/-! ## Where a walk starts -/

/-- What a walk over exports starts from: their default export, if they are no function and have
one. -/
def walkRoot (h : Heap β) (exports : Value) : Value :=
  (defaultExport? h exports).getD exports

/-- An own property has the same value wherever the heap is extended. -/
theorem get_eq_of_hasOwn {h' : Heap (Code β)} (ext : h.Extends h') {id : Nat}
    (hid : id < h.objects.size) {key : String} (hown : h.hasOwn id key = true) :
    h'.get (.object id) key = h.get (.object id) key := by
  obtain ⟨p, hp⟩ := Option.isSome_iff_exists.mp hown
  rw [Heap.get_of_own? hp, Heap.get_of_own? ((ext.own?_eq hid key).trans hp)]

theorem walkRoot_eq {h' : Heap (Code β)} (ext : h.Extends h') {exports : Value}
    (hexports : h.Holds exports) : walkRoot h' exports = walkRoot h exports := by
  cases exports with
  | object id =>
      rw [walkRoot, walkRoot, defaultExport?, defaultExport?, ext.isCallable_eq hexports,
        ext.hasOwn_eq hexports]
      split
      next hdefault =>
        rw [get_eq_of_hasOwn ext hexports (by simp at hdefault; exact hdefault.2)]
      · rfl
  | _ => rfl

/-- Exports from which a walk starts at an object of the heap are on the heap. -/
theorem holds_exports {exports : Value} {id : Nat} (hroot : walkRoot h exports = .object id)
    (hid : id < h.objects.size) : h.Holds exports := by
  cases exports with
  | object e =>
      by_contra hout
      have hnone : h.hasOwn e "default" = false := by
        rw [Heap.hasOwn, Heap.own?, Heap.properties, Heap.obj?,
          Array.getElem?_eq_none (Nat.le_of_not_lt hout)]
        rfl
      rw [walkRoot, defaultExport?, hnone, Bool.and_false, if_neg Bool.false_ne_true] at hroot
      cases hroot
      exact hout hid
  | _ => trivial

section Walk

variable (hlib : lib.Still h) (unknown : s.onlyKnown = false) {exports : Value}

include hlib unknown

theorem binds_mapExports {path : List String} {f : Value}
    (hpath : Path h (walkRoot h exports) path f) (hf : h.isCallable f = true)
    (hdepth : path.length ≤ s.maxDepth) (hname : dotted path ∉ s.skipped) :
    Binds h (dotted path) (mapExports lib s exports) := by
  obtain ⟨id, hroot⟩ := hpath.exists_object
  rw [hroot] at hpath
  have hexports := holds_exports hroot hpath.lt
  refine .bind_heap fun h' ext => ?_
  extract_lets main walk
  have hmain : main = .object id := (walkRoot_eq ext hexports).trans hroot
  clear_value main
  subst hmain
  have hwalk : Binds h (dotted path) (walk ()) := by
    have hobject := binds_mapObject hlib unknown hpath hf "" rfl hdepth
    rw [String.empty_append] at hobject
    exact hobject hname
  split
  · refine .later (fun b => ?_) fun _ => hwalk
    exact (walkClosed_leaves hlib s).mapFunction members_admissible admissible_admittedEntry h ""
      (.object id) none b
  · exact hwalk

/-- A function from which a walk starts is bound under its own name. -/
theorem binds_mapExports_root {c : Callable (Code β)}
    (hc : h.callable? (walkRoot h exports) = some c) (hname : c.name ∉ s.skipped) :
    Binds h c.name (mapExports lib s exports) := by
  have hholds := Heap.holds_of_callable? hc
  obtain ⟨id, hroot⟩ := Heap.exists_object_of_isCallable (Option.isSome_iff_exists.mpr ⟨c, hc⟩)
  rw [hroot] at hc hholds
  have hexports := holds_exports hroot hholds
  refine .bind_heap fun h' ext => ?_
  extract_lets main walk
  have hmain : main = .object id := (walkRoot_eq ext hexports).trans hroot
  clear_value main
  subst hmain
  have hcallable : h'.isCallable (.object id) = true := by
    rw [Heap.isCallable, ext.callable?_eq hholds, hc, Option.isSome_some]
  rw [if_pos hcallable]
  have hfunction := binds_mapFunction hlib unknown "" hc none
  rw [Option.getD_none, String.empty_append] at hfunction
  exact (hfunction hname).first fun _ =>
    (walkClosed_maintains lib s (kept_bound c.name)).mapObject members_admissible
      admissible_admittedEntry _ h "" id

end Walk

theorem leaves_mapHost : Mapping.Leaves h (mapHost s : Mapping β σ Unit) := by
  have hvalue : ∀ p, Mapping.Leaves h (mapHostValue s p : Mapping β σ Unit) := by
    intro p
    unfold mapHostValue
    split
    · exact .pure ()
    · exact (Mapping.Leaves.bindTo p.1 p.2).bind fun _ _ _ ext => ext
  have hhost : Mapping.Leaves h (StateT.lift (Action.onHeap Building.host) :
      Mapping β σ (List (String × Value))) :=
    fun _ w ext => (Building.apart_host w.heap ext).1
  exact hhost.bind fun values => .forM hvalue

/-- What the walk over the exports binds is bound where a run ends. -/
theorem Binds.of_reflect {name : String} {given : Schema} {exports : Value} {loaded : Loaded}
    {w w' : World β σ} (hb : Binds w.heap name (mapExports lib s exports))
    (h : reflect lib s given exports w = (.ok loaded, w')) :
    Table.has loaded.endpoints name = true := by
  rw [reflect_eq] at h
  split at h
  next u b w₁ hrun =>
    cases h
    exact (Binds.later leaves_mapHost fun _ => hb) _ w u b w' (.refl _) hrun
  next => cases h

/-- **Every function that can be reached is bound.**  A run that succeeds, in which probing changes
no object and unknown functions may be admitted, has an endpoint for every function at the end of a
path that is short enough, and for a function that the walk starts from, unless the settings skip
the name. -/
theorem reflect_binds_reachable {given : Schema} {exports : Value} {loaded : Loaded}
    {w w' : World β σ} (hlib : lib.Still w.heap) (unknown : s.onlyKnown = false)
    (h : reflect lib s given exports w = (.ok loaded, w')) :
    (∀ path f, Path w.heap (walkRoot w.heap exports) path f → w.heap.isCallable f = true →
        path.length ≤ s.maxDepth →
          dotted path ∈ s.skipped ∨ Table.has loaded.endpoints (dotted path) = true) ∧
      ∀ c, w.heap.callable? (walkRoot w.heap exports) = some c →
        c.name ∈ s.skipped ∨ Table.has loaded.endpoints c.name = true := by
  constructor
  · intro path f hpath hf hdepth
    by_cases hname : dotted path ∈ s.skipped
    · exact .inl hname
    · exact .inr ((binds_mapExports hlib unknown hpath hf hdepth hname).of_reflect h)
  · intro c hc
    by_cases hname : c.name ∈ s.skipped
    · exact .inl hname
    · exact .inr ((binds_mapExports_root hlib unknown hc hname).of_reflect h)

theorem still_returnsNothing (h : Heap (Code Unit)) : Run.returnsNothing.Still h :=
  fun _ _ _ _ _ ext => ext

/-- A module that shows a function and an object with another one. -/
def toolsModule : World Unit Unit :=
  ⟨{ objects := #[
      { kind := .ordinary,
        properties := [("pack", .plain (.object 1)), ("tools", .plain (.object 2))] },
      { kind := .function ⟨"pack", 1, .arrow, .library ()⟩ },
      { kind := .ordinary, properties := [("check", .plain (.object 3))] },
      { kind := .function ⟨"check", 0, .arrow, .library ()⟩ }] }, ()⟩

theorem toolsModule_binds_check : ∃ loaded w',
    reflect Run.returnsNothing { ({} : Settings) with onlyKnown := false } .empty (.object 0)
        toolsModule = (.ok loaded, w') ∧
      Run.returnsNothing.Still toolsModule.heap ∧
        Path toolsModule.heap (walkRoot toolsModule.heap (.object 0)) ["tools", "check"]
            (.object 3) ∧
          Table.has loaded.endpoints "tools.check" = true := by
  have hrun : (reflect Run.returnsNothing { ({} : Settings) with onlyKnown := false } .empty
      (.object 0) toolsModule).1.toOption.isSome = true := by
    decide +kernel
  have hpath : Path toolsModule.heap (walkRoot toolsModule.heap (.object 0)) ["tools", "check"]
      (.object 3) :=
    .step (show _ ∈ [_, _] from List.mem_cons_of_mem _ List.mem_cons_self) rfl
      (.last (show _ ∈ [_] from List.mem_cons_self))
  rcases hr : reflect Run.returnsNothing { ({} : Settings) with onlyKnown := false } .empty
    (.object 0) toolsModule with ⟨c | loaded, w'⟩
  · rw [hr] at hrun
    cases hrun
  · have hlib := still_returnsNothing toolsModule.heap
    have hbound := (reflect_binds_reachable hlib rfl hr).1 _ _ hpath rfl (by decide)
    exact ⟨loaded, w', rfl, hlib, hpath, hbound.resolve_left List.not_mem_nil⟩

/-- A module with a function for its default export, and another function besides. -/
def defaultAndSibling : World Unit Unit :=
  ⟨{ objects := #[
      { kind := .ordinary,
        properties := [("default", .plain (.object 1)), ("zip", .plain (.object 2))] },
      { kind := .function ⟨"pack", 1, .arrow, .library ()⟩ },
      { kind := .function ⟨"zip", 0, .arrow, .library ()⟩ }] }, ()⟩

/-- What a module shows besides its default export is not bound, and the default export is not bound
under the name `default`. -/
theorem defaultAndSibling_not_bound :
    ¬ ∀ (lib : Library Unit Unit) (s : Settings) (exports : Value) (w : World Unit Unit) loaded w',
      lib.Still w.heap → s.onlyKnown = false →
        reflect lib s .empty exports w = (.ok loaded, w') →
          ∀ path f, Path w.heap exports path f → w.heap.isCallable f = true →
            path.length ≤ s.maxDepth →
              dotted path ∈ s.skipped ∨ Table.has loaded.endpoints (dotted path) = true := by
  intro hall
  have hrun : (reflect Run.returnsNothing { ({} : Settings) with onlyKnown := false } .empty
      (.object 0) defaultAndSibling).1.toOption.map
        (fun l => (Table.has l.endpoints "zip", Table.has l.endpoints "default")) =
          some (false, false) := by
    decide +kernel
  have hpath : Path defaultAndSibling.heap (.object 0) ["zip"] (.object 2) :=
    .last (show _ ∈ [_, _] from List.mem_cons_of_mem _ List.mem_cons_self)
  obtain ⟨loaded, w', hr, heq⟩ := exists_ok_of_map hrun
  have hbound := hall _ _ _ _ _ _ (still_returnsNothing _) rfl hr _ _ hpath rfl (by decide)
  have hzip : Table.has loaded.endpoints "zip" = true := hbound.resolve_left List.not_mem_nil
  rw [hzip] at heq
  cases heq

end Reflect

end ApiSurface
