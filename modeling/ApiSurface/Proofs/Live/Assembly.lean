/-
# `ApiSurface.Proofs.Live.Assembly` — classes while they are made

A class is opened and then given parents, methods and static functions in any order, while other
classes are made and other code runs.  A `Workshop` is what can come of that: a heap, and the
classes with the steps that have been taken for each.  Until a class is done nothing refers to it,
so that it can extend only classes that were done before it.  A class that is made from a plan takes
the steps of the plan (`Workshop.steps_newClass`).

The invariant (`Workshop.Orderly`) says what the heap has for each class.  No two classes share an
object, so a step for one class leaves the others as they are (`Intact.untouched_run`); what it does
for its own class is one lemma for each kind of step.  A static function named like the key under
which a function keeps the prototype for its instances would take the place of that prototype, and
is left out.
-/
import ApiSurface.Proofs.Live.Extended
import Mathlib.Logic.Relation

namespace ApiSurface.Live

variable {β : Type}

/-! ## Changed objects -/

namespace Heap

variable {h h' h'' : Heap β} {id : Nat}

theorem own?_congr {j : Nat} (ho : h'.obj? j = h.obj? j) (key : String) :
    h'.own? j key = h.own? j key := by
  rw [own?, own?, properties, properties, ho]

theorem prototype?_congr {j : Nat} (ho : h'.obj? j = h.obj? j) :
    h'.prototype? j = h.prototype? j := by
  rw [prototype?, prototype?, ho]

theorem own?_define (hid : id < h.objects.size) (key : String) (p : Property) (name : String) :
    (h.define id key p).own? id name = if name = key then some p else h.own? id name := by
  obtain ⟨o, ho⟩ := exists_obj hid
  have ho' : (h.define id key p).obj? id =
      some { o with properties := Table.insert o.properties key p } := by
    rw [define, obj?_modify, if_pos rfl, ho, Option.map_some]
  rw [own?, own?, properties, properties, ho', ho]
  exact Table.find?_insert _ _ _ _

/-- A change of an object that leaves its properties as they are. -/
theorem own?_modify (h : Heap β) (id : Nat) (f : Obj β → Obj β)
    (hf : ∀ o, (f o).properties = o.properties) (j : Nat) (key : String) :
    (h.modify id f).own? j key = h.own? j key := by
  have hobj := h.obj?_modify id f j
  rw [own?, own?, properties, properties, hobj]
  by_cases hj : id = j
  · rw [if_pos hj]
    cases h.obj? j with
    | none => rfl
    | some o => exact congrArg (Table.find? · key) (hf o)
  · rw [if_neg hj]

theorem own?_setPrototype (h : Heap β) (id : Nat) (p : Option Nat) (j : Nat) (key : String) :
    (h.setPrototype id p).own? j key = h.own? j key :=
  own?_modify h id (fun o => { o with prototype := p }) (fun _ => rfl) j key

theorem prototype?_setPrototype (hid : id < h.objects.size) (p : Option Nat) :
    (h.setPrototype id p).prototype? id = p := by
  obtain ⟨o, ho⟩ := exists_obj hid
  rw [prototype?, setPrototype, obj?_modify, if_pos rfl, ho]
  rfl

/-- No object goes away, and what can be invoked stays what it is. -/
structure Upholds (h h' : Heap β) : Prop where
  size : h.objects.size ≤ h'.objects.size
  callable : ∀ v c, h.callable? v = some c → h'.callable? v = some c

namespace Upholds

theorem refl (h : Heap β) : h.Upholds h :=
  ⟨Nat.le_refl _, fun _ _ hc => hc⟩

theorem trans (first : h.Upholds h') (second : h'.Upholds h'') : h.Upholds h'' :=
  ⟨Nat.le_trans first.size second.size,
    fun v c hc => second.callable v c (first.callable v c hc)⟩

theorem of_extends (ext : h.Extends h') : h.Upholds h' :=
  ⟨ext.size_le, fun _ _ hc => (ext.callable?_eq (holds_of_callable? hc)).trans hc⟩

theorem modify (h : Heap β) (id : Nat) {f : Obj β → Obj β} (hf : ∀ o, (f o).kind = o.kind) :
    h.Upholds (h.modify id f) := by
  refine ⟨Nat.le_of_eq (Array.size_modify).symm, fun v c hc => ?_⟩
  cases v with
  | object j =>
      have hobj := h.obj?_modify id f j
      rw [callable?, hobj]
      rw [callable?] at hc
      by_cases hj : id = j
      · rw [if_pos hj]
        cases ho : h.obj? j with
        | none =>
            rw [ho] at hc
            cases hc
        | some o =>
            rw [ho] at hc
            simp only [Option.map_some, hf]
            exact hc
      · rw [if_neg hj]
        exact hc
  | _ => cases hc

theorem holds (up : h.Upholds h') {v : Value} (hv : h.Holds v) : h'.Holds v :=
  hv.mono up.size

end Upholds

end Heap

/-! ## Steps -/

/-- A step in the making of a class. -/
inductive ClassStep (β : Type) where
  | inherit (parent : Value)
  | method (m : ClassMember β)
  | static (m : ClassMember β)

/-- The method of a class as a function. -/
def ClassMember.callable (m : ClassMember β) : Callable β :=
  ⟨m.name, m.length, .arrow, m.body⟩

namespace ClassStep

/-- What a step does, given the function of the class and the prototype for its instances. -/
def run (f p : Nat) : ClassStep β → Building β Unit
  | inherit parent => Building.inheritFrom f p parent
  | method m => Building.addMembers p [m]
  | static m => Building.addMembers f [m]

/-- The value that a step makes the class inherit from. -/
def parent? : ClassStep β → Option Value
  | inherit parent => some parent
  | _ => none

/-- The method of a name that a step gives the class. -/
def method? (name : String) : ClassStep β → Option (ClassMember β)
  | method m => if name = m.name then some m else none
  | _ => none

/-- A parent is a value that is there, and no static function is named like the key of the
prototype. -/
def Fits (h : Heap β) : ClassStep β → Prop
  | inherit parent => h.Holds parent
  | method _ => True
  | static m => m.name ≠ Building.prototypeKey

theorem Fits.of_upholds {h h' : Heap β} {s : ClassStep β} (fits : s.Fits h) (up : h.Upholds h') :
    s.Fits h' := by
  cases s with
  | inherit parent => exact up.holds fits
  | method m => trivial
  | static m => exact fits

end ClassStep

/-- A class that is being made, or has been: its function, the prototype for its instances, what it
was opened with, and the steps since then, the latest first. -/
structure Made (β : Type) where
  function : Nat
  prototype : Nat
  callable : Callable β
  steps : List (ClassStep β) := []

namespace Made

/-- The objects of a class. -/
def objects (k : Made β) : List Nat :=
  [k.function, k.prototype]

/-- The class after one more step. -/
def after (k : Made β) (s : ClassStep β) : Made β :=
  { k with steps := s :: k.steps }

/-- The value that a class extends. -/
def parent? (k : Made β) : Option Value :=
  k.steps.findSome? ClassStep.parent?

/-- The method of a name that a class defines. -/
def method? (k : Made β) (name : String) : Option (ClassMember β) :=
  k.steps.findSome? (ClassStep.method? name)

end Made

/-- A class without parent and members: its function and the prototype for its instances. -/
def Building.openClass (c : Callable β) : Building β (Nat × Nat) := do
  let f ← function c
  let p ← instancePrototype f
  return (f, p)

/-! ## The heap for a class -/

/-- What a heap has for a class. -/
structure Stands (h : Heap β) (k : Made β) : Prop where
  callable : h.callable? (.object k.function) = some k.callable
  lends : h.own? k.function Building.prototypeKey = some (.hidden (.object k.prototype))
  prototype_lt : k.prototype < h.objects.size
  method : ∀ name m, k.method? name = some m → ∃ id,
    h.own? k.prototype name = some (.hidden (.object id)) ∧
      h.callable? (.object id) = some m.callable
  missing : ∀ name, k.method? name = none → h.own? k.prototype name = none
  parent : ∀ v, k.parent? = some v → h.Holds v
  root : k.parent? = none → h.prototype? k.prototype = none

/-- What a heap has for a class is the same on another one. -/
structure Untouched (h h' : Heap β) (k : Made β) : Prop where
  lends : h'.own? k.function Building.prototypeKey = h.own? k.function Building.prototypeKey
  members : ∀ name, h'.own? k.prototype name = h.own? k.prototype name
  link : h'.prototype? k.prototype = h.prototype? k.prototype

variable {h h' h'' : Heap β} {k : Made β}

theorem Stands.function_lt (hk : Stands h k) : k.function < h.objects.size :=
  Heap.holds_of_callable? hk.callable

theorem Stands.get (hk : Stands h k) :
    h.get (.object k.function) Building.prototypeKey = .object k.prototype :=
  Heap.get_of_own? hk.lends

theorem untouched_of_obj? (hf : h'.obj? k.function = h.obj? k.function)
    (hp : h'.obj? k.prototype = h.obj? k.prototype) : Untouched h h' k :=
  ⟨Heap.own?_congr hf _, Heap.own?_congr hp, Heap.prototype?_congr hp⟩

theorem Stands.untouched_of_extends (hk : Stands h k) (ext : h.Extends h') : Untouched h h' k :=
  untouched_of_obj? (ext.obj?_eq hk.function_lt) (ext.obj?_eq hk.prototype_lt)

/-- What is the same for a class serves it as before. -/
theorem Stands.of_untouched (hk : Stands h k) (up : h.Upholds h') (same : Untouched h h' k) :
    Stands h' k where
  callable := up.callable _ _ hk.callable
  lends := same.lends.trans hk.lends
  prototype_lt := Nat.lt_of_lt_of_le hk.prototype_lt up.size
  method := by
    intro name m hm
    obtain ⟨id, hown, hcallable⟩ := hk.method name m hm
    exact ⟨id, (same.members name).trans hown, up.callable _ _ hcallable⟩
  missing := fun name hnone => (same.members name).trans (hk.missing name hnone)
  parent := fun v hv => up.holds (hk.parent v hv)
  root := fun hnone => same.link.trans (hk.root hnone)

/-! ## A class is opened -/

namespace Building

/-- The function object of a class that is opened. -/
def opened (h : Heap β) (c : Callable β) : Obj β :=
  { kind := .function c,
    properties := [(prototypeKey, .hidden (.object (h.objects.size + 1)))] }

/-- The two objects of a class that is opened. -/
def opening (h : Heap β) (c : Callable β) : Heap β :=
  ((h.alloc (opened h c)).2.alloc { kind := .ordinary }).2

theorem define_opening (h : Heap β) (c : Callable β) :
    ((h.alloc { kind := .function c }).2.alloc { kind := .ordinary }).2.define h.objects.size
      prototypeKey (.hidden (.object (h.alloc { kind := .function c }).2.objects.size)) =
        opening h c := by
  rw [Heap.size_alloc]
  let hold : Obj β → Obj β := fun o => { o with
    properties := Table.insert o.properties prototypeKey (.hidden (.object (h.objects.size + 1))) }
  have hobjects : ((h.objects.push { kind := .function c }).push { kind := .ordinary }).modify
      h.objects.size hold = (h.objects.push (opened h c)).push { kind := .ordinary } := by
    refine Array.ext_getElem? fun i => ?_
    rw [Array.getElem?_modify]
    simp only [Array.getElem?_push, Array.size_push]
    by_cases hi : h.objects.size = i
    · subst hi
      rw [if_pos rfl, if_neg (Nat.succ_ne_self _).symm, if_pos rfl,
        if_neg (Nat.succ_ne_self _).symm, if_pos rfl]
      rfl
    · rw [if_neg hi, if_neg (Ne.symm hi), if_neg (Ne.symm hi)]
  exact congrArg (fun objects => { h with objects := objects }) hobjects

theorem obj?_opening_function (h : Heap β) (c : Callable β) :
    (opening h c).obj? h.objects.size = some (opened h c) :=
  (Heap.Extends.refl _).alloc _ _ _ (h.obj?_alloc (opened h c))

theorem obj?_opening_prototype (h : Heap β) (c : Callable β) :
    (opening h c).obj? (h.objects.size + 1) = some { kind := .ordinary } := by
  have hobj := (h.alloc (opened h c)).2.obj?_alloc { kind := .ordinary }
  rwa [Heap.size_alloc] at hobj

theorem own?_opening (h : Heap β) (c : Callable β) :
    (opening h c).own? h.objects.size prototypeKey =
      some (.hidden (.object (h.objects.size + 1))) := by
  rw [Heap.own?, Heap.properties, obj?_opening_function]
  rfl

theorem extends_opening (h : Heap β) (c : Callable β) : h.Extends (opening h c) :=
  ((Heap.Extends.refl h).alloc _).alloc _

theorem function_of_arrow {c : Callable β} (hc : c.flavor = .arrow) (h : Heap β) :
    function c h = (h.objects.size, (h.alloc { kind := .function c }).2) := by
  obtain ⟨name, length, flavor, body⟩ := c
  cases hc
  rfl

theorem function_of_ne_arrow {c : Callable β} (hc : c.flavor ≠ .arrow) (h : Heap β) :
    function c h = (h.objects.size, opening h c) := by
  obtain ⟨name, length, flavor, body⟩ := c
  have hopens := define_opening h ⟨name, length, flavor, body⟩
  cases flavor with
  | arrow => exact absurd rfl hc
  | _ => exact congrArg (Prod.mk h.objects.size) hopens

theorem get_alloc_function (h : Heap β) (c : Callable β) (key : String) :
    (h.alloc { kind := .function c }).2.get (.object h.objects.size) key = .undefined := by
  have hobj := h.obj?_alloc { kind := .function c }
  rw [Heap.get, Heap.chainFuel, Heap.lookup, Heap.own?, Heap.properties, hobj, Heap.prototype?,
    hobj]
  rfl

theorem instancePrototype_of_object {h : Heap β} {f p : Nat}
    (hget : h.get (.object f) prototypeKey = .object p) : instancePrototype f h = (p, h) := by
  have hread : (get : Building β (Heap β)) h = (h, h) := rfl
  simp only [instancePrototype, bind, StateT.bind, hread, hget]
  rfl

theorem instancePrototype_of_undefined {h : Heap β} {f : Nat}
    (hget : h.get (.object f) prototypeKey = .undefined) :
    instancePrototype f h = (h.objects.size, (h.alloc { kind := .ordinary }).2.define f prototypeKey
      (.hidden (.object h.objects.size))) := by
  have hread : (get : Building β (Heap β)) h = (h, h) := rfl
  simp only [instancePrototype, bind, StateT.bind, hread, hget]
  rfl

/-- A class that is opened gets its two objects, whether or not its function may construct by
itself. -/
theorem openClass_eq (c : Callable β) (h : Heap β) :
    openClass c h = ((h.objects.size, h.objects.size + 1), opening h c) := by
  have hbind : openClass c h =
      (((function c h).1, (instancePrototype (function c h).1 (function c h).2).1),
        (instancePrototype (function c h).1 (function c h).2).2) := rfl
  by_cases harrow : c.flavor = .arrow
  · have hmade := instancePrototype_of_undefined (get_alloc_function h c prototypeKey)
    rw [define_opening, Heap.size_alloc] at hmade
    rw [hbind, function_of_arrow harrow, hmade]
  · have hget : (opening h c).get (.object h.objects.size) prototypeKey =
        .object (h.objects.size + 1) :=
      Heap.get_of_own? (own?_opening h c)
    rw [hbind, function_of_ne_arrow harrow, instancePrototype_of_object hget]

end Building

/-! ## A step is taken -/

namespace Heap

/-- Another prototype for an object, if there is one. -/
def relink (h : Heap β) (id : Nat) : Option Nat → Heap β
  | some q => h.setPrototype id (some q)
  | none => h

/-- A heap with a function that an object has under its name. -/
def enlist (h : Heap β) (id : Nat) (m : ClassMember β) : Heap β :=
  (h.alloc { kind := .function m.callable }).2.define id m.name (.hidden (.object h.objects.size))

theorem obj?_relink (h : Heap β) {id j : Nat} (hne : j ≠ id) (q : Option Nat) :
    (h.relink id q).obj? j = h.obj? j := by
  cases q with
  | some q => exact h.obj?_modify_of_ne hne _
  | none => rfl

theorem own?_relink (h : Heap β) (id : Nat) (q : Option Nat) (j : Nat) (key : String) :
    (h.relink id q).own? j key = h.own? j key := by
  cases q with
  | some q => exact own?_setPrototype h id (some q) j key
  | none => rfl

theorem upholds_relink (h : Heap β) (id : Nat) (q : Option Nat) : h.Upholds (h.relink id q) := by
  cases q with
  | some q => exact .modify h id fun _ => rfl
  | none => exact .refl h

theorem obj?_enlist {id j : Nat} (hj : j < h.objects.size) (hne : j ≠ id) (m : ClassMember β) :
    (h.enlist id m).obj? j = h.obj? j :=
  (obj?_modify_of_ne _ hne _).trans (((Extends.refl h).alloc _).obj?_eq hj)

theorem own?_enlist {id : Nat} (hid : id < h.objects.size) (m : ClassMember β) (name : String) :
    (h.enlist id m).own? id name =
      if name = m.name then some (.hidden (.object h.objects.size)) else h.own? id name := by
  have ext : h.Extends (h.alloc { kind := .function m.callable }).2 := (Extends.refl h).alloc _
  rw [enlist, own?_define (Nat.lt_of_lt_of_le hid ext.size_le), ext.own?_eq hid]

theorem prototype?_enlist {j : Nat} (hj : j < h.objects.size) (id : Nat) (m : ClassMember β) :
    (h.enlist id m).prototype? j = h.prototype? j :=
  (prototype?_define _ _ _ _ _).trans (((Extends.refl h).alloc _).prototype?_eq hj)

theorem callable?_enlist {id : Nat} (hid : id < h.objects.size) (m : ClassMember β) :
    (h.enlist id m).callable? (.object h.objects.size) = some m.callable := by
  have hobj := obj?_modify_of_ne (h.alloc { kind := .function m.callable }).2 (Nat.ne_of_gt hid)
    fun o => { o with
      properties := Table.insert o.properties m.name (.hidden (.object h.objects.size)) }
  rw [callable?, enlist, define, hobj, obj?_alloc]

theorem upholds_enlist (h : Heap β) (id : Nat) (m : ClassMember β) : h.Upholds (h.enlist id m) :=
  .trans (.of_extends ((Extends.refl h).alloc _)) (.modify _ id fun _ => rfl)

end Heap

namespace ClassStep

variable {f p : Nat}

theorem run_inherit (f p : Nat) (parent : Value) (h : Heap β) :
    ((inherit parent).run f p h).2 =
      (h.relink p (h.get parent Building.prototypeKey).object?).relink f parent.object? := by
  simp only [run, Building.inheritFrom, bind, StateT.bind, get, getThe, MonadStateOf.get,
    StateT.get, pure]
  cases h.get parent Building.prototypeKey <;> cases parent <;> rfl

theorem upholds_run (s : ClassStep β) (f p : Nat) (h : Heap β) : h.Upholds (s.run f p h).2 := by
  cases s with
  | inherit parent =>
      rw [run_inherit]
      exact (h.upholds_relink _ _).trans (Heap.upholds_relink _ _ _)
  | method m => exact h.upholds_enlist p m
  | static m => exact h.upholds_enlist f m

/-- A step changes no objects but the two of the class. -/
theorem obj?_run (s : ClassStep β) {h : Heap β} {j : Nat} (hj : j < h.objects.size) (hf : j ≠ f)
    (hp : j ≠ p) : (s.run f p h).2.obj? j = h.obj? j := by
  cases s with
  | inherit parent => rw [run_inherit, Heap.obj?_relink _ hf, Heap.obj?_relink _ hp]
  | method m => exact Heap.obj?_enlist hj hp m
  | static m => exact Heap.obj?_enlist hj hf m

end ClassStep

namespace Made

theorem parent?_after (k : Made β) (s : ClassStep β) :
    (k.after s).parent? = s.parent?.or k.parent? := by
  rw [parent?, after, List.findSome?_cons]
  cases s.parent? <;> rfl

theorem method?_after (k : Made β) (s : ClassStep β) (name : String) :
    (k.after s).method? name = (s.method? name).or (k.method? name) := by
  rw [method?, after, List.findSome?_cons]
  cases s.method? name <;> rfl

end Made

/-! ## What a heap has for classes that are made -/

/-- What a heap has for several classes: no two of them share an object, and each that extends
another lets the prototypes for the instances inherit. -/
structure Intact (h : Heap β) (ks : List (Made β)) : Prop where
  apart : (ks.flatMap Made.objects).Nodup
  stands : ∀ k ∈ ks, Stands h k
  links : ∀ k ∈ ks, ∀ k' ∈ ks, k.parent? = some (.object k'.function) →
    h.prototype? k.prototype = some k'.prototype

namespace Stands

theorem opening (h : Heap β) (c : Callable β) :
    Stands (Building.opening h c) ⟨h.objects.size, h.objects.size + 1, c, []⟩ where
  callable := by
    rw [Heap.callable?, Building.obj?_opening_function]
    rfl
  lends := Building.own?_opening h c
  prototype_lt := Heap.lt_of_obj? (Building.obj?_opening_prototype h c)
  method := fun _ _ hm => nomatch hm
  missing := by
    intro name _
    rw [Heap.own?, Heap.properties, Building.obj?_opening_prototype]
    rfl
  parent := fun _ hv => nomatch hv
  root := by
    intro _
    rw [Heap.prototype?, Building.obj?_opening_prototype]
    rfl

variable (hk : Stands h k) (hne : k.function ≠ k.prototype)

include hk

theorem inherit {parent : Value} (hparent : h.Holds parent) :
    Stands ((ClassStep.inherit parent).run k.function k.prototype h).2
      (k.after (.inherit parent)) := by
  have up := (ClassStep.inherit parent).upholds_run k.function k.prototype h
  have hown : ∀ j key, ((ClassStep.inherit parent).run k.function k.prototype h).2.own? j key =
      h.own? j key := by
    intro j key
    rw [ClassStep.run_inherit, Heap.own?_relink, Heap.own?_relink]
  constructor
  case callable => exact up.callable _ _ hk.callable
  case lends => exact (hown _ _).trans hk.lends
  case prototype_lt => exact Nat.lt_of_lt_of_le hk.prototype_lt up.size
  case method =>
    intro name m hm
    obtain ⟨id, hid, hcallable⟩ := hk.method name m hm
    exact ⟨id, (hown _ _).trans hid, up.callable _ _ hcallable⟩
  case missing => exact fun name hnone => (hown _ _).trans (hk.missing name hnone)
  case parent =>
    intro v hv
    cases hv
    exact up.holds hparent
  case root => exact fun hnone => nomatch hnone

include hne

theorem enlist_method (m : ClassMember β) :
    Stands (h.enlist k.prototype m) (k.after (.method m)) := by
  have up := h.upholds_enlist k.prototype m
  have hown := h.own?_enlist hk.prototype_lt m
  constructor
  case callable => exact up.callable _ _ hk.callable
  case lends => exact (Heap.own?_congr (Heap.obj?_enlist hk.function_lt hne m) _).trans hk.lends
  case prototype_lt => exact Nat.lt_of_lt_of_le hk.prototype_lt up.size
  case method =>
    intro name m' hm'
    rw [Made.method?_after, ClassStep.method?] at hm'
    by_cases hname : name = m.name
    · rw [if_pos hname] at hm'
      cases hm'
      exact ⟨_, (hown name).trans (if_pos hname), Heap.callable?_enlist hk.prototype_lt m⟩
    · rw [if_neg hname] at hm'
      obtain ⟨id, hid, hcallable⟩ := hk.method name m' hm'
      exact ⟨id, ((hown name).trans (if_neg hname)).trans hid, up.callable _ _ hcallable⟩
  case missing =>
    intro name hnone
    rw [Made.method?_after, ClassStep.method?] at hnone
    by_cases hname : name = m.name
    · rw [if_pos hname] at hnone
      cases hnone
    · rw [if_neg hname] at hnone
      exact ((hown name).trans (if_neg hname)).trans (hk.missing name hnone)
  case parent => exact fun v hv => up.holds (hk.parent v hv)
  case root => exact fun hnone => (Heap.prototype?_enlist hk.prototype_lt _ m).trans (hk.root hnone)

theorem enlist_static {m : ClassMember β} (hm : m.name ≠ Building.prototypeKey) :
    Stands (h.enlist k.function m) (k.after (.static m)) := by
  have hprototype := Heap.obj?_enlist hk.prototype_lt hne.symm m
  have same : Untouched h (h.enlist k.function m) k :=
    ⟨(Heap.own?_enlist hk.function_lt m _).trans (if_neg hm.symm), Heap.own?_congr hprototype,
      Heap.prototype?_congr hprototype⟩
  have stands := hk.of_untouched (h.upholds_enlist k.function m) same
  exact ⟨stands.callable, stands.lends, stands.prototype_lt, stands.method, stands.missing,
    stands.parent, stands.root⟩

/-- A step that fits gives the heap what the class then needs. -/
theorem run {step : ClassStep β} (fits : step.Fits h) :
    Stands (step.run k.function k.prototype h).2 (k.after step) := by
  cases step with
  | inherit parent => exact hk.inherit fits
  | method m => exact hk.enlist_method hne m
  | static m => exact hk.enlist_static hne fits

end Stands

namespace Intact

variable {ks ks' : List (Made β)}

theorem perm (intact : Intact h ks) (perm : ks.Perm ks') : Intact h ks' where
  apart := (perm.flatMap_right Made.objects).nodup_iff.mp intact.apart
  stands := fun k hk => intact.stands k (perm.mem_iff.mpr hk)
  links := fun k hk k' hk' => intact.links k (perm.mem_iff.mpr hk) k' (perm.mem_iff.mpr hk')

theorem passes (intact : Intact h ks) (up : h.Upholds h') (same : ∀ k ∈ ks, Untouched h h' k) :
    Intact h' ks where
  apart := intact.apart
  stands := fun k hk => (intact.stands k hk).of_untouched up (same k hk)
  links := fun k hk k' hk' hparent => (same k hk).link.trans (intact.links k hk k' hk' hparent)

theorem lt_of_mem_objects (intact : Intact h ks) {id : Nat} (hid : id ∈ ks.flatMap Made.objects) :
    id < h.objects.size := by
  obtain ⟨k, hk, hmem⟩ := List.mem_flatMap.mp hid
  rcases List.mem_pair.mp hmem with rfl | rfl
  · exact (intact.stands k hk).function_lt
  · exact (intact.stands k hk).prototype_lt

theorem opens (intact : Intact h ks) (c : Callable β) :
    Intact (Building.opening h c) (⟨h.objects.size, h.objects.size + 1, c, []⟩ :: ks) := by
  have ext := Building.extends_opening h c
  have old := intact.passes (.of_extends ext)
    fun k hk => (intact.stands k hk).untouched_of_extends ext
  constructor
  case apart =>
    refine List.nodup_append.mpr ⟨by simp [Made.objects], intact.apart, fun i hi j hj => ?_⟩
    have hlt := intact.lt_of_mem_objects hj
    rcases List.mem_pair.mp hi with rfl | rfl
    · exact Nat.ne_of_gt hlt
    · exact Nat.ne_of_gt (Nat.lt_succ_of_lt hlt)
  case stands => exact List.forall_mem_cons.mpr ⟨.opening h c, old.stands⟩
  case links =>
    intro k hk k' hk' hparent
    rcases List.mem_cons.mp hk with rfl | hk
    · cases hparent
    · rcases List.mem_cons.mp hk' with rfl | hk'
      -- What a class extends was there before.
      · exact absurd ((intact.stands k hk).parent _ hparent) (Nat.lt_irrefl _)
      · exact old.links k hk k' hk' hparent

theorem function_ne_prototype (intact : Intact h ks) (hk : k ∈ ks) : k.function ≠ k.prototype := by
  have hnodup : k.objects.Nodup := (List.nodup_flatMap.mp intact.apart).1 k hk
  exact fun heq => (List.nodup_cons.mp hnodup).1 (heq ▸ List.mem_cons_self)

/-- A step for one class leaves the others as they are. -/
theorem untouched_run (intact : Intact h (k :: ks)) (step : ClassStep β) {e : Made β}
    (he : e ∈ ks) : Untouched h (step.run k.function k.prototype h).2 e := by
  have hstands := intact.stands e (List.mem_cons_of_mem k he)
  have hapart := (List.nodup_append.mp intact.apart).2.2
  have hne : ∀ i ∈ k.objects, ∀ j ∈ e.objects, j ≠ i := fun i hi j hj heq =>
    hapart i hi j (List.mem_flatMap.mpr ⟨e, he, hj⟩) heq.symm
  have hsame : ∀ j ∈ e.objects, j < h.objects.size →
      (step.run k.function k.prototype h).2.obj? j = h.obj? j := fun j hj hlt =>
    step.obj?_run hlt (hne _ (by simp [Made.objects]) j hj) (hne _ (by simp [Made.objects]) j hj)
  exact untouched_of_obj? (hsame _ (by simp [Made.objects]) hstands.function_lt)
    (hsame _ (by simp [Made.objects]) hstands.prototype_lt)

/-- A class that extends another one after a step has its prototype inherit from the other's. -/
theorem link_run (intact : Intact h ks) (hk : k ∈ ks) {step : ClassStep β} {e : Made β}
    (he : e ∈ ks) (hparent : (k.after step).parent? = some (.object e.function)) :
    (step.run k.function k.prototype h).2.prototype? k.prototype = some e.prototype := by
  have hlt := (intact.stands k hk).prototype_lt
  have hne := intact.function_ne_prototype hk
  cases step with
  | inherit parent =>
      cases hparent
      rw [ClassStep.run_inherit, Heap.prototype?_congr (Heap.obj?_relink _ hne.symm _),
        (intact.stands e he).get]
      exact Heap.prototype?_setPrototype hlt _
  | method m => exact (Heap.prototype?_enlist hlt _ m).trans (intact.links k hk e he hparent)
  | static m => exact (Heap.prototype?_enlist hlt _ m).trans (intact.links k hk e he hparent)

theorem takes (intact : Intact h (k :: ks)) {step : ClassStep β} (fits : step.Fits h) :
    Intact (step.run k.function k.prototype h).2 (k.after step :: ks) := by
  have hk : k ∈ k :: ks := List.mem_cons_self
  have up := step.upholds_run k.function k.prototype h
  have same : ∀ e ∈ ks, Untouched h (step.run k.function k.prototype h).2 e :=
    fun e he => intact.untouched_run step he
  -- The class has the same objects before the step.
  have hbefore : ∀ e ∈ k.after step :: ks, ∃ x ∈ k :: ks, x.function = e.function ∧
      x.prototype = e.prototype := by
    intro e he
    rcases List.mem_cons.mp he with rfl | he
    · exact ⟨k, hk, rfl, rfl⟩
    · exact ⟨e, List.mem_cons_of_mem k he, rfl, rfl⟩
  constructor
  case apart => exact intact.apart
  case stands =>
    exact List.forall_mem_cons.mpr
      ⟨(intact.stands k hk).run (intact.function_ne_prototype hk) fits,
        fun e he => (intact.stands e (List.mem_cons_of_mem k he)).of_untouched up (same e he)⟩
  case links =>
    intro e he e' he' hparent
    obtain ⟨x, hx, hfunction, hprototype⟩ := hbefore e' he'
    rw [← hfunction] at hparent
    rw [← hprototype]
    rcases List.mem_cons.mp he with rfl | he
    · exact intact.link_run hk hx hparent
    · exact (same e he).link.trans
        (intact.links e (List.mem_cons_of_mem k he) x hx hparent)

end Intact

/-! ## Workshops -/

/-- A heap and the classes on it: those that are being made, which nothing can refer to yet, and
those that have been made, the latest first. -/
structure Workshop (β : Type) where
  heap : Heap β
  making : List (Made β) := []
  made : List (Made β) := []

namespace Workshop

variable {s s' : Workshop β}

/-- All classes of a workshop. -/
def classes (s : Workshop β) : List (Made β) :=
  s.making ++ s.made

/-- What can happen in a workshop. -/
inductive Step (s : Workshop β) : Workshop β → Prop
  /-- A class is opened. -/
  | opens (c : Callable β) :
      Step s { s with
        heap := (Building.openClass c s.heap).2,
        making := ⟨(Building.openClass c s.heap).1.1, (Building.openClass c s.heap).1.2, c, []⟩ ::
          s.making }
  /-- A class that is being made is taken a step further, and extends none that is not done. -/
  | takes (before after : List (Made β)) (k : Made β) (step : ClassStep β)
      (split : s.making = before ++ k :: after) (fits : step.Fits s.heap)
      (done : ∀ e ∈ s.making, step.parent? ≠ some (.object e.function)) :
      Step s { s with
        heap := (step.run k.function k.prototype s.heap).2,
        making := before ++ k.after step :: after }
  /-- A class is done. -/
  | finishes (before after : List (Made β)) (k : Made β) (split : s.making = before ++ k :: after) :
      Step s { s with making := before ++ after, made := k :: s.made }
  /-- Other code runs and leaves the classes as they are. -/
  | passes (h : Heap β) (up : s.heap.Upholds h) (same : ∀ k ∈ s.classes, Untouched s.heap h k) :
      Step s { s with heap := h }

/-- What can come of a heap on which no class has been made. -/
def Reached (s : Workshop β) : Prop :=
  ∃ h, Relation.ReflTransGen Step ⟨h, [], []⟩ s

/-- Classes of which none extends itself or one that comes before it. -/
inductive Descending : List (Made β) → Prop
  | nil : Descending []
  | cons {k : Made β} {ks : List (Made β)}
      (later : ∀ e ∈ k :: ks, e.parent? ≠ some (.object k.function)) (rest : Descending ks) :
      Descending (k :: ks)

/-- What holds of a workshop whatever has happened in it. -/
structure Orderly (s : Workshop β) : Prop where
  intact : Intact s.heap s.classes
  unknown : ∀ k ∈ s.making, ∀ e ∈ s.classes, e.parent? ≠ some (.object k.function)
  descending : Descending s.made

/-- The class that a step is for, put first. -/
theorem perm_classes {before after : List (Made β)} {k : Made β}
    (split : s.making = before ++ k :: after) :
    s.classes.Perm (k :: (before ++ after ++ s.made)) := by
  rw [classes, split, List.append_assoc, List.cons_append, List.append_assoc]
  exact List.perm_middle

theorem Orderly.opens (orderly : s.Orderly) (c : Callable β) :
    Orderly { s with
      heap := Building.opening s.heap c,
      making := ⟨s.heap.objects.size, s.heap.objects.size + 1, c, []⟩ :: s.making } where
  intact := orderly.intact.opens c
  unknown := by
    intro k hk e he hparent
    rcases List.mem_cons.mp he with rfl | he
    · cases hparent
    · rcases List.mem_cons.mp hk with rfl | hk
      · exact absurd ((orderly.intact.stands e he).parent _ hparent) (Nat.lt_irrefl _)
      · exact orderly.unknown k hk e he hparent
  descending := orderly.descending

theorem Orderly.takes (orderly : s.Orderly) {before after : List (Made β)} {k : Made β}
    {step : ClassStep β} (split : s.making = before ++ k :: after) (fits : step.Fits s.heap)
    (done : ∀ e ∈ s.making, step.parent? ≠ some (.object e.function)) :
    Orderly { s with
      heap := (step.run k.function k.prototype s.heap).2,
      making := before ++ k.after step :: after } := by
  have perm := perm_classes split
  have perm' : (classes { s with
      heap := (step.run k.function k.prototype s.heap).2,
      making := before ++ k.after step :: after }).Perm
      (k.after step :: (before ++ after ++ s.made)) :=
    perm_classes rfl
  refine ⟨((orderly.intact.perm perm).takes fits).perm perm'.symm, ?_, orderly.descending⟩
  intro x hx e he hparent
  obtain ⟨y, hy, hfunction⟩ : ∃ y ∈ s.making, y.function = x.function := by
    rw [split]
    rcases List.mem_append.mp hx with hx | hx
    · exact ⟨x, List.mem_append_left _ hx, rfl⟩
    · rcases List.mem_cons.mp hx with rfl | hx
      · exact ⟨k, List.mem_append_right _ List.mem_cons_self, rfl⟩
      · exact ⟨x, List.mem_append_right _ (List.mem_cons_of_mem k hx), rfl⟩
  rw [← hfunction] at hparent
  rcases List.mem_cons.mp (perm'.mem_iff.mp he) with rfl | he
  · rw [Made.parent?_after] at hparent
    rcases Option.or_eq_some_iff.mp hparent with hstep | ⟨-, hbefore⟩
    · exact done y hy hstep
    · exact orderly.unknown y hy k (perm.mem_iff.mpr List.mem_cons_self) hbefore
  · exact orderly.unknown y hy e (perm.mem_iff.mpr (List.mem_cons_of_mem k he)) hparent

theorem Orderly.finishes (orderly : s.Orderly) {before after : List (Made β)} {k : Made β}
    (split : s.making = before ++ k :: after) :
    Orderly { s with making := before ++ after, made := k :: s.made } := by
  have perm : (before ++ after ++ k :: s.made).Perm s.classes :=
    List.perm_middle.trans (perm_classes split).symm
  have hmaking : ∀ x ∈ before ++ after, x ∈ s.making := by
    intro x hx
    rw [split]
    exact (List.sublist_cons_self k after).append_left before |>.subset hx
  have hk : k ∈ s.making := by
    rw [split]
    exact List.mem_append_right _ List.mem_cons_self
  refine ⟨orderly.intact.perm perm.symm, ?_, .cons ?_ orderly.descending⟩
  · exact fun x hx e he => orderly.unknown x (hmaking x hx) e (perm.mem_iff.mp he)
  · exact fun e he => orderly.unknown k hk e (perm.mem_iff.mp (List.mem_append_right _ he))

theorem Orderly.step (orderly : s.Orderly) (step : Step s s') : s'.Orderly := by
  cases step with
  | opens c =>
      rw [Building.openClass_eq]
      exact orderly.opens c
  | takes before after k step split fits done => exact orderly.takes split fits done
  | finishes before after k split => exact orderly.finishes split
  | passes h up same =>
      exact ⟨orderly.intact.passes up same, orderly.unknown, orderly.descending⟩

/-- **Whatever has happened in a workshop, the heap has what its classes need.** -/
theorem Reached.orderly (reached : s.Reached) : s.Orderly := by
  obtain ⟨h, run⟩ := reached
  induction run with
  | refl => exact ⟨⟨List.nodup_nil, nofun, nofun⟩, nofun, .nil⟩
  | tail _ step ih => exact ih.step step

end Workshop

/-! ## Classes that are made from a plan -/

/-- The function of the class that a plan is for. -/
def ClassPlan.callable (c : ClassPlan β) : Callable β :=
  { name := c.name, length := c.length, flavor := c.flavor, body := c.body }

/-- The steps for a plan, in order. -/
def ClassPlan.steps (c : ClassPlan β) : List (ClassStep β) :=
  c.parent.toList.map .inherit ++ (c.methods.map .method ++ c.statics.map .static)

theorem ClassPlan.forall_steps {P : ClassStep β → Prop} (c : ClassPlan β)
    (hparent : ∀ v ∈ c.parent, P (.inherit v)) (hmethods : ∀ m ∈ c.methods, P (.method m))
    (hstatics : ∀ m ∈ c.statics, P (.static m)) : ∀ step ∈ c.steps, P step := by
  intro step hstep
  rcases List.mem_append.mp hstep with hstep | hstep
  · obtain ⟨v, hv, rfl⟩ := List.mem_map.mp hstep
    exact hparent v (Option.mem_toList.mp hv)
  · rcases List.mem_append.mp hstep with hstep | hstep
    · obtain ⟨m, hm, rfl⟩ := List.mem_map.mp hstep
      exact hmethods m hm
    · obtain ⟨m, hm, rfl⟩ := List.mem_map.mp hstep
      exact hstatics m hm

/-- A heap after steps for a class. -/
def ClassStep.runAll (f p : Nat) (steps : List (ClassStep β)) (h : Heap β) : Heap β :=
  steps.foldl (fun h step => (step.run f p h).2) h

theorem Building.addMembers_eq (id : Nat) (ms : List (ClassMember β)) :
    ∀ h, addMembers id ms h = ((), ms.foldl (fun h m => h.enlist id m) h) := by
  induction ms with
  | nil => exact fun _ => rfl
  | cons m ms ih => exact fun h => ih (h.enlist id m)

theorem ClassStep.runAll_members (f p : Nat) (methods statics : List (ClassMember β)) (h : Heap β) :
    runAll f p (methods.map .method ++ statics.map .static) h =
      (Building.addMembers f statics (Building.addMembers p methods h).2).2 := by
  rw [Building.addMembers_eq, Building.addMembers_eq, runAll, List.foldl_append, List.foldl_map,
    List.foldl_map]
  rfl

/-- A class that is made from a plan is opened and then takes the steps of the plan. -/
theorem Building.newClass_eq (c : ClassPlan β) (h : Heap β) :
    newClass c h = ((openClass c.callable h).1, ClassStep.runAll (openClass c.callable h).1.1
      (openClass c.callable h).1.2 c.steps (openClass c.callable h).2) := by
  obtain ⟨name, length, body, flavor, parent, methods, statics⟩ := c
  cases parent with
  | none =>
      rw [ClassPlan.steps, Option.toList_none, List.map_nil, List.nil_append,
        ClassStep.runAll_members]
      rfl
  | some parent =>
      rw [ClassPlan.steps, Option.toList_some, List.map_singleton, List.singleton_append,
        ClassStep.runAll, List.foldl_cons, ← ClassStep.runAll, ClassStep.runAll_members]
      rfl

namespace Workshop

/-- The steps of a class, one after the other. -/
theorem steps_runAll (making made : List (Made β)) (steps : List (ClassStep β)) :
    ∀ (h : Heap β) (k : Made β), (∀ step ∈ steps, step.Fits h) →
    (∀ step ∈ steps, ∀ e ∈ k :: making, step.parent? ≠ some (.object e.function)) →
    Relation.ReflTransGen Step ⟨h, k :: making, made⟩
      ⟨ClassStep.runAll k.function k.prototype steps h,
        { k with steps := steps.reverse ++ k.steps } :: making, made⟩ := by
  induction steps with
  | nil => exact fun _ _ _ _ => .refl
  | cons step steps ih =>
      intro h k fits done
      obtain ⟨hfits, fits⟩ := List.forall_mem_cons.mp fits
      obtain ⟨hdone, done⟩ := List.forall_mem_cons.mp done
      have hrest := ih _ (k.after step)
        (fun s hs => (fits s hs).of_upholds (step.upholds_run k.function k.prototype h))
        fun s hs => List.forall_mem_cons.mpr (List.forall_mem_cons.mp (done s hs))
      have hsteps : steps.reverse ++ step :: k.steps = (step :: steps).reverse ++ k.steps := by
        rw [List.reverse_cons, List.append_assoc, List.singleton_append]
      rw [← hsteps]
      exact .head (.takes [] making k step rfl hfits hdone) hrest

/-- A class that is made from a plan is one of those that can be made in a workshop. -/
theorem steps_newClass (s : Workshop β) (c : ClassPlan β)
    (hparent : ∀ v ∈ c.parent, s.heap.Holds v ∧ ∀ e ∈ s.making, v ≠ .object e.function)
    (hstatics : ∀ m ∈ c.statics, m.name ≠ Building.prototypeKey) :
    Relation.ReflTransGen Step s ⟨(Building.newClass c s.heap).2, s.making,
      ⟨(Building.newClass c s.heap).1.1, (Building.newClass c s.heap).1.2, c.callable,
        c.steps.reverse⟩ :: s.made⟩ := by
  have hopen : Step s _ := .opens c.callable
  rw [Building.newClass_eq]
  rw [Building.openClass_eq] at hopen ⊢
  have up : s.heap.Upholds (Building.opening s.heap c.callable) :=
    .of_extends (Building.extends_opening _ _)
  have fits : ∀ step ∈ c.steps, step.Fits (Building.opening s.heap c.callable) :=
    c.forall_steps (fun v hv => up.holds (hparent v hv).1) (fun _ _ => trivial) hstatics
  have done : ∀ step ∈ c.steps, step.parent? ≠ some (.object s.heap.objects.size) ∧
      ∀ e ∈ s.making, step.parent? ≠ some (.object e.function) := by
    refine c.forall_steps (fun v hv => ⟨?_, ?_⟩) (fun _ _ => ⟨nofun, nofun⟩)
      fun _ _ => ⟨nofun, nofun⟩
    · rintro ⟨⟩
      exact Nat.lt_irrefl _ (hparent _ hv).1
    · rintro e he ⟨⟩
      exact (hparent _ hv).2 e he rfl
  have hsteps := steps_runAll s.making s.made c.steps (Building.opening s.heap c.callable)
    ⟨s.heap.objects.size, s.heap.objects.size + 1, c.callable, []⟩ fits
    fun step hstep => List.forall_mem_cons.mpr (done step hstep)
  rw [List.append_nil] at hsteps
  exact (Relation.ReflTransGen.head hopen hsteps).tail (.finishes [] s.making _ rfl)

end Workshop

end ApiSurface.Live
