/-
# `ApiSurface.Proofs.Live.Descent` — what an instance has from a line of classes

Of classes that extend one another, the prototypes for their instances inherit from one another in
the same order (`Intact.linked`), no class comes twice (`Workshop.Descending.nodup`), and an object
that the first one constructs begins that chain.  A heap follows more prototypes than the chain has,
so that the object is an instance of every class on it, and what it has under a name is the method
of the nearest class that defines one (`construct_of_descent`).
-/
import ApiSurface.Proofs.Live.Assembly
import ApiSurface.Proofs.Reflect.Probing
import Mathlib.Data.List.Chain

namespace ApiSurface.Live

variable {β σ : Type}

/-! ## Prototypes followed along a chain -/

namespace Heap

variable {h : Heap β}

/-- Objects each of which is the prototype of the one before. -/
def Linked (h : Heap β) (ids : List Nat) : Prop :=
  ids.IsChain fun id p => h.prototype? id = some p

/-- Following prototypes for as many steps as a chain has goes along the chain, and stops with it
where the last object has no prototype. -/
theorem chainTo_of_linked : ∀ {ps : List Nat} {id n : Nat}, h.Linked (id :: ps) → ps.length ≤ n →
    ∃ rest, h.chainTo n id = ps ++ rest ∧
      (h.prototype? ((id :: ps).getLast (List.cons_ne_nil _ _)) = none → rest = []) := by
  intro ps
  induction ps with
  | nil =>
      intro id n _ _
      refine ⟨h.chainTo n id, rfl, fun hlast => ?_⟩
      cases n with
      | zero => rfl
      | succ n => rw [chainTo, show h.prototype? id = none from hlast]
  | cons p ps ih =>
      intro id n linked hn
      obtain ⟨hp, linked⟩ := List.isChain_cons_cons.mp linked
      obtain ⟨n, rfl⟩ : ∃ m, n = m + 1 :=
        Nat.exists_eq_add_one.mpr (Nat.lt_of_lt_of_le (by simp) hn)
      obtain ⟨rest, hrest, hlast⟩ := ih linked (Nat.le_of_succ_le_succ hn)
      refine ⟨rest, ?_, fun hnone => hlast ?_⟩
      · rw [chainTo, hp]
        exact congrArg (p :: ·) hrest
      · rwa [List.getLast_cons_cons] at hnone

theorem instanceOf_eq {constructor : Value} {p : Nat}
    (hget : h.get constructor Building.prototypeKey = .object p) (id : Nat) :
    h.instanceOf (.object id) constructor = h.inherits id p := by
  unfold instanceOf
  rw [show h.get constructor "prototype" = .object p from hget]

end Heap

/-! ## A class and those it extends -/

/-- Classes each of which extends the next. -/
def Descent (ks : List (Made β)) : Prop :=
  ks.IsChain fun k k' => k.parent? = some (.object k'.function)

/-- What the classes of a descent extend comes after the class that none of them extends. -/
theorem Descent.tail_subset {k : Made β} {made : List (Made β)}
    (later : ∀ e ∈ k :: made, e.parent? ≠ some (.object k.function)) :
    ∀ {ks : List (Made β)} {x : Made β}, Descent (x :: ks) → x :: ks ⊆ k :: made → ks ⊆ made := by
  intro ks
  induction ks with
  | nil => exact fun _ _ => List.nil_subset made
  | cons y ks ih =>
      intro x descent hsubset
      obtain ⟨hy, descent⟩ := List.isChain_cons_cons.mp descent
      obtain ⟨hx, hsubset⟩ := List.cons_subset.mp hsubset
      have hmem : y ∈ made := by
        refine (List.mem_cons.mp (hsubset List.mem_cons_self)).resolve_left fun heq => ?_
        exact later x hx (heq ▸ hy)
      exact List.cons_subset.mpr ⟨hmem, ih descent hsubset⟩

/-- No class of a descent comes twice. -/
theorem Workshop.Descending.nodup {made : List (Made β)} (descending : Descending made) :
    ∀ {ks : List (Made β)}, Descent ks → ks ⊆ made → ks.Nodup := by
  induction descending with
  | nil =>
      intro ks _ hks
      rw [List.subset_nil.mp hks]
      exact List.nodup_nil
  | @cons k made later _ ih =>
      intro ks descent hks
      cases ks with
      | nil => exact List.nodup_nil
      | cons x ks =>
          have htail : ks ⊆ made := Descent.tail_subset later descent hks
          refine List.nodup_cons.mpr ⟨fun hx => ?_, ih descent.tail htail⟩
          -- Otherwise the whole descent comes after the class.
          exact (List.nodup_cons.mp (ih descent (List.cons_subset.mpr ⟨htail hx, htail⟩))).1 hx

namespace Intact

variable {h : Heap β} {all ks : List (Made β)}

/-- The prototypes of a descent inherit from one another. -/
theorem linked (intact : Intact h all) (descent : Descent ks) (hks : ks ⊆ all) :
    h.Linked (ks.map Made.prototype) :=
  (List.isChain_map Made.prototype).mpr (List.IsChain.imp_of_mem_imp
    (fun k k' hk hk' hparent => intact.links k (hks hk) k' (hks hk') hparent) descent)

/-- No two classes have the same prototype. -/
theorem nodup_prototypes (intact : Intact h all) (hnodup : ks.Nodup) (hks : ks ⊆ all) :
    (ks.map Made.prototype).Nodup := by
  refine hnodup.map_on fun k hk k' hk' heq => by_contra fun hne => ?_
  have : Std.Symm (Function.onFun List.Disjoint (Made.objects : Made β → List Nat)) :=
    ⟨fun _ _ hd _ hb ha => hd ha hb⟩
  have hdisjoint : List.Disjoint k.objects k'.objects :=
    (List.nodup_flatMap.mp intact.apart).2.forall (hks hk) (hks hk') hne
  exact hdisjoint (List.mem_cons_of_mem _ List.mem_cons_self)
    (heq ▸ List.mem_cons_of_mem _ List.mem_cons_self)

end Intact

/-! ## An instance -/

/-- The prototypes of objects, what functions have as the prototype for their instances, and the
prototypes of some classes are on another heap as they were. -/
structure Spares (ks : List (Made β)) (h h' : Heap β) : Prop where
  links : ∀ id < h.objects.size, h'.prototype? id = h.prototype? id
  lends : ∀ id < h.objects.size,
    h'.own? id Building.prototypeKey = h.own? id Building.prototypeKey
  prototypes : ∀ k ∈ ks, h'.obj? k.prototype = h.obj? k.prototype

/-- A heap with an object that inherits from the prototype of a class. -/
def Made.instantiated (k : Made β) (h : Heap β) : Heap β :=
  (h.alloc { kind := .ordinary, prototype := some k.prototype }).2

/-- What a heap has for an object and the classes that it is an instance of, the nearest first. -/
structure Instance (h : Heap β) (id : Nat) (ks : List (Made β)) : Prop where
  linked : h.Linked (id :: ks.map Made.prototype)
  apart : (ks.map Made.prototype).Nodup
  there : ∀ k ∈ ks, k.prototype < h.objects.size

namespace Instance

variable {h : Heap β} {id : Nat} {ks : List (Made β)}

/-- As many prototypes as there are objects are more than those of the classes. -/
theorem exists_chainTo (inst : Instance h id ks) {n : Nat} (hn : h.objects.size ≤ n) :
    ∃ rest, h.chainTo n id = ks.map Made.prototype ++ rest ∧
      (h.prototype? ((id :: ks.map Made.prototype).getLast (List.cons_ne_nil _ _)) = none →
        rest = []) := by
  have hsubset : ks.map Made.prototype ⊆ List.range h.objects.size := by
    intro p hp
    obtain ⟨k, hk, rfl⟩ := List.mem_map.mp hp
    exact List.mem_range.mpr (inst.there k hk)
  have hle := inst.apart.length_le_of_subset hsubset
  rw [List.length_range] at hle
  exact Heap.chainTo_of_linked inst.linked (Nat.le_trans hle hn)

theorem inherits (inst : Instance h id ks) {k : Made β} (hk : k ∈ ks) :
    h.inherits id k.prototype = true := by
  obtain ⟨rest, hrest, -⟩ := inst.exists_chainTo (Nat.le_succ _)
  rw [Heap.inherits, Heap.chain, Heap.chainFuel, hrest, List.contains_iff_mem]
  exact List.mem_append_left _ (List.mem_map_of_mem hk)

/-- What the object has under a name that it has not itself. -/
theorem exists_get (inst : Instance h id ks) {key : String} (hown : h.own? id key = none) :
    ∃ rest : List Nat, h.get (.object id) key =
        (((ks.map Made.prototype ++ rest).findSome? (h.own? · key)).bind
          Property.value?).getD .undefined ∧
      (h.prototype? ((id :: ks.map Made.prototype).getLast (List.cons_ne_nil _ _)) = none →
        rest = []) := by
  obtain ⟨rest, hrest, hlast⟩ := inst.exists_chainTo (Nat.le_refl _)
  refine ⟨rest, ?_, hlast⟩
  rw [Heap.get, Heap.chainFuel, Heap.lookup_eq, hrest, List.findSome?_cons, hown]

/-- What the nearest class has that has the name at all. -/
theorem get_of_own? (inst : Instance h id ks) {key : String} (hown : h.own? id key = none)
    {before after : List (Made β)} {k : Made β} (split : ks = before ++ k :: after)
    (hbefore : ∀ b ∈ before, h.own? b.prototype key = none) {v : Value}
    (hk : h.own? k.prototype key = some (.hidden v)) : h.get (.object id) key = v := by
  obtain ⟨rest, hget, -⟩ := inst.exists_get hown
  have hnone : (before.map Made.prototype).findSome? (h.own? · key) = none := by
    refine List.findSome?_eq_none_iff.mpr fun p hp => ?_
    obtain ⟨b, hb, rfl⟩ := List.mem_map.mp hp
    exact hbefore b hb
  rw [hget, split, List.map_append, List.map_cons, List.append_assoc, List.findSome?_append, hnone,
    Option.none_or, List.cons_append, List.findSome?_cons, hk]
  rfl

/-- A name that no class has, if there is nothing beyond the classes. -/
theorem get_of_missing (inst : Instance h id ks) {key : String} (hown : h.own? id key = none)
    (hlast : h.prototype? ((id :: ks.map Made.prototype).getLast (List.cons_ne_nil _ _)) = none)
    (hmissing : ∀ k ∈ ks, h.own? k.prototype key = none) :
    h.get (.object id) key = .undefined := by
  obtain ⟨rest, hget, hrest⟩ := inst.exists_get hown
  have hnone : (ks.map Made.prototype).findSome? (h.own? · key) = none := by
    refine List.findSome?_eq_none_iff.mpr fun p hp => ?_
    obtain ⟨k, hk, rfl⟩ := List.mem_map.mp hp
    exact hmissing k hk
  rw [hget, hrest hlast, List.append_nil, hnone]
  rfl

end Instance

/-! ## Constructing -/

section Constructing

variable {lib : Library β σ} {w w' : World β σ} {k : Made (Code β)} {ks all : List (Made (Code β))}
  {args : List Value} {v : Value}

/-- What a constructor gives whose code returns no object. -/
theorem construct_eq_fresh (stands : Stands w.heap k) (hflavor : k.callable.flavor ≠ .arrow)
    (runs : runCode lib k.callable.body ⟨.object w.heap.objects.size, args, true⟩
      { w with heap := k.instantiated w.heap } = (.ok v, w'))
    (plain : v.object? = none) :
    construct lib (.object k.function) args w = (.ok (.object w.heap.objects.size), w') := by
  have hinstantiate : instantiate lib (.object k.function) k.callable args w =
      (.ok (.object w.heap.objects.size), w') := by
    rw [instantiate, Run.action_bind_eq]
    dsimp only [Action.heap]
    rw [stands.get]
    change (runCode lib k.callable.body ⟨.object w.heap.objects.size, args, true⟩ >>= _ :
      Action β σ Value Value) { w with heap := k.instantiated w.heap } = _
    rw [Run.action_bind_eq, runs]
    cases v with
    | object id => cases plain
    | _ => rfl
  rw [Reflect.construct_eq stands.callable]
  cases hf : k.callable.flavor with
  | arrow => exact absurd hf hflavor
  | _ => exact hinstantiate

theorem extends_instantiated (k : Made β) (h : Heap β) : h.Extends (k.instantiated h) :=
  (Heap.Extends.refl h).alloc _

theorem prototype?_instantiated (k : Made β) (h : Heap β) :
    (k.instantiated h).prototype? h.objects.size = some k.prototype := by
  rw [Heap.prototype?, Made.instantiated, Heap.obj?_alloc]
  rfl

/-- What is spared while a class constructs is as it was before. -/
theorem Spares.prototype?_eq {h h' : Heap β} {ks : List (Made β)} {k : Made β}
    (spares : Spares ks (k.instantiated h) h') {id : Nat} (hid : id < h.objects.size) :
    h'.prototype? id = h.prototype? id :=
  (spares.links id (Nat.lt_of_lt_of_le hid (extends_instantiated k h).size_le)).trans
    ((extends_instantiated k h).prototype?_eq hid)

theorem Spares.obj?_eq {h h' : Heap β} {ks : List (Made β)} {k e : Made β}
    (spares : Spares ks (k.instantiated h) h') (he : e ∈ ks) (hlt : e.prototype < h.objects.size) :
    h'.obj? e.prototype = h.obj? e.prototype :=
  (spares.prototypes e he).trans ((extends_instantiated k h).obj?_eq hlt)

theorem Spares.get_eq {h h' : Heap β} {ks : List (Made β)} {k e : Made β}
    (spares : Spares ks (k.instantiated h) h') (stands : Stands h e) :
    h'.get (.object e.function) Building.prototypeKey = .object e.prototype := by
  have hlt := Nat.lt_of_lt_of_le stands.function_lt (extends_instantiated k h).size_le
  exact Heap.get_of_own? ((spares.lends _ hlt).trans
    (((extends_instantiated k h).own?_eq stands.function_lt _).trans stands.lends))

/-- The object that the first class of a descent constructs is an instance of all of them, whatever
happens to it as long as what the classes need is spared. -/
theorem instance_of_spares (intact : Intact w.heap all) (descent : Descent (k :: ks))
    (hnodup : (k :: ks).Nodup) (hall : k :: ks ⊆ all) {h' : Heap (Code β)}
    (spares : Spares (k :: ks) (k.instantiated w.heap) h') :
    Instance h' w.heap.objects.size (k :: ks) := by
  have hthere : ∀ e ∈ k :: ks, e.prototype < w.heap.objects.size := fun e he =>
    (intact.stands e (hall he)).prototype_lt
  have hfresh : h'.prototype? w.heap.objects.size = some k.prototype :=
    (spares.links _ (Heap.lt_of_obj? (w.heap.obj?_alloc _))).trans (prototype?_instantiated k _)
  constructor
  case linked =>
    refine List.isChain_cons_cons.mpr ⟨hfresh, ?_⟩
    refine List.IsChain.imp_of_mem_imp (fun id p hid _ hp => ?_) (intact.linked descent hall)
    obtain ⟨e, he, rfl⟩ : ∃ e ∈ k :: ks, e.prototype = id := List.mem_map.mp hid
    exact (spares.prototype?_eq (hthere e he)).trans hp
  case apart => exact intact.nodup_prototypes hnodup hall
  case there =>
    intro e he
    obtain ⟨o, ho⟩ := Heap.exists_obj (hthere e he)
    exact Heap.lt_of_obj? ((spares.obj?_eq he (hthere e he)).trans ho)

end Constructing

/-- Giving an object a property spares the classes whose prototype it is not, unless the property is
named like the key of the prototype. -/
theorem Spares.define (h : Heap β) {ks : List (Made β)} {id : Nat}
    (hid : ∀ k ∈ ks, k.prototype ≠ id) {key : String} (hkey : key ≠ Building.prototypeKey)
    (p : Property) : Spares ks h (h.define id key p) where
  links := fun j _ => h.prototype?_define id key p j
  lends := by
    intro j hj
    by_cases heq : j = id
    · subst heq
      exact (h.own?_define hj key p _).trans (if_neg hkey.symm)
    · exact Heap.own?_congr (h.obj?_modify_of_ne heq _) _
  prototypes := fun k hk => h.obj?_modify_of_ne (hid k hk) _

/-- **What an object has from the classes of a descent.** Where classes extend one another, and the
code that runs when the first of them constructs returns no object and spares what the classes need,
the result is an instance of every class.  A name that it has not itself it has from the nearest
class that defines a method of that name, and from nowhere if no class does and the last one extends
nothing. -/
theorem construct_of_descent (lib : Library β σ) (w : World β σ) {w' : World β σ}
    {making made : List (Made (Code β))} (reached : Workshop.Reached ⟨w.heap, making, made⟩)
    {k : Made (Code β)} {ks : List (Made (Code β))} (hmade : k :: ks ⊆ made)
    (descent : Descent (k :: ks)) (hflavor : k.callable.flavor ≠ .arrow) {args : List Value}
    {v : Value}
    (runs : runCode lib k.callable.body ⟨.object w.heap.objects.size, args, true⟩
      { w with heap := k.instantiated w.heap } = (.ok v, w'))
    (plain : v.object? = none) (spares : Spares (k :: ks) (k.instantiated w.heap) w'.heap) :
    construct lib (.object k.function) args w = (.ok (.object w.heap.objects.size), w') ∧
      (∀ e ∈ k :: ks,
        w'.heap.instanceOf (.object w.heap.objects.size) (.object e.function) = true) ∧
      ∀ name, w'.heap.own? w.heap.objects.size name = none →
        (∀ before e after m, k :: ks = before ++ e :: after →
          (∀ b ∈ before, b.method? name = none) → e.method? name = some m → ∃ id,
            w.heap.own? e.prototype name = some (.hidden (.object id)) ∧
            w.heap.callable? (.object id) = some m.callable ∧
            w'.heap.get (.object w.heap.objects.size) name = .object id) ∧
        ((∀ e ∈ k :: ks, e.method? name = none) →
          ((k :: ks).getLast (List.cons_ne_nil k ks)).parent? = none →
            w'.heap.get (.object w.heap.objects.size) name = .undefined) := by
  obtain ⟨intact, -, descending⟩ := reached.orderly
  have hall : k :: ks ⊆ Workshop.classes ⟨w.heap, making, made⟩ := fun e he =>
    List.mem_append_right making (hmade he)
  have hstands : ∀ e ∈ k :: ks, Stands w.heap e := fun e he => intact.stands e (hall he)
  have hown' : ∀ e ∈ k :: ks, ∀ name,
      w'.heap.own? e.prototype name = w.heap.own? e.prototype name := fun e he =>
    Heap.own?_congr (spares.obj?_eq he (hstands e he).prototype_lt)
  have inst := instance_of_spares intact descent (descending.nodup descent hmade) hall spares
  refine ⟨construct_eq_fresh (hstands k List.mem_cons_self) hflavor runs plain, fun e he => ?_,
    fun name hown => ⟨?_, ?_⟩⟩
  · rw [Heap.instanceOf_eq (spares.get_eq (hstands e he))]
    exact inst.inherits he
  · intro before e after m split hbefore hm
    have hmem : ∀ b ∈ before ++ e :: after, b ∈ k :: ks := fun b hb => split ▸ hb
    have he : e ∈ k :: ks := hmem e (List.mem_append_right _ List.mem_cons_self)
    obtain ⟨id, hid, hcallable⟩ := (hstands e he).method name m hm
    refine ⟨id, hid, hcallable, inst.get_of_own? hown split (fun b hb => ?_)
      ((hown' e he name).trans hid)⟩
    have hb' : b ∈ k :: ks := hmem b (List.mem_append_left _ hb)
    exact (hown' b hb' name).trans ((hstands b hb').missing name (hbefore b hb))
  · intro hnone hroot
    refine inst.get_of_missing hown ?_ fun e he =>
      (hown' e he name).trans ((hstands e he).missing name (hnone e he))
    have hlast : (k :: ks).getLast (List.cons_ne_nil k ks) ∈ k :: ks := List.getLast_mem _
    rw [List.getLast_cons (List.map_eq_nil_iff.not.mpr (List.cons_ne_nil k ks)), List.getLast_map,
      spares.prototype?_eq (hstands _ hlast).prototype_lt]
    exact (hstands _ hlast).root hroot

/-! ### Shapes, squares and tiles -/

/-- A library whose constructors note on the fresh object which of them made it. -/
def noting : Library String Unit := fun code i w =>
  match i.receiver with
  | .object id => (.ok .undefined, { w with heap := w.heap.set id "maker" (.string code) })
  | _ => (.ok .undefined, w)

/-- A class with two methods and a static function. -/
def shapePlan : ClassPlan (Code String) :=
  { name := "Shape", length := 0, body := .library "shape",
    methods := [⟨"area", 0, .library "anyArea"⟩, ⟨"name", 0, .library "name"⟩],
    statics := [⟨"of", 1, .library "of"⟩] }

/-- A class that extends the first one and has its own way of one of the methods. -/
def squarePlan : ClassPlan (Code String) :=
  { name := "Square", length := 1, body := .library "square", parent := some (.object 0),
    methods := [⟨"area", 0, .library "squareArea"⟩] }

/-- A class that extends the second one and adds a method. -/
def tilePlan : ClassPlan (Code String) :=
  { name := "Tile", length := 1, body := .library "tile", parent := some (.object 5),
    methods := [⟨"paint", 1, .library "paint"⟩] }

/-- The heap with the three classes. -/
def shapeHeap : Heap (Code String) :=
  (Building.newClass tilePlan
    (Building.newClass squarePlan (Building.newClass shapePlan {}).2).2).2

/-- The three classes, the latest first. -/
def shapeClasses : List (Made (Code String)) :=
  [⟨8, 9, tilePlan.callable, tilePlan.steps.reverse⟩,
    ⟨5, 6, squarePlan.callable, squarePlan.steps.reverse⟩,
    ⟨0, 1, shapePlan.callable, shapePlan.steps.reverse⟩]

theorem reached_shapeClasses : Workshop.Reached ⟨shapeHeap, [], shapeClasses⟩ := by
  have hshape := Workshop.steps_newClass ⟨{}, [], []⟩ shapePlan nofun (by decide)
  have hsquare := Workshop.steps_newClass ⟨(Building.newClass shapePlan {}).2, [],
    [⟨0, 1, shapePlan.callable, shapePlan.steps.reverse⟩]⟩ squarePlan
    (by rintro _ ⟨⟩; exact ⟨by decide, nofun⟩) nofun
  have htile := Workshop.steps_newClass ⟨(Building.newClass squarePlan
    (Building.newClass shapePlan {}).2).2, [], shapeClasses.tail⟩ tilePlan
    (by rintro _ ⟨⟩; exact ⟨by decide, nofun⟩) nofun
  exact ⟨{}, (hshape.trans hsquare).trans htile⟩

theorem construct_tile : ∃ w',
    construct noting (.object 8) [] ⟨shapeHeap, ()⟩ = (.ok (.object 11), w') ∧
      (∀ e ∈ shapeClasses, w'.heap.instanceOf (.object 11) (.object e.function) = true) ∧
      w'.heap.get (.object 11) "area" = .object 7 ∧
      w'.heap.get (.object 11) "name" = .object 3 ∧
      w'.heap.get (.object 11) "volume" = .undefined := by
  obtain ⟨hconstruct, hinstance, hget⟩ := construct_of_descent noting ⟨shapeHeap, ()⟩
    reached_shapeClasses (List.Subset.refl shapeClasses)
    (.cons_cons rfl (.cons_cons rfl (.singleton _))) (by decide)
    (show runCode noting (.library "tile") ⟨.object shapeHeap.objects.size, [], true⟩ _ = _
      from rfl) rfl (.define _ (by decide) (by decide) _)
  have hsize : shapeHeap.objects.size = 11 := by decide
  have harea : shapeHeap.own? 6 "area" = some (.hidden (.object 7)) := by decide
  have hname : shapeHeap.own? 1 "name" = some (.hidden (.object 3)) := by decide
  obtain ⟨_, hown₁, -, hget₁⟩ := (hget "area" (by decide)).1 [_] _ _ _ rfl (by decide) rfl
  obtain ⟨_, hown₂, -, hget₂⟩ := (hget "name" (by decide)).1 [_, _] _ _ _ rfl (by decide) rfl
  have hget₃ := (hget "volume" (by decide)).2 (by decide) rfl
  cases harea.symm.trans hown₁
  cases hname.symm.trans hown₂
  rw [hsize] at hconstruct hinstance hget₁ hget₂ hget₃
  exact ⟨_, hconstruct, hinstance, hget₁, hget₂, hget₃⟩

end ApiSurface.Live
