/-
# `ApiSurface.Proofs.Reflect.Probing` — probing a function again

What a function turns out to be is found by running it, so it can be something else the next time.
It is the same, and the objects that were there are as they were, if that holds of each of the three
ways in which code is run (`Tried`): called on nothing, constructed, and called on a fresh object.
The code of the host is so; of the code of the library it has to be said (`Library.Steady`).

**Main result** (`steady_classify`): a function of a heap turns out to be the same wherever that
heap is extended, and nothing on the heap changes.

Steps that throw differ in the object that they throw, which is a fresh one; so an outcome is looked
at through what is told of it (`complaint`), which is all that probing looks at.
-/
import ApiSurface.Proofs.Live.Apart
import ApiSurface.Reflect.Binding

namespace ApiSurface

open Live

variable {β σ α γ : Type} {h : Heap (Code β)}

namespace Reflect

/-! ## Steps that can be repeated -/

/-- A step that has the same result wherever a heap is extended, and extends it. -/
def Steady (h : Heap (Code β)) (m : StateM (World β σ) α) : Prop :=
  ∃ a, ∀ w, h.Extends w.heap → (m w).1 = a ∧ h.Extends (m w).2.heap

namespace Steady

theorem pure (a : α) : Steady h (pure a : StateM (World β σ) α) :=
  ⟨a, fun _ ext => ⟨rfl, ext⟩⟩

theorem congr {m m' : StateM (World β σ) α} (hm : Steady h m)
    (heq : ∀ w, h.Extends w.heap → m' w = m w) : Steady h m' := by
  obtain ⟨a, ha⟩ := hm
  exact ⟨a, fun w ext => (heq w ext).symm ▸ ha w ext⟩

theorem bind {m : StateM (World β σ) α} {f : α → StateM (World β σ) γ} (hm : Steady h m)
    (hf : ∀ a, Steady h (f a)) : Steady h (m >>= f) := by
  obtain ⟨a, ha⟩ := hm
  obtain ⟨c, hc⟩ := hf a
  refine ⟨c, fun w ext => ?_⟩
  obtain ⟨hfst, ext'⟩ := ha w ext
  show (f (m w).1 (m w).2).1 = c ∧ h.Extends (f (m w).1 (m w).2).2.heap
  rw [hfst]
  exact hc _ ext'

end Steady

/-! ## What is told of a run -/

/-- How a step complains, if it throws. -/
def complaint (a : Action β σ Value Value) :
    StateM (World β σ) (Option (Option (ErrorName × String))) :=
  fun w => let r := a w; (r.2.heap.thrown r.1, r.2)

/-- Whether a step gives an object properties that listings show. -/
def fills (id : Nat) (a : Action β σ Value Value) : StateM (World β σ) Bool :=
  fun w => let w' := (a w).2; (!(w'.heap.entries id).isEmpty, w')

/-- A step that is taken with a fresh object. -/
def onFresh (o : Obj (Code β)) (m : Nat → StateM (World β σ) α) : StateM (World β σ) α :=
  fun w => let fresh := w.heap.alloc o; m fresh.1 { w with heap := fresh.2 }

/-- Code of a function can be tried again in each of the ways in which probing runs it. -/
structure Tried (h : Heap (Code β)) (f : Value) (run : Invocation → Action β σ Value Value) :
    Prop where
  called : Steady h (complaint (run ⟨.undefined, [], false⟩))
  constructed : Steady h (onFresh
    { kind := .ordinary, prototype := (h.get f Building.prototypeKey).object? }
    fun id => complaint (run ⟨.object id, [], true⟩))
  initialized : Steady h (onFresh { kind := .ordinary }
    fun id => fills id (run ⟨.object id, [], false⟩))

end Reflect

open Reflect in
/-- The functions of a heap that run code of the library can be tried again: what probing is told of
them is always the same, and they leave the objects of the heap as they are. -/
def Live.Library.Steady (lib : Library β σ) (h : Heap (Code β)) : Prop :=
  ∀ f c code, h.callable? f = some c → c.body = .library code → Tried h f (lib code)

namespace Reflect

/-! ## Code that can be tried again -/

theorem steady_raise (name : ErrorName) (message : String) :
    Steady h (complaint (.raise name message : Action β σ Value Value)) :=
  ⟨_, fun w ext => Action.thrown_raise name message w ext⟩

/-- A step that leaves the fresh object alone gives it no properties. -/
theorem steady_unfilled {run : Nat → Action β σ Value Value}
    (hrun : ∀ id (w : World β σ), w.heap.Extends (run id w).2.heap) :
    Steady h (onFresh { kind := .ordinary } fun id => fills id (run id)) := by
  refine ⟨false, fun w ext => ?_⟩
  let o : Obj (Code β) := { kind := .ordinary }
  let w₁ : World β σ := { w with heap := (w.heap.alloc o).2 }
  have hlater := hrun w.heap.objects.size w₁
  have ho : w₁.heap.obj? w.heap.objects.size = some o := w.heap.obj?_alloc o
  have hempty : (run w.heap.objects.size w₁).2.heap.entries w.heap.objects.size = [] := by
    rw [Heap.entries, Heap.properties, hlater _ o ho]
    rfl
  refine ⟨?_, (ext.alloc o).trans hlater⟩
  show (!((run w.heap.objects.size w₁).2.heap.entries w.heap.objects.size).isEmpty) = false
  rw [hempty]
  rfl

/-- The code of the host can be tried again. -/
theorem tried_host (f : Value) (code : HostCode) :
    Tried h f fun i => (code.run i : Action β σ Value Value) where
  called := ⟨code.complaint, fun w ext =>
    code.run_unasked rfl w ext fun _ hno => absurd hno Bool.false_ne_true⟩
  constructed := by
    refine ⟨code.complaint, fun w ext => code.run_unasked rfl _ (ext.alloc _) ?_⟩
    rintro id - heq
    cases heq
    exact ext.size_le
  initialized := steady_unfilled fun id w =>
    (code.run_unasked rfl w (.refl _) fun _ hno => absurd hno Bool.false_ne_true).2

variable {lib : Library β σ} {f : Value} {c : Callable (Code β)}

theorem tried_runCode (hlib : lib.Steady h) (hc : h.callable? f = some c) :
    Tried h f (runCode lib c.body) := by
  cases hbody : c.body with
  | host code => exact tried_host f code
  | library code => exact hlib f c code hc hbody

/-! ## Calling and constructing -/

theorem call_eq {w : World β σ} (hc : w.heap.callable? f = some c) (receiver : Value)
    (args : List Value) :
    call lib f receiver args w = (match c.flavor with
      | .ofClass => Action.raise .typeError
          ("Class constructor " ++ c.name ++ " cannot be invoked without 'new'")
      | .builtin => Action.raise .typeError ("Constructor " ++ c.name ++ " requires 'new'")
      | .ordinary | .arrow => runCode lib c.body ⟨receiver, args, false⟩) w := by
  rw [call, Run.action_bind_eq, Action.heap]
  dsimp only
  generalize w.heap.callable? f = found at hc ⊢
  subst hc
  rfl

theorem construct_eq {w : World β σ} (hc : w.heap.callable? f = some c) (args : List Value) :
    construct lib f args w = (match c.flavor with
      | .arrow => Action.raise .typeError (shownName c.name ++ " is not a constructor")
      | .ordinary | .ofClass | .builtin => instantiate lib f c args) w := by
  rw [construct, Run.action_bind_eq, Action.heap]
  dsimp only
  generalize w.heap.callable? f = found at hc ⊢
  subst hc
  rfl

/-- What is told of a construction is told of the code that runs on the fresh object. -/
theorem complaint_instantiate (args : List Value) (w : World β σ) :
    complaint (instantiate lib f c args) w = onFresh
      { kind := .ordinary, prototype := (w.heap.get f Building.prototypeKey).object? }
      (fun id => complaint (runCode lib c.body ⟨.object id, args, true⟩)) w := by
  rw [complaint, instantiate, onFresh]
  simp only [Run.action_bind_eq, Action.heap, Action.onHeap, Building.object, complaint]
  rcases runCode lib c.body _ _ with ⟨e | v, w₂⟩
  · rfl
  · cases v <;> rfl

theorem steady_called (hlib : lib.Steady h) (hc : h.callable? f = some c) :
    Steady h (complaint (call lib f .undefined [])) := by
  have hcalled := (tried_runCode hlib hc).called
  have hflavor : Steady h (complaint (match c.flavor with
      | .ofClass => Action.raise .typeError
          ("Class constructor " ++ c.name ++ " cannot be invoked without 'new'")
      | .builtin => Action.raise .typeError ("Constructor " ++ c.name ++ " requires 'new'")
      | .ordinary | .arrow => runCode lib c.body ⟨.undefined, [], false⟩)) := by
    cases c.flavor with
    | ofClass => exact steady_raise _ _
    | builtin => exact steady_raise _ _
    | ordinary => exact hcalled
    | arrow => exact hcalled
  refine hflavor.congr fun w ext => ?_
  rw [complaint, complaint, call_eq ((ext.callable?_eq (Heap.holds_of_callable? hc)).trans hc)]

theorem steady_constructed (closed : h.Closed) (hlib : lib.Steady h)
    (hc : h.callable? f = some c) : Steady h (complaint (construct lib f [])) := by
  have hf : h.Holds f := Heap.holds_of_callable? hc
  have hinstantiate : Steady h (complaint (instantiate lib f c [])) := by
    refine (tried_runCode hlib hc).constructed.congr fun w ext => ?_
    rw [complaint_instantiate, ext.get_eq closed hf]
  have hflavor : Steady h (complaint (match c.flavor with
      | .arrow => Action.raise .typeError (shownName c.name ++ " is not a constructor")
      | .ordinary | .ofClass | .builtin => instantiate lib f c [])) := by
    cases c.flavor with
    | arrow => exact steady_raise _ _
    | ordinary => exact hinstantiate
    | ofClass => exact hinstantiate
    | builtin => exact hinstantiate
  refine hflavor.congr fun w ext => ?_
  rw [complaint, complaint, construct_eq ((ext.callable?_eq hf).trans hc)]

theorem steady_initializes (hlib : lib.Steady h) (hc : h.callable? f = some c) :
    Steady h (initializes lib f) := by
  have hf : h.Holds f := Heap.holds_of_callable? hc
  have hraise : ∀ message, Steady h (onFresh { kind := .ordinary } fun id =>
      fills id (Action.raise .typeError message : Action β σ Value Value)) := fun message =>
    steady_unfilled fun _ w => (Action.thrown_raise .typeError message w (.refl _)).2
  have hcalled := (tried_runCode hlib hc).initialized
  have hflavor : Steady h (onFresh { kind := .ordinary } fun id =>
      fills id (match c.flavor with
        | .ofClass => Action.raise .typeError
            ("Class constructor " ++ c.name ++ " cannot be invoked without 'new'")
        | .builtin => Action.raise .typeError ("Constructor " ++ c.name ++ " requires 'new'")
        | .ordinary | .arrow => runCode lib c.body ⟨.object id, [], false⟩)) := by
    cases c.flavor with
    | ofClass => exact hraise _
    | builtin => exact hraise _
    | ordinary => exact hcalled
    | arrow => exact hcalled
  refine hflavor.congr fun w ext => ?_
  have hc' : (w.heap.alloc { kind := .ordinary }).2.callable? f = some c :=
    ((ext.alloc _).callable?_eq hf).trans hc
  show fills _ (call lib f (.object _) []) _ = fills _ _ _
  rw [fills, fills, call_eq hc']

/-! ## Reading off the heap -/

theorem ownMethods_eq {h' : Heap (Code β)} (ext : h.Extends h') (closed : h.Closed) {id : Nat}
    (hid : id < h.objects.size) : ownMethods h' id = ownMethods h id := by
  rw [ownMethods, ownMethods, ext.properties_eq hid]
  refine List.filterMap_congr fun p hp => ?_
  cases hvalue : p.2.value? with
  | none => rfl
  | some v => simp only [ext.isCallable_eq (closed.values id p hp v hvalue)]

theorem hasMethods_eq {h' : Heap (Code β)} (ext : h.Extends h') (closed : h.Closed)
    (hf : h.Holds f) : hasMethods h' f = hasMethods h f := by
  rw [hasMethods, hasMethods, ext.get_eq closed hf]
  have hholds := closed.holds_get f Building.prototypeKey
  cases hget : h.get f Building.prototypeKey with
  | object p =>
      rw [hget] at hholds
      simp only [ownMethods_eq ext closed hholds]
  | _ => rfl

theorem arityOf_eq {h' : Heap (Code β)} (ext : h.Extends h') (hf : h.Holds f) :
    arityOf h' f = arityOf h f := by
  rw [arityOf, arityOf, ext.callable?_eq hf]

theorem lt_of_mem_instanceChain (closed : h.Closed) {x : Nat} (hx : x ∈ instanceChain h f) :
    x < h.objects.size := by
  have hholds := closed.holds_get f Building.prototypeKey
  rw [instanceChain] at hx
  split at hx
  next p hp =>
    rw [hp] at hholds
    rcases List.mem_cons.mp hx with rfl | hx
    · exact hholds
    · exact closed.lt_of_mem_chainTo hholds hx
  next => exact absurd hx List.not_mem_nil

/-- On an extended heap prototypes are followed farther, but only to those that have come before. -/
theorem exists_instanceChain {h' : Heap (Code β)} (ext : h.Extends h') (closed : h.Closed)
    (hf : h.Holds f) :
    ∃ rest, instanceChain h' f = instanceChain h f ++ rest ∧ rest ⊆ instanceChain h f := by
  have hholds := closed.holds_get f Building.prototypeKey
  rw [instanceChain, instanceChain, ext.get_eq closed hf]
  cases hget : h.get f Building.prototypeKey with
  | object p =>
      rw [hget] at hholds
      obtain ⟨rest, hrest, hmem⟩ := Heap.exists_chainTo closed hholds (Nat.le_succ _)
        (Nat.succ_le_succ ext.size_le)
      refine ⟨rest, ?_, hmem⟩
      show p :: h'.chainTo h'.chainFuel p = p :: (h.chainTo h.chainFuel p ++ rest)
      rw [ext.chainTo_eq closed _ p hholds]
      exact congrArg (p :: ·) hrest
  | _ => exact ⟨[], rfl, List.Subset.refl []⟩

theorem firstOfEach_eq_nil {seen : List String} {l : List (String × α)}
    (hl : ∀ p ∈ l, p.1 ∈ seen) : firstOfEach seen l = [] := by
  induction l with
  | nil => rfl
  | cons p l ih =>
      obtain ⟨hp, hl⟩ := List.forall_mem_cons.mp hl
      rw [firstOfEach, if_pos (List.contains_iff_mem.mpr hp)]
      exact ih hl

/-- Pairs whose names have come before change nothing. -/
theorem firstOfEach_append {r : List (String × α)} (l : List (String × α)) : ∀ seen : List String,
    (∀ p ∈ r, p.1 ∈ seen ∨ p.1 ∈ l.map Prod.fst) →
      firstOfEach seen (l ++ r) = firstOfEach seen l := by
  induction l with
  | nil =>
      intro seen hr
      exact firstOfEach_eq_nil fun p hp => (hr p hp).resolve_right List.not_mem_nil
  | cons q l ih =>
      intro seen hr
      rw [List.cons_append, firstOfEach, firstOfEach]
      split
      next hseen =>
        refine ih seen fun p hp => (hr p hp).elim .inl fun hmem => ?_
        rcases List.mem_cons.mp hmem with heq | hmem
        · exact .inl (heq ▸ List.contains_iff_mem.mp hseen)
        · exact .inr hmem
      next =>
        refine congrArg (q :: ·) (ih (q.1 :: seen) fun p hp => ?_)
        rcases hr p hp with hseen | hmem
        · exact .inl (List.mem_cons_of_mem _ hseen)
        · rcases List.mem_cons.mp hmem with heq | hmem
          · exact .inl (heq ▸ List.mem_cons_self)
          · exact .inr hmem

/-- **The instances of a function have the same methods wherever the heap is extended.** -/
theorem instanceMethods_eq {h' : Heap (Code β)} (ext : h.Extends h') (closed : h.Closed)
    (hf : h.Holds f) : instanceMethods h' f = instanceMethods h f := by
  obtain ⟨rest, hrest, hsubset⟩ := exists_instanceChain ext closed hf
  have hown : ∀ l ⊆ instanceChain h f, l.flatMap (ownMethods h') = l.flatMap (ownMethods h) :=
    fun l hl => List.flatMap_congr fun x hx =>
      ownMethods_eq ext closed (lt_of_mem_instanceChain closed (hl hx))
  rw [instanceMethods, instanceMethods, hrest, List.flatMap_append, hown _ (List.Subset.refl _),
    hown rest hsubset, List.filter_append]
  refine firstOfEach_append _ [] fun m hm => .inr (List.mem_map_of_mem ?_)
  obtain ⟨hmem, hpublic⟩ := List.mem_filter.mp hm
  obtain ⟨x, hx, hxm⟩ := List.mem_flatMap.mp hmem
  exact List.mem_filter.mpr ⟨List.mem_flatMap.mpr ⟨x, hsubset hx, hxm⟩, hpublic⟩

/-! ## Telling constructors from plain functions -/

/-- Whether a complaint is a type error whose message has one of the pieces. -/
def isRefusal (pieces : List String) : Option (Option (ErrorName × String)) → Bool
  | some (some (.typeError, message)) => pieces.any (Text.contains message)
  | _ => false

theorem refusedWith_eq (h : Heap (Code β)) (pieces : List String) (r : Except Value Value) :
    refusedWith h pieces r = isRefusal pieces (h.thrown r) := by
  cases r with
  | ok v => rfl
  | error e =>
      rw [refusedWith, isTypeErrorWith, Heap.thrown]
      rcases h.error? e with _ | ⟨name, message⟩
      · rfl
      · cases name <;> rfl

/-- A step is tried, and what follows depends on whether it was refused. -/
theorem Steady.bind_refused {a : Action β σ Value Value} {pieces : List String}
    {x : StateM (World β σ) α} {y : World β σ → StateM (World β σ) α}
    (ha : Steady h (complaint a)) (hx : Steady h x) (hy : Steady h fun w => y w w) :
    Steady h (a.run >>= fun r => get >>= fun w =>
      if refusedWith w.heap pieces r then x else y w) := by
  let next : Option (Option (ErrorName × String)) → StateM (World β σ) α := fun told =>
    if isRefusal pieces told then x else fun w => y w w
  have hnext : Steady h (complaint a >>= next) := by
    refine ha.bind fun told => ?_
    simp only [next]
    split
    · exact hx
    · exact hy
  refine hnext.congr fun w _ => ?_
  show (if refusedWith (a w).2.heap pieces (a w).1 then x else y (a w).2 : StateM _ _) (a w).2 =
    (if isRefusal pieces ((a w).2.heap.thrown (a w).1) then x else fun w => y w w) (a w).2
  rw [refusedWith_eq]
  split
  · rfl
  · rfl

/-- **A function turns out to be the same wherever the heap is extended.** -/
theorem steady_classify (closed : h.Closed) (hlib : lib.Steady h) (hc : h.callable? f = some c) :
    Steady h (classify lib f) := by
  have hf : h.Holds f := Heap.holds_of_callable? hc
  unfold classify
  dsimp only
  refine .bind_refused (steady_called hlib hc) (.pure _) ?_
  refine Steady.bind_refused (steady_constructed closed hlib hc) (.pure _) ?_
  -- What is left reads the heap, and finds what the heap that is extended has.
  cases f with
  | object id =>
      have hrest : Steady h (if !h.hasOwn id Building.prototypeKey then pure CallableKind.function
          else if hasMethods h (.object id) then pure CallableKind.constructor
          else do
            if ← initializes lib (.object id) then return CallableKind.constructor
            return CallableKind.ambiguous : StateM (World β σ) CallableKind) := by
        split
        · exact .pure _
        split
        · exact .pure _
        refine (steady_initializes hlib hc).bind fun initialized => ?_
        split
        · exact .pure _
        · exact .pure _
      refine hrest.congr fun w ext => ?_
      simp only [Value.object?, hasMethods_eq ext closed hf, ext.hasOwn_eq hf]
  | _ => exact .pure _

end Reflect

end ApiSurface
