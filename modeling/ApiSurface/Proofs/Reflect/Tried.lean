/-
# `ApiSurface.Proofs.Reflect.Tried` — the worlds that trying functions may come to

While a module is bound, functions that it shows are tried, and library code may do anything to the
heap.  What can come of it is said without the walk: `Found` are the values that can be reached from
the exports along own properties, on any heap that there is at some time; `Met` are the worlds after
any number of steps in which such values are tried (`Tries`).  The two depend on one another.

Where chains of prototypes come to an end in all of these worlds, a function is told to be a
constructor or not in the same way, with and without a bound on how far prototypes are followed
(`ends_classify`).  They do come to an end if library code does not let them lead in a circle
(`Met.settled`).
-/
import ApiSurface.Proofs.Live.Settled
import ApiSurface.Proofs.Reflect.Unbounded

namespace ApiSurface.Reflect

open Live

variable {β σ α γ : Type}

/-! ## What reflecting may come to -/

/-- The prototypes of the objects that are made to try a function: none, or the one for instances of
the function. -/
def Lent (h : Heap β) (f : Value) (prototype : Option Nat) : Prop :=
  prototype = none ∨ prototype = (h.get f Building.prototypeKey).object?

/-- A world with one more object, for a function to work on. -/
def withFresh (w : World β σ) (prototype : Option Nat) : World β σ :=
  { w with heap := (w.heap.alloc { kind := .ordinary, prototype := prototype }).2 }

/-- One step in which a function is tried, from a world to the next. -/
inductive Tries (lib : Library β σ) (f : Value) (w : World β σ) : World β σ → Prop
  /-- The function refuses to be invoked, and an error is put on the heap. -/
  | refuses (name : ErrorName) (message : String) :
      Tries lib f w { w with heap := (Building.error name message w.heap).2 }
  /-- It is called without a receiver. -/
  | calls {c : Callable (Code β)} (callable : w.heap.callable? f = some c) :
      Tries lib f w (runCode lib c.body ⟨.undefined, [], false⟩ w).2
  /-- An object is put on the heap for the function to work on. -/
  | makes {prototype : Option Nat} (lent : Lent w.heap f prototype) :
      Tries lib f w (withFresh w prototype)
  /-- It works on such an object. -/
  | works {c : Callable (Code β)} {prototype : Option Nat} (constructs : Bool)
      (lent : Lent w.heap f prototype)
      (callable : (withFresh w prototype).heap.callable? f = some c) :
      Tries lib f w (runCode lib c.body ⟨.object w.heap.objects.size, [], constructs⟩
        (withFresh w prototype)).2

mutual

/-- A world that reflecting on exports may come to: the host puts its values on the heap, and then
values that were found are tried. -/
inductive Met (lib : Library β σ) (exports : Value) (start : World β σ) : World β σ → Prop
  | start : Met lib exports start { start with heap := (Building.host start.heap).2 }
  | tried {f : Value} {w w' : World β σ} (found : Found lib exports start f)
      (before : Met lib exports start w) (tries : Tries lib f w w') : Met lib exports start w'

/-- A value that reflecting on exports may find: the exports, and what an object that was found has
for a property of its own. -/
inductive Found (lib : Library β σ) (exports : Value) (start : World β σ) : Value → Prop
  | exports : Found lib exports start exports
  | property {id : Nat} {w : World β σ} {p : String × Property} {v : Value}
      (owner : Found lib exports start (.object id)) (met : Met lib exports start w)
      (own : p ∈ w.heap.properties id) (value : p.2.value? = some v) : Found lib exports start v

end

variable {lib : Library β σ} {s : Settings} {exports : Value} {w₀ w : World β σ}

theorem Found.of_entries {id : Nat} {p : String × Value} (owner : Found lib exports w₀ (.object id))
    (met : Met lib exports w₀ w) (hp : p ∈ w.heap.entries id) : Found lib exports w₀ p.2 := by
  obtain ⟨q, hq, hvalue⟩ := List.mem_filterMap.mp hp
  split at hvalue
  · obtain ⟨v, hv, rfl⟩ := Option.map_eq_some_iff.mp hvalue
    exact .property owner met hq hv
  · cases hvalue

theorem Found.of_ownMethods {id : Nat} {m : String × Value}
    (owner : Found lib exports w₀ (.object id)) (met : Met lib exports w₀ w)
    (hm : m ∈ ownMethods w.heap id) : Found lib exports w₀ m.2 := by
  obtain ⟨q, hq, hvalue⟩ := List.mem_filterMap.mp hm
  split at hvalue
  · cases hvalue
  · split at hvalue
    next v hv =>
      split at hvalue
      · cases hvalue
        exact .property owner met hq hv
      · cases hvalue
    · cases hvalue

/-! ## Trying functions -/

/-- Wherever the predicate holds, a step that may not come to an end does: it does what another step
does, and the predicate still holds. -/
def Ends (P : World β σ → Prop) (t : Unbounded.Try β σ α) (m : StateM (World β σ) α) : Prop :=
  ∀ w, P w → t w = some (m w) ∧ P (m w).2

namespace Ends

variable {P : World β σ → Prop} {t : Unbounded.Try β σ α} {m : StateM (World β σ) α}

theorem of (hm : ∀ w, P w → P (m w).2) : Ends P (.of m) m :=
  fun w hw => ⟨rfl, hm w hw⟩

theorem pure (a : α) : Ends P (pure a) (pure a) :=
  fun _ hw => ⟨rfl, hw⟩

theorem bind {t' : α → Unbounded.Try β σ γ} {m' : α → StateM (World β σ) γ} (ht : Ends P t m)
    (ht' : ∀ a, Ends P (t' a) (m' a)) : Ends P (t >>= t') (m >>= m') := by
  intro w hw
  obtain ⟨heq, hw'⟩ := ht w hw
  refine ⟨?_, (ht' _ _ hw').2⟩
  show (t w).bind _ = _
  rw [heq]
  exact (ht' _ _ hw').1

/-- The world is read. -/
theorem bind_get {t' : World β σ → Unbounded.Try β σ α} {m' : World β σ → StateM (World β σ) α}
    (ht' : ∀ w, P w → Ends P (t' w) (m' w)) :
    Ends P (getThe (World β σ) >>= t') (get >>= m') :=
  fun w hw => ht' w hw w hw

end Ends

/-- A call ends in an error that is put on the heap, or where the code of the function ends. -/
theorem call_cases (lib : Library β σ) (f receiver : Value) (args : List Value) (w : World β σ) :
    (∃ name message, (call lib f receiver args w).2 =
        { w with heap := (Building.error name message w.heap).2 }) ∨
      ∃ c, w.heap.callable? f = some c ∧
        (call lib f receiver args w).2 = (runCode lib c.body ⟨receiver, args, false⟩ w).2 := by
  rw [call, Run.action_bind_eq]
  dsimp only [Action.heap]
  cases w.heap.callable? f with
  | none => exact .inl ⟨_, _, rfl⟩
  | some c =>
      dsimp only
      cases c.flavor with
      | ofClass => exact .inl ⟨_, _, rfl⟩
      | builtin => exact .inl ⟨_, _, rfl⟩
      | ordinary => exact .inr ⟨c, rfl, rfl⟩
      | arrow => exact .inr ⟨c, rfl, rfl⟩

theorem instantiate_snd (lib : Library β σ) (f : Value) (c : Callable (Code β)) (w : World β σ) :
    (instantiate lib f c [] w).2 =
      (runCode lib c.body ⟨.object w.heap.objects.size, [], true⟩
        (withFresh w (w.heap.get f Building.prototypeKey).object?)).2 := by
  rw [instantiate, Run.action_bind_eq]
  dsimp only [Action.heap]
  change ((runCode lib c.body ⟨.object w.heap.objects.size, [], true⟩ >>= _ :
    Action β σ Value Value) (withFresh w _)).2 = _
  rw [Run.action_bind_eq]
  split
  next v w' hrun =>
    rw [hrun]
    cases v <;> rfl
  next e w' hrun => rw [hrun]

/-- A construction ends in an error that is put on the heap, or where the code of the function ends.
-/
theorem construct_cases (lib : Library β σ) (f : Value) (w : World β σ) :
    (∃ name message, (construct lib f [] w).2 =
        { w with heap := (Building.error name message w.heap).2 }) ∨
      ∃ c, w.heap.callable? f = some c ∧
        (construct lib f [] w).2 =
          (runCode lib c.body ⟨.object w.heap.objects.size, [], true⟩
            (withFresh w (w.heap.get f Building.prototypeKey).object?)).2 := by
  rw [construct, Run.action_bind_eq]
  dsimp only [Action.heap]
  cases w.heap.callable? f with
  | none => exact .inl ⟨_, _, rfl⟩
  | some c =>
      have hbody := instantiate_snd lib f c w
      dsimp only
      cases c.flavor with
      | arrow => exact .inl ⟨_, _, rfl⟩
      | ordinary => exact .inr ⟨c, rfl, hbody⟩
      | ofClass => exact .inr ⟨c, rfl, hbody⟩
      | builtin => exact .inr ⟨c, rfl, hbody⟩

section Probing

variable (hstay : ∀ w, Met lib exports w₀ w → w.heap.Grounded) {f : Value}
  (hf : Found lib exports w₀ f)

include hf in
theorem met_call (met : Met lib exports w₀ w) :
    Met lib exports w₀ (call lib f .undefined [] w).2 := by
  rcases call_cases lib f .undefined [] w with ⟨name, message, heq⟩ | ⟨c, hc, heq⟩
  · rw [heq]
    exact .tried hf met (.refuses name message)
  · rw [heq]
    exact .tried hf met (.calls hc)

include hf in
theorem met_initializes (met : Met lib exports w₀ w) :
    Met lib exports w₀ (initializes lib f w).2 := by
  have lent : Lent w.heap f none := .inl rfl
  show Met lib exports w₀
    (call lib f (.object w.heap.objects.size) [] (withFresh w none)).2
  rcases call_cases lib f (.object w.heap.objects.size) [] (withFresh w none) with
    ⟨name, message, heq⟩ | ⟨c, hc, heq⟩
  · rw [heq]
    exact .tried hf (.tried hf met (.makes lent)) (.refuses name message)
  · rw [heq]
    exact .tried hf met (.works false lent hc)

include hf in
theorem met_construct (met : Met lib exports w₀ w) :
    Met lib exports w₀ (construct lib f [] w).2 := by
  rcases construct_cases lib f w with ⟨name, message, heq⟩ | ⟨c, hc, heq⟩
  · rw [heq]
    exact .tried hf met (.refuses name message)
  · rw [heq]
    refine .tried hf met (.works true (.inr rfl) ?_)
    have ext : w.heap.Extends (withFresh w (w.heap.get f Building.prototypeKey).object?).heap :=
      (Heap.Extends.refl _).alloc _
    rw [ext.callable?_eq (Heap.holds_of_callable? hc), hc]

include hstay hf

theorem ends_construct : Ends (Met lib exports w₀) (Unbounded.construct lib f)
    (construct lib f []).run :=
  fun w met => ⟨Unbounded.construct_eq lib f (hstay w met), met_construct hf met⟩

/-- **What a function turns out to be is found out**, and found out in the same way. -/
theorem ends_classify :
    Ends (Met lib exports w₀) (Unbounded.classify lib f) (classify lib f) := by
  unfold Unbounded.classify classify
  refine .bind (.of fun w met => met_call hf met) fun called => .bind_get fun w₁ met₁ => ?_
  split
  · exact .pure _
  refine .bind (ends_construct hstay hf) fun constructed => .bind_get fun w₂ met₂ => ?_
  extract_lets h₂
  split
  · exact .pure _
  cases f.object? with
  | none => exact .pure _
  | some id =>
      dsimp only
      split
      · exact .pure _
      rw [Unbounded.Try.bind_lift (Unbounded.hasMethods_eq (hstay w₂ met₂) f)]
      split
      · exact .pure _
      refine .bind (.of fun w met => met_initializes hf met) fun initialized => ?_
      split
      · exact .pure _
      · exact .pure _

end Probing

/-! ## Prototypes that come to an end -/

theorem lt_of_lent {h : Heap β} (closed : h.Closed) {f : Value} {prototype : Option Nat}
    (lent : Lent h f prototype) : ∀ p ∈ prototype, p < h.objects.size := by
  rcases lent with rfl | rfl
  · exact fun p hp => by cases hp
  · intro p hp
    have hholds := closed.holds_get f Building.prototypeKey
    cases hget : h.get f Building.prototypeKey with
    | object q =>
        rw [hget] at hp hholds
        exact Option.some.inj hp ▸ hholds
    | _ =>
        rw [hget] at hp
        cases hp

/-- A function that is tried leaves prototypes that come to an end, if library code does. -/
theorem Tries.settled (hlib : lib.Settles) {f : Value} {w w' : World β σ} (h : Tries lib f w w')
    (hw : w.heap.Settled) : w'.heap.Settled := by
  cases h with
  | refuses name message => exact settled_error name message hw
  | calls => exact settled_runCode hlib _ rfl (fun id hid => by cases hid) hw
  | makes lent => exact settled_bare hw _ (lt_of_lent hw.closed lent)
  | works constructs lent =>
      refine settled_runCode hlib _ rfl (fun id hid => ?_)
        (settled_bare hw _ (lt_of_lent hw.closed lent))
      cases hid
      exact (Heap.size_alloc _ _).symm ▸ Nat.lt_succ_self _

theorem Met.settled (hlib : lib.Settles) (hstart : (Building.host w₀.heap).2.Settled)
    (met : Met lib exports w₀ w) : w.heap.Settled :=
  -- What is found does not matter: whatever is tried leaves the heap settled.
  @Met.rec β σ lib exports w₀ (fun w _ => w.heap.Settled) (fun _ _ => True) hstart
    (fun _ _ tries _ hw => tries.settled hlib hw) trivial (fun _ _ _ _ _ _ => trivial) w met

end ApiSurface.Reflect
