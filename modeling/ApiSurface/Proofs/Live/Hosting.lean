/-
# `ApiSurface.Proofs.Live.Hosting` — what the host brings with it can be invoked

`Building.host` puts the classes and functions of the host on a heap, one after the other.  A value
that was made early has to be one that can be invoked when the last is there, so the steps are read
with the values made so far at hand (`Supplies`): a step makes some and keeps those before it.

**Main results** (`supplies_host`, `names_host`): what the host shows can be invoked, and it shows
exactly one value under the name of each of its entries.
-/
import ApiSurface.Schema.Standard
import ApiSurface.Proofs.Live.Callable

namespace ApiSurface.Live.Building

variable {β α : Type}

/-! ## Steps that keep what can be invoked -/

theorem keeps_setPrototype (id : Nat) (p : Option Nat) :
    Keeps (setPrototype id p : Building β Unit) :=
  fun h => h.keeps_setPrototype id p

theorem keeps_get : Keeps (get : Building β (Heap β)) :=
  fun h => .refl h

theorem keeps_method (name : String) (length : Nat) (body : β) : Keeps (method name length body) :=
  (keeps_function _).bind fun _ => keeps_pure _

theorem keeps_instancePrototype (f : Nat) : Keeps (instancePrototype f : Building β Nat) := by
  refine keeps_get.bind fun h => ?_
  split
  · exact keeps_pure _
  · refine (keeps_object _).bind fun p => ?_
    exact (keeps_define f _ _).bind fun _ => keeps_pure _

theorem keeps_inheritFrom (f p : Nat) (parent : Value) :
    Keeps (inheritFrom f p parent : Building β Unit) := by
  refine keeps_get.bind fun h => ?_
  dsimp only
  split
  · refine (keeps_setPrototype _ _).bind fun _ => ?_
    split
    · exact keeps_setPrototype _ _
    · exact keeps_pure _
  · split
    · exact keeps_setPrototype _ _
    · exact keeps_pure _

theorem keeps_addMembers (id : Nat) (members : List (ClassMember β)) :
    Keeps (addMembers id members) := by
  induction members with
  | nil => exact keeps_pure _
  | cons m members ih =>
      refine Keeps.bind ?_ fun _ => ih
      exact (keeps_method _ _ _).bind fun _ => keeps_define _ _ _

/-- What is done with the function of a class keeps it. -/
theorem keeps_finishClass (c : ClassPlan β) (f : Nat) : Keeps (do
    let p ← instancePrototype f
    match c.parent with
    | some parent => inheritFrom f p parent
    | none => pure ()
    addMembers p c.methods
    addMembers f c.statics
    return (f, p) : Building β (Nat × Nat)) := by
  refine (keeps_instancePrototype f).bind fun p => ?_
  have hmembers : Keeps (do
      addMembers p c.methods
      addMembers f c.statics
      return (f, p) : Building β (Nat × Nat)) :=
    (keeps_addMembers p _).bind fun _ => (keeps_addMembers f _).bind fun _ => keeps_pure _
  dsimp only
  split
  · exact (keeps_inheritFrom f p _).bind fun _ => hmembers
  · exact hmembers

theorem keeps_newClass (c : ClassPlan β) : Keeps (newClass c) :=
  (keeps_function _).bind fun f => keeps_finishClass c f

theorem keeps_hostFunction (name : String) (length : Nat) (flavor : Flavor) (code : HostCode) :
    Keeps (hostFunction name length flavor code : Building (Code β) Value) :=
  (keeps_function _).bind fun _ => keeps_pure _

theorem keeps_bufferClass : Keeps (bufferClass : Building (Code β) (Value × Value)) := by
  refine (keeps_newClass _).bind fun r => (keeps_method _ _ _).bind fun make => ?_
  exact (keeps_define r.1 _ _).bind fun _ => keeps_pure _

/-! ## Steps that make what can be invoked -/

/-- A step makes values that can be invoked. -/
def Makes (b : Building β α) (values : α → List Value) : Prop :=
  ∀ h, ∀ v ∈ values (b h).1, (b h).2.isCallable v = true

/-- What is made first can be invoked if the rest of the step keeps it, and so can what the rest
makes. -/
theorem Makes.append {γ : Type} {b : Building β α} {values : α → List Value}
    {f : α → Building β γ} {more values' : γ → List Value} (hb : Makes b values)
    (keeps : ∀ a, Keeps (f a)) (hf : ∀ a, Makes (f a) more)
    (both : ∀ a h, values' (f a h).1 = values a ++ more (f a h).1) : Makes (b >>= f) values' := by
  intro h v hv
  have hmem : v ∈ values (b h).1 ++ more (f (b h).1 (b h).2).1 := by
    rw [← both]
    exact hv
  rcases List.mem_append.mp hmem with hfirst | hrest
  · exact keeps _ _ v (hb h v hfirst)
  · exact hf _ _ v hrest

theorem Makes.bind {γ : Type} {b : Building β α} {values : α → List Value}
    {f : α → Building β γ} {values' : γ → List Value} (hb : Makes b values)
    (keeps : ∀ a, Keeps (f a)) (same : ∀ a h, values' (f a h).1 = values a) :
    Makes (b >>= f) values' := by
  have hnone : ∀ a, Makes (f a) fun _ => [] := fun _ _ _ hv => absurd hv List.not_mem_nil
  refine hb.append keeps hnone fun a h => ?_
  rw [same, List.append_nil]

theorem makes_object {o : Obj β} {c : Callable β} (ho : o.kind = .function c) :
    Makes (object o) fun id => [.object id] := by
  intro h v hv
  rw [List.mem_singleton.mp hv]
  refine (Heap.isCallable_object_iff _ _).mpr ⟨o, c, ?_, ho⟩
  show (h.objects.push o)[h.objects.size]? = some o
  exact Array.getElem?_push_size

theorem makes_function (c : Callable β) : Makes (function c) fun id => [.object id] := by
  refine (makes_object rfl).bind (fun id => ?_) (fun id h => ?_)
  · split
    · exact (keeps_object _).bind fun _ => (keeps_define id _ _).bind fun _ => keeps_pure _
    · exact keeps_pure _
  · split <;> rfl

theorem makes_method (name : String) (length : Nat) (body : β) :
    Makes (method name length body) fun v => [v] :=
  (makes_function _).bind (fun _ => keeps_pure _) fun _ _ => rfl

theorem makes_hostFunction (name : String) (length : Nat) (flavor : Flavor) (code : HostCode) :
    Makes (hostFunction name length flavor code : Building (Code β) Value) fun v => [v] :=
  (makes_function _).bind (fun _ => keeps_pure _) fun _ _ => rfl

theorem makes_newClass (c : ClassPlan β) : Makes (newClass c) fun r => [.object r.1] := by
  refine (makes_function _).bind (fun f => keeps_finishClass c f) (fun f h => ?_)
  rcases c with ⟨name, length, body, flavor, parent, methods, statics⟩
  cases parent <;> rfl

/-! ## The values of the host -/

/-- A step lists, besides values made before it, such as it makes itself, and all of them can be
invoked in the end. -/
def Supplies (made : List Value) (b : Building β (List (String × Value))) : Prop :=
  ∀ h : Heap β, (∀ v ∈ made, h.isCallable v = true) →
    ∀ p ∈ (b h).1, (b h).2.isCallable p.2 = true

theorem supplies_pure {made : List Value} {l : List (String × Value)}
    (h : ∀ p ∈ l, p.2 ∈ made) : Supplies made (pure l : Building β (List (String × Value))) :=
  fun _ hmade p hp => hmade p.2 (h p hp)

theorem Supplies.bind {made : List Value} {b : Building β α} {values : α → List Value}
    {f : α → Building β (List (String × Value))} (keeps : Keeps b) (makes : Makes b values)
    (hf : ∀ a, Supplies (values a ++ made) (f a)) : Supplies made (b >>= f) := by
  intro h hmade
  refine hf (b h).1 (b h).2 fun v hv => ?_
  rcases List.mem_append.mp hv with hv | hv
  · exact makes h v hv
  · exact keeps h v (hmade v hv)

theorem makes_bufferClass :
    Makes (bufferClass : Building (Code β) (Value × Value)) fun r => [r.1, r.2] := by
  have hkeeps : ∀ (id : Nat) (make : Value), Keeps (do
      define id "from" (.hidden make)
      return (.object id, make) : Building (Code β) (Value × Value)) :=
    fun id make => (keeps_define id _ _).bind fun _ => keeps_pure _
  have hmakes : ∀ (id p : Nat), Makes (do
      let make ← method "from" 1 (Code.host (.bufferFrom p))
      define id "from" (.hidden make)
      return (.object id, make) : Building (Code β) (Value × Value)) fun r => [r.2] :=
    fun id p => (makes_method _ _ _).bind (fun make => hkeeps id make) fun _ _ => rfl
  refine (makes_newClass _).append (fun r => ?_) (fun r => hmakes r.1 r.2) fun _ _ => rfl
  exact (keeps_method _ _ _).bind fun make => hkeeps r.1 make

/-- **What the host shows can be invoked.** -/
theorem supplies_host : Supplies [] (host : Building (Code β) (List (String × Value))) := by
  refine .bind keeps_bufferClass makes_bufferClass fun buffer => ?_
  refine .bind (keeps_hostFunction _ _ _ _) (makes_hostFunction _ _ _ _) fun uint8Array => ?_
  refine .bind (keeps_hostFunction _ _ _ _) (makes_hostFunction _ _ _ _) fun arrayBuffer => ?_
  refine .bind (keeps_hostFunction _ _ _ _) (makes_hostFunction _ _ _ _) fun regexp => ?_
  refine .bind (keeps_hostFunction _ _ _ _) (makes_hostFunction _ _ _ _) fun sharedBuffer => ?_
  refine .bind (keeps_hostFunction _ _ _ _) (makes_hostFunction _ _ _ _) fun error => ?_
  refine .bind (keeps_hostFunction _ _ _ _) (makes_hostFunction _ _ _ _) fun duplex => ?_
  refine supplies_pure ?_
  simp

/-- **The host shows one value under the name of each of its entries.** -/
theorem names_host (h : Heap (Code β)) :
    ((host h).1.map Prod.fst) = Standard.entries.map Prod.fst :=
  rfl

end ApiSurface.Live.Building
