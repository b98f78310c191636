/-
# `ApiSurface.Proofs.Live.Callable` — what can be invoked can always be invoked

Whether a value can be invoked depends on the kind of the object that it is, and nothing in the
world changes the kind of an object: objects are put on the heap, get properties and prototypes, and
stay.  So an endpoint that can be invoked when a run starts can be when the run comes to it, however
long that takes.

Every step is shown to keep what can be invoked (`Keeps`): the steps that make objects, the code of
the host, and with that calling, constructing and waiting.  Of the code of the library it has to be
said (`Library.Keeps`); it knows an object only by its number, and has no step that changes a kind.
-/
import ApiSurface.Live.Call
import ApiSurface.Run.Materialize
import ApiSurface.Proofs.Live.Extended
import ApiSurface.Proofs.Run.Dispatch

namespace ApiSurface.Live

variable {β σ : Type}

/-! ## Heaps -/

namespace Heap

/-- What can be invoked on a heap can be invoked on another one. -/
def Keeps (h h' : Heap β) : Prop :=
  ∀ v, h.isCallable v = true → h'.isCallable v = true

theorem Keeps.refl (h : Heap β) : h.Keeps h :=
  fun _ hv => hv

theorem Keeps.trans {h h' h'' : Heap β} (first : h.Keeps h') (second : h'.Keeps h'') :
    h.Keeps h'' :=
  fun v hv => second v (first v hv)

theorem isCallable_object_iff (h : Heap β) (id : Nat) :
    h.isCallable (.object id) = true ↔ ∃ o c, h.obj? id = some o ∧ o.kind = .function c := by
  rw [isCallable, callable?]
  cases h.obj? id with
  | none => simp
  | some o => cases hk : o.kind <;> simp [hk]

theorem exists_object_of_isCallable {h : Heap β} {v : Value} (hv : h.isCallable v = true) :
    ∃ id, v = .object id := by
  cases v with
  | object id => exact ⟨id, rfl⟩
  | _ => cases hv

/-- A heap keeps what can be invoked if it keeps the kinds of the objects. -/
theorem keeps_of_kind {h h' : Heap β}
    (hk : ∀ id o, h.obj? id = some o → ∃ o', h'.obj? id = some o' ∧ o'.kind = o.kind) :
    h.Keeps h' := by
  intro v hv
  obtain ⟨id, rfl⟩ := exists_object_of_isCallable hv
  obtain ⟨o, c, ho, hc⟩ := (isCallable_object_iff h id).mp hv
  obtain ⟨o', ho', hkind⟩ := hk id o ho
  exact (isCallable_object_iff h' id).mpr ⟨o', c, ho', hkind.trans hc⟩

theorem keeps_alloc (h : Heap β) (o : Obj β) : h.Keeps (h.alloc o).2 :=
  keeps_of_kind fun id o' ho => ⟨o', (Extends.refl h).alloc o id o' ho, rfl⟩

theorem keeps_modify (h : Heap β) (id : Nat) {f : Obj β → Obj β} (hf : ∀ o, (f o).kind = o.kind) :
    h.Keeps (h.modify id f) := by
  refine keeps_of_kind fun j o ho => ?_
  rw [obj?_modify, ho]
  split
  · exact ⟨f o, rfl, hf o⟩
  · exact ⟨o, rfl, rfl⟩

theorem keeps_define (h : Heap β) (id : Nat) (key : String) (p : Property) :
    h.Keeps (h.define id key p) :=
  h.keeps_modify id fun _ => rfl

theorem keeps_setPrototype (h : Heap β) (id : Nat) (p : Option Nat) :
    h.Keeps (h.setPrototype id p) :=
  h.keeps_modify id fun _ => rfl

theorem keeps_settle (h : Heap β) (id : Nat) (result : Except Value Value) :
    h.Keeps (h.settle id result) :=
  fun _ hv => hv

end Heap

/-! ## Steps on the heap -/

namespace Building

variable {α γ : Type}

/-- A step on the heap keeps what can be invoked. -/
def Keeps (b : Building β α) : Prop :=
  ∀ h : Heap β, h.Keeps (b h).2

theorem keeps_pure (a : α) : Keeps (pure a : Building β α) :=
  fun h => .refl h

theorem Keeps.bind {b : Building β α} {f : α → Building β γ} (hb : Keeps b)
    (hf : ∀ a, Keeps (f a)) : Keeps (b >>= f) :=
  fun h => (hb h).trans (hf _ _)

theorem keeps_object (o : Obj β) : Keeps (object o) :=
  fun h => h.keeps_alloc o

theorem keeps_define (id : Nat) (key : String) (p : Property) :
    Keeps (define id key p : Building β Unit) :=
  fun h => h.keeps_define id key p

theorem keeps_record (fields : List (String × Value)) : Keeps (record fields : Building β Value) :=
  (keeps_object _).bind fun _ => keeps_pure _

theorem keeps_array (items : List Value) : Keeps (array items : Building β Value) :=
  (keeps_object _).bind fun _ => keeps_pure _

theorem keeps_error (name : ErrorName) (message : String) :
    Keeps (error name message : Building β Nat) :=
  keeps_object _

theorem keeps_function (c : Callable β) : Keeps (function c) := by
  refine (keeps_object _).bind fun id => ?_
  split
  · refine (keeps_object _).bind fun p => ?_
    exact (keeps_define id _ _).bind fun _ => keeps_pure _
  · exact (keeps_pure _).bind fun _ => keeps_pure _

theorem keeps_nothing : Keeps (nothing : Building (Code β) Value) :=
  (keeps_function _).bind fun _ => keeps_pure _

end Building

/-! ## Steps in the world -/

namespace Action

variable {ε α γ : Type}

/-- A step in the world keeps what can be invoked. -/
def Keeps (a : Action β σ ε α) : Prop :=
  ∀ w : World β σ, w.heap.Keeps (a w).2.heap

theorem keeps_pure (a : α) : Keeps (pure a : Action β σ ε α) :=
  fun w => .refl w.heap

theorem keeps_throw (e : ε) : Keeps (throw e : Action β σ ε α) :=
  fun w => .refl w.heap

theorem keeps_heap : Keeps (heap : Action β σ ε (Heap (Code β))) :=
  fun w => .refl w.heap

theorem keeps_onHeap {b : Building (Code β) α} (hb : Building.Keeps b) :
    Keeps (onHeap b : Action β σ ε α) :=
  fun w => hb w.heap

theorem keeps_change {f : Heap (Code β) → Heap (Code β)} (hf : ∀ h : Heap (Code β), h.Keeps (f h)) :
    Keeps (change f : Action β σ ε Unit) :=
  fun w => hf w.heap

theorem Keeps.bind {a : Action β σ ε α} {f : α → Action β σ ε γ} (ha : Keeps a)
    (hf : ∀ x, Keeps (f x)) : Keeps (a >>= f) := by
  intro w
  rw [Run.action_bind_eq]
  have hw := ha w
  rcases hr : a w with ⟨e | x, w'⟩ <;> rw [hr] at hw
  · exact hw
  · exact hw.trans (hf x w')

theorem Keeps.outcome {ε' : Type} {a : Action β σ ε α} (ha : Keeps a) :
    Keeps (a.outcome : Action β σ ε' (Except ε α)) :=
  ha

theorem Keeps.mapError {ε' : Type} {a : Action β σ ε α} (ha : Keeps a) (f : ε → ε') :
    Keeps (a.mapError f) :=
  ha

theorem keeps_raise (name : ErrorName) (message : String) :
    Keeps (raise name message : Action β σ Value α) :=
  (keeps_onHeap (Building.keeps_error name message)).bind fun _ => keeps_throw _

theorem keeps_ofExcept (r : Except ε α) : Keeps (MonadExcept.ofExcept r : Action β σ ε α) := by
  cases r with
  | ok a => exact keeps_pure a
  | error e => exact keeps_throw e

end Action

/-! ## The code of the host -/

namespace HostCode

open Action

theorem keeps_giveObject (o : Obj (Code β)) : Keeps (giveObject o : Action β σ Value Value) :=
  (keeps_onHeap (Building.keeps_object o)).bind fun _ => keeps_pure _

theorem keeps_giveBytes (i : Invocation) (data : ByteArray) :
    Keeps (giveBytes i data : Action β σ Value Value) :=
  keeps_heap.bind fun _ => keeps_giveObject _

theorem keeps_typedArrayBytes (v : Value) :
    Keeps (typedArrayBytes v : Action β σ Value ByteArray) := by
  unfold typedArrayBytes
  split
  · split
    · exact keeps_pure _
    · exact keeps_raise _ _
  · exact keeps_heap.bind fun _ => keeps_pure _

theorem keeps_bufferBytes (v : Value) : Keeps (bufferBytes v : Action β σ Value ByteArray) := by
  unfold bufferBytes
  split
  · exact keeps_pure _
  · split
    · exact keeps_pure _
    · exact keeps_raise _ _

theorem keeps_copiedBytes (v : Value) : Keeps (copiedBytes v : Action β σ Value ByteArray) := by
  refine keeps_heap.bind fun h => ?_
  split
  · exact keeps_pure _
  · exact keeps_raise _ _

theorem keeps_runRegexp (i : Invocation) : Keeps (runRegexp i : Action β σ Value Value) := by
  refine keeps_heap.bind fun h => ?_
  dsimp only
  split
  · exact keeps_raise _ _
  · split
    · exact keeps_raise _ _
    · exact keeps_giveObject _

theorem keeps_runError (i : Invocation) : Keeps (runError i : Action β σ Value Value) := by
  refine keeps_heap.bind fun h => ?_
  refine (keeps_onHeap (Building.keeps_error _ _)).bind fun e => ?_
  exact (keeps_change fun h' => h'.keeps_setPrototype e _).bind fun _ => keeps_pure _

theorem keeps_runDuplex (i : Invocation) : Keeps (runDuplex i : Action β σ Value Value) := by
  have hset : ∀ id : Nat, Keeps (change fun h => (h.set id "readable" (.boolean true)).set id
      "writable" (.boolean true) : Action β σ Value Unit) := fun id =>
    keeps_change fun h => (h.keeps_define id _ _).trans (Heap.keeps_define _ id _ _)
  unfold runDuplex
  split
  · exact (keeps_pure _).bind fun id => (hset id).bind fun _ => keeps_pure _
  · refine (keeps_onHeap (Building.keeps_object _)).bind fun id => ?_
    exact (hset id).bind fun _ => keeps_pure _

theorem keeps_run (i : Invocation) (c : HostCode) : Keeps (c.run i : Action β σ Value Value) := by
  cases c with
  | nothing => exact keeps_pure _
  | typedArray => exact (keeps_typedArrayBytes _).bind fun data => keeps_giveBytes i data
  | buffer => exact (keeps_bufferBytes _).bind fun data => keeps_giveBytes i data
  | bufferFrom prototype => exact (keeps_copiedBytes _).bind fun _ => keeps_giveObject _
  | regexp => exact keeps_runRegexp i
  | error => exact keeps_runError i
  | duplex => exact keeps_runDuplex i

end HostCode

/-! ## Calling, constructing, waiting -/

section Library

open Action

/-- The code of a library keeps what can be invoked. -/
def Library.Keeps (lib : Library β σ) : Prop :=
  ∀ code i, Action.Keeps (lib code i)

variable {lib : Library β σ} (hlib : lib.Keeps)

include hlib

theorem keeps_runCode (c : Code β) (i : Invocation) : Keeps (runCode lib c i) := by
  cases c with
  | host code => exact HostCode.keeps_run i code
  | library code => exact hlib code i

theorem keeps_call (f receiver : Value) (args : List Value) : Keeps (call lib f receiver args) := by
  refine keeps_heap.bind fun h => ?_
  split
  · exact keeps_raise _ _
  · split
    · exact keeps_raise _ _
    · exact keeps_raise _ _
    · exact keeps_runCode hlib _ _
    · exact keeps_runCode hlib _ _

theorem keeps_instantiate (f : Value) (c : Callable (Code β)) (args : List Value) :
    Keeps (instantiate lib f c args) := by
  refine keeps_heap.bind fun h => ?_
  refine (keeps_onHeap (Building.keeps_object _)).bind fun fresh => ?_
  refine (keeps_runCode hlib _ _).bind fun v => ?_
  split
  · exact keeps_pure _
  · exact keeps_pure _

theorem keeps_construct (f : Value) (args : List Value) : Keeps (construct lib f args) := by
  refine keeps_heap.bind fun h => ?_
  split
  · exact keeps_raise _ _
  · split
    · exact keeps_raise _ _
    · exact keeps_instantiate hlib _ _ _
    · exact keeps_instantiate hlib _ _ _
    · exact keeps_instantiate hlib _ _ _

theorem keeps_await (id : Nat) : Keeps (await lib id) := by
  refine keeps_heap.bind fun h => ?_
  split
  · exact keeps_ofExcept _
  · refine (keeps_runCode hlib _ _).outcome.bind fun result => ?_
    exact (keeps_change fun h => h.keeps_settle id result).bind fun _ => keeps_ofExcept _
  · exact keeps_pure _

theorem keeps_settleFrom (id : Nat) : Keeps (settleFrom lib id) := by
  induction id using Nat.strongRecOn with
  | ind id ih =>
      rw [settleFrom]
      refine (keeps_await hlib id).bind fun v => ?_
      split
      · split
        next older hlt => exact ih _ hlt
        next => exact keeps_pure _
      · exact keeps_pure _

theorem keeps_settle (v : Value) : Keeps (settle lib v) := by
  cases v with
  | promise id => exact keeps_settleFrom hlib id
  | _ => exact keeps_pure _

end Library

end ApiSurface.Live

/-! ## What a run adds -/

namespace ApiSurface.Constant

open Live Building

variable {β : Type}

mutual

theorem keeps_materialize : ∀ c : Constant, Keeps (materialize c : Building (Code β) Value)
  | .number _ | .string _ | .boolean _ | .undefined | .null => keeps_pure _
  | .function => keeps_nothing
  | .object fields => (keeps_materializeFields fields).bind fun _ => keeps_record _
  | .array items => (keeps_materializeItems items).bind fun _ => keeps_array _

theorem keeps_materializeFields : ∀ fields : List (String × Constant),
    Keeps (materializeFields fields : Building (Code β) (List (String × Value)))
  | [] => keeps_pure _
  | (_, c) :: r =>
      (keeps_materialize c).bind fun _ => (keeps_materializeFields r).bind fun _ => keeps_pure _

theorem keeps_materializeItems : ∀ items : List Constant,
    Keeps (materializeItems items : Building (Code β) (List Value))
  | [] => keeps_pure _
  | c :: r =>
      (keeps_materialize c).bind fun _ => (keeps_materializeItems r).bind fun _ => keeps_pure _

end

end ApiSurface.Constant

namespace ApiSurface.Run

open Live Action

end ApiSurface.Run
