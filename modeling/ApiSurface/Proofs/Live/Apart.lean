/-
# `ApiSurface.Proofs.Live.Apart` — the host leaves the objects of an earlier heap alone

The host puts its classes on a heap, and its code is run when a function of the host is tried.  Both
work on objects that they have made themselves, or on the fresh receiver of a construction, so that
every heap that came before is extended.

**Main results** (`apart_host`, `HostCode.run_unasked`): the values of the host are put beside what
is there; code of the host that is run without arguments leaves what is there as it is and throws
the same wherever it is run.
-/
import ApiSurface.Live.Call
import ApiSurface.Proofs.Live.Extended
import ApiSurface.Proofs.Run.Dispatch

namespace ApiSurface.Live

namespace Building

variable {β α γ : Type} {h : Heap β}

/-! ## Steps on the heap -/

/-- On a heap that extends `h` a step extends `h` further, and what it returns has the property. -/
def Apart (h : Heap β) (b : Building β α) (property : α → Prop) : Prop :=
  ∀ h', h.Extends h' → h.Extends (b h').2 ∧ property (b h').1

/-- The object came later than those of the heap. -/
def Later (h : Heap β) (id : Nat) : Prop :=
  h.objects.size ≤ id

theorem apart_pure {property : α → Prop} {a : α} (ha : property a) :
    Apart h (pure a : Building β α) property :=
  fun _ ext => ⟨ext, ha⟩

theorem Apart.bind {b : Building β α} {f : α → Building β γ} {property : α → Prop}
    {property' : γ → Prop} (hb : Apart h b property)
    (hf : ∀ a, property a → Apart h (f a) property') : Apart h (b >>= f) property' := by
  intro h' ext
  obtain ⟨ext', ha⟩ := hb h' ext
  exact hf _ ha _ ext'

/-- The heap is read. -/
theorem Apart.bind_get {f : Heap β → Building β α} {property : α → Prop}
    (hf : ∀ h', Apart h (f h') property) : Apart h (get >>= f) property :=
  fun h' ext => hf h' h' ext

theorem apart_object (o : Obj β) : Apart h (object o) (Later h) :=
  fun _ ext => ⟨ext.alloc o, ext.size_le⟩

theorem apart_define {id : Nat} (hid : Later h id) (key : String) (p : Property) :
    Apart h (define id key p : Building β Unit) fun _ => True :=
  fun _ ext => ⟨ext.modify hid _, trivial⟩

theorem apart_function (c : Callable β) : Apart h (function c) (Later h) := by
  refine (apart_object _).bind fun id hid => ?_
  split
  · refine (apart_object _).bind fun p _ => ?_
    exact (apart_define hid _ _).bind fun _ _ => apart_pure hid
  · exact apart_pure hid

theorem apart_method (name : String) (length : Nat) (body : β) :
    Apart h (method name length body) fun _ => True :=
  (apart_function _).bind fun _ _ => apart_pure trivial

theorem apart_instancePrototype {f : Nat} (hf : Later h f) :
    Apart h (instancePrototype f : Building β Nat) fun _ => True := by
  refine .bind_get fun h' => ?_
  split
  · exact apart_pure trivial
  · refine (apart_object _).bind fun p _ => ?_
    exact (apart_define hf _ _).bind fun _ _ => apart_pure trivial

/-- A class that has neither a parent nor members. -/
theorem apart_newClass (name : String) (length : Nat) (flavor : Flavor) (body : β) :
    Apart h (newClass { name, length, flavor, body }) fun r => Later h r.1 := by
  refine (apart_function _).bind fun f hf => ?_
  exact (apart_instancePrototype hf).bind fun p _ => apart_pure hf

theorem apart_hostFunction {h : Heap (Code β)} (name : String) (length : Nat) (flavor : Flavor)
    (code : HostCode) :
    Apart h (hostFunction name length flavor code : Building (Code β) Value) fun _ => True :=
  (apart_function _).bind fun _ _ => apart_pure trivial

theorem apart_bufferClass {h : Heap (Code β)} :
    Apart h (bufferClass : Building (Code β) (Value × Value)) fun _ => True := by
  refine (apart_newClass _ _ _ _).bind fun r hr => (apart_method _ _ _).bind fun make _ => ?_
  exact (apart_define hr _ _).bind fun _ _ => apart_pure trivial

/-- **The values of the host are put beside what is on a heap.** -/
theorem apart_host {h : Heap (Code β)} :
    Apart h (host : Building (Code β) (List (String × Value))) fun _ => True := by
  refine apart_bufferClass.bind fun buffer _ => ?_
  refine (apart_hostFunction _ _ _ _).bind fun uint8Array _ => ?_
  refine (apart_hostFunction _ _ _ _).bind fun arrayBuffer _ => ?_
  refine (apart_hostFunction _ _ _ _).bind fun regexp _ => ?_
  refine (apart_hostFunction _ _ _ _).bind fun sharedBuffer _ => ?_
  refine (apart_hostFunction _ _ _ _).bind fun error _ => ?_
  refine (apart_hostFunction _ _ _ _).bind fun duplex _ => ?_
  exact apart_pure trivial

end Building

/-! ## Code of the host -/

/-- How a thrown value reads on the heap, for an outcome that is one: the name and the message of an
error, and nothing of other values. -/
def Heap.thrown {β : Type} (h : Heap β) : Except Value Value → Option (Option (ErrorName × String))
  | .ok _ => none
  | .error v => some (h.error? v)

variable {β σ : Type} {h : Heap (Code β)}

/-- An error that is raised is put beside what is there. -/
theorem Action.thrown_raise (name : ErrorName) (message : String) (w : World β σ)
    (ext : h.Extends w.heap) :
    let r := (raise name message : Action β σ Value Value) w
    r.2.heap.thrown r.1 = some (some (name, message)) ∧ h.Extends r.2.heap := by
  refine ⟨?_, ext.alloc _⟩
  let o : Obj (Code β) :=
    { kind := .error name message, properties := Building.errorProperties name message }
  have ho : (w.heap.alloc o).2.obj? w.heap.objects.size = some o := w.heap.obj?_alloc o
  show some ((w.heap.alloc o).2.error? (.object w.heap.objects.size)) = some (some (name, message))
  simp only [Heap.error?, Value.object?, Option.bind_some, ho, o]

namespace HostCode

/-- How the code of the host complains when it is run without arguments. -/
def complaint : HostCode → Option (Option (ErrorName × String))
  | bufferFrom _ =>
    some (some (.typeError, "The first argument must be of type string or an instance of Buffer, "
      ++ "ArrayBuffer, or Array or an Array-like Object. Received type undefined"))
  | _ => none

/-- A regular expression of which nothing is said has an empty group as its pattern. -/
theorem runRegexp_unasked {i : Invocation} (harg : ∀ n, i.arg n = .undefined) (w : World β σ) :
    (runRegexp i : Action β σ Value Value) w =
      giveObject { kind := .regexp "(?:)" "", prototype := receiverPrototype w.heap i } w := by
  have hflags : Pattern.validFlags "".toList = true := by decide
  have hsource : Pattern.fault? 0 "(?:)".toList = none := by decide
  have htext : ∀ missing, textOr w.heap missing .undefined = missing := fun _ => rfl
  rw [runRegexp, harg, harg, Run.action_bind_eq]
  show (if !Pattern.validFlags (textOr w.heap "" .undefined).toList then _ else _ :
    Action β σ Value Value) w = _
  rw [htext, htext, hflags, if_neg (by decide : ¬ (!true) = true), hsource]

/-- **Code of the host that is run without arguments** complains in the same way everywhere. It
leaves what is on a heap as it is, unless it constructs on that. -/
theorem run_unasked (c : HostCode) {i : Invocation} (hargs : i.args = []) (w : World β σ)
    (ext : h.Extends w.heap)
    (hreceiver : ∀ id, i.constructs = true → i.receiver = .object id → Building.Later h id) :
    (c.run i w).2.heap.thrown (c.run i w).1 = c.complaint ∧ h.Extends (c.run i w).2.heap := by
  have harg : ∀ n, i.arg n = .undefined := by
    intro n
    rw [Invocation.arg, hargs]
    rfl
  cases c with
  | nothing => exact ⟨rfl, ext⟩
  | typedArray =>
      rw [run, harg]
      exact ⟨rfl, ext.alloc _⟩
  | buffer =>
      rw [run, harg]
      exact ⟨rfl, ext.alloc _⟩
  | bufferFrom prototype =>
      rw [run, harg]
      exact Action.thrown_raise .typeError _ w ext
  | regexp =>
      rw [run, runRegexp_unasked harg]
      exact ⟨rfl, ext.alloc _⟩
  | error =>
      rw [run, runError, harg]
      exact ⟨rfl, (ext.alloc _).modify ext.size_le _⟩
  | duplex =>
      have hset : ∀ id (h' : Heap (Code β)), Building.Later h id → h.Extends h' →
          h.Extends ((h'.set id "readable" (.boolean true)).set id "writable" (.boolean true)) :=
        fun id h' hid ext => (ext.modify hid _).modify hid _
      have hfresh := hset _ _ ext.size_le (ext.alloc { kind := .ordinary })
      rw [run, runDuplex]
      cases hreceived : i.receiver with
      | object id =>
          cases hconstructs : i.constructs with
          | true => exact ⟨rfl, hset id _ (hreceiver id hconstructs hreceived) ext⟩
          | false => exact ⟨rfl, hfresh⟩
      | _ => exact ⟨rfl, hfresh⟩

end HostCode

end ApiSurface.Live
