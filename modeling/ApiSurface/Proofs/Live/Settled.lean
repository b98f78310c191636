/-
# `ApiSurface.Proofs.Live.Settled` — steps after which prototypes still come to an end

A heap is settled (`Heap.Settled`) if its objects refer to its own objects only and every chain of
prototypes comes to an end.  An object that is put on the heap can then inherit from one that is
there, and nothing that was there inherits from the new one; so the heap stays settled.  Giving an
object a property changes no chain at all.

Code of the host that is run without arguments does only such things (`HostCode.settled_run`).  Of
library code it is a condition (`Library.Settles`).
-/
import ApiSurface.Proofs.Live.Apart
import ApiSurface.Proofs.Live.Lines

namespace ApiSurface.Live

variable {β σ : Type}

namespace Heap

variable {h h' : Heap β}

/-- Objects refer to objects of the heap only, and chains of prototypes come to an end. -/
structure Settled (h : Heap β) : Prop where
  closed : h.Closed
  grounded : h.Grounded

theorem Line.of_extends (closed : h.Closed) (ext : h.Extends h') {id : Nat} {line : List Nat}
    (hl : h.Line id line) (hid : id < h.objects.size) : h'.Line id line := by
  induction hl with
  | last ends => exact .last ((ext.prototype?_eq hid).trans ends)
  | next step rest ih =>
      exact .next ((ext.prototype?_eq hid).trans step) (ih (closed.prototypes _ _ step))

/-- Prototypes that are older than what inherits from them come to an end. -/
theorem grounded_of_older (older : ∀ id < h.objects.size, ∀ p ∈ h.prototype? id, p < id) :
    h.Grounded := by
  intro id
  induction id using Nat.strongRecOn with
  | _ id ih =>
      cases hp : h.prototype? id with
      | none => exact ⟨_, .last hp⟩
      | some p =>
          obtain ⟨o, ho, -⟩ := Option.bind_eq_some_iff.mp hp
          obtain ⟨line, hl⟩ := ih p (older id (lt_of_obj? ho) p hp)
          exact ⟨_, .next hp hl⟩

/-- An object is put on the heap that refers to objects of the heap. -/
theorem Settled.alloc (hh : h.Settled) {o : Obj β}
    (hvalues : ∀ p ∈ o.properties, ∀ v ∈ p.2.value?, h.Holds v)
    (hprototype : ∀ p ∈ o.prototype, p < h.objects.size) : (h.alloc o).2.Settled := by
  have hle : h.objects.size ≤ (h.alloc o).2.objects.size := by
    rw [size_alloc]
    exact Nat.le_succ _
  have ext : h.Extends (h.alloc o).2 := (Extends.refl h).alloc o
  have hnew := h.obj?_alloc o
  constructor
  · refine closed_iff.mpr fun o' ho' => ?_
    have hmem : o' ∈ h.objects.toList ∨ o' = o := by
      rw [Heap.alloc, Array.toList_push] at ho'
      simpa using ho'
    rcases hmem with hold | rfl
    · obtain ⟨hvalues, hprototype⟩ := closed_iff.mp hh.closed o' hold
      exact ⟨fun p hp v hv => (hvalues p hp v hv).mono hle,
        fun p hp => Nat.lt_of_lt_of_le (hprototype p hp) hle⟩
    · exact ⟨fun p hp v hv => (hvalues p hp v hv).mono hle,
        fun p hp => Nat.lt_of_lt_of_le (hprototype p hp) hle⟩
  · intro id
    rcases Nat.lt_trichotomy id h.objects.size with hlt | rfl | hgt
    · obtain ⟨line, hl⟩ := hh.grounded id
      exact ⟨line, hl.of_extends hh.closed ext hlt⟩
    · cases ho : o.prototype with
      | none => exact ⟨_, .last (by rw [prototype?, hnew, Option.bind_some, ho])⟩
      | some p =>
          obtain ⟨line, hl⟩ := hh.grounded p
          exact ⟨_, .next (by rw [prototype?, hnew, Option.bind_some, ho])
            (hl.of_extends hh.closed ext (hprototype p ho))⟩
    · refine ⟨_, .last ?_⟩
      rw [prototype?, obj?, Array.getElem?_eq_none (by rw [size_alloc]; exact hgt)]
      rfl

/-- An object that is given a prototype when it has just been put on the heap has had it from the
start. -/
theorem setPrototype_alloc (h : Heap β) (o : Obj β) (p : Option Nat) :
    (h.alloc o).2.setPrototype (h.alloc o).1 p = (h.alloc { o with prototype := p }).2 := by
  have hobjects : (h.objects.push o).modify h.objects.size (fun o => { o with prototype := p }) =
      h.objects.push { o with prototype := p } := by
    refine Array.ext_getElem? fun i => ?_
    rw [Array.getElem?_modify, Array.getElem?_push, Array.getElem?_push]
    by_cases hi : h.objects.size = i
    · rw [if_pos hi, if_pos hi.symm, if_pos hi.symm, Option.map_some]
    · rw [if_neg hi, if_neg (Ne.symm hi), if_neg (Ne.symm hi)]
  exact congrArg (fun objects => { h with objects := objects }) hobjects

theorem obj?_set (h : Heap β) (id : Nat) (key : String) (v : Value) (x : Nat) :
    (h.set id key v).obj? x = if id = x
      then (h.obj? x).map fun o => { o with properties := Table.insert o.properties key (.plain v) }
      else h.obj? x :=
  h.obj?_modify ..

theorem prototype?_set (h : Heap β) (id : Nat) (key : String) (v : Value) (x : Nat) :
    (h.set id key v).prototype? x = h.prototype? x :=
  h.prototype?_define id key (.plain v) x

theorem mem_properties_set {id x : Nat} {key : String} {v : Value} {p : String × Property}
    (hp : p ∈ (h.set id key v).properties x) : p ∈ h.properties x ∨ p = (key, .plain v) := by
  rw [properties, obj?_set] at hp
  by_cases hid : id = x
  · rw [if_pos hid] at hp
    rw [properties]
    cases ho : h.obj? x with
    | none =>
        rw [ho] at hp
        exact absurd hp List.not_mem_nil
    | some o =>
        rw [ho] at hp
        exact (Table.mem_insert hp).symm
  · rw [if_neg hid] at hp
    exact .inl hp

theorem Line.of_prototypes (hprototypes : ∀ x, h'.prototype? x = h.prototype? x) {id : Nat}
    {line : List Nat} (hl : h.Line id line) : h'.Line id line := by
  induction hl with
  | last ends => exact .last ((hprototypes _).trans ends)
  | next step _ ih => exact .next ((hprototypes _).trans step) ih

/-- An object is given a property that refers to an object of the heap, if to any. -/
theorem Settled.set (hh : h.Settled) (id : Nat) (key : String) {v : Value} (hv : h.Holds v) :
    (h.set id key v).Settled := by
  have hsize : (h.set id key v).objects.size = h.objects.size := Array.size_modify
  refine ⟨⟨fun x p hp u hu => ?_, fun x p hp => ?_⟩, fun x => ?_⟩
  · have hheld : h.Holds u := by
      rcases mem_properties_set hp with hp | rfl
      · exact hh.closed.values x p hp u hu
      · exact Option.some.inj hu ▸ hv
    exact hheld.mono (Nat.le_of_eq hsize.symm)
  · rw [prototype?_set] at hp
    rw [hsize]
    exact hh.closed.prototypes x p hp
  · obtain ⟨line, hl⟩ := hh.grounded x
    exact ⟨line, hl.of_prototypes (prototype?_set h id key v)⟩

end Heap

variable {w : World β σ}

/-- The prototype of the receiver is an object of the heap. -/
theorem lt_of_receiverPrototype {h : Heap β} (closed : h.Closed) {i : Invocation} :
    ∀ p ∈ HostCode.receiverPrototype h i, p < h.objects.size := by
  intro p hp
  obtain ⟨id, -, hid⟩ := Option.bind_eq_some_iff.mp hp
  exact closed.prototypes id p hid

theorem holds_errorProperties (h : Heap β) (name : ErrorName) (message : String) :
    ∀ p ∈ Building.errorProperties name message, ∀ v ∈ p.2.value?, h.Holds v := by
  intro p hp v hv
  simp only [Building.errorProperties, List.mem_cons, List.not_mem_nil, or_false] at hp
  rcases hp with rfl | rfl
  · cases hv
    trivial
  · cases hv
    trivial

theorem settled_error (name : ErrorName) (message : String) (hw : w.heap.Settled) :
    (Building.error name message w.heap).2.Settled :=
  hw.alloc (holds_errorProperties w.heap name message) fun p hp => by cases hp

/-- An object without properties is put on the heap. -/
theorem settled_bare (hw : w.heap.Settled) (kind : ObjectKind (Code β)) {prototype : Option Nat}
    (hprototype : ∀ p ∈ prototype, p < w.heap.objects.size) :
    (w.heap.alloc { kind := kind, prototype := prototype }).2.Settled :=
  hw.alloc (fun _ hp => absurd hp List.not_mem_nil) hprototype

/-- **Code of the host that is run without arguments** leaves prototypes that come to an end. -/
theorem HostCode.settled_run (c : HostCode) {i : Invocation} (hargs : i.args = [])
    (hw : w.heap.Settled) : (c.run i w).2.heap.Settled := by
  have harg : ∀ n, i.arg n = .undefined := by
    intro n
    rw [Invocation.arg, hargs]
    rfl
  cases c with
  | nothing => exact hw
  | typedArray =>
      rw [run, harg]
      exact settled_bare hw _ (lt_of_receiverPrototype hw.closed)
  | buffer =>
      rw [run, harg]
      exact settled_bare hw _ (lt_of_receiverPrototype hw.closed)
  | bufferFrom prototype =>
      rw [run, harg]
      exact settled_error .typeError _ hw
  | regexp =>
      rw [run, runRegexp_unasked harg]
      exact settled_bare hw _ (lt_of_receiverPrototype hw.closed)
  | error =>
      rw [run, runError, harg]
      change ((w.heap.alloc _).2.setPrototype (w.heap.alloc _).1 _).Settled
      rw [Heap.setPrototype_alloc]
      exact hw.alloc (holds_errorProperties _ _ _) (lt_of_receiverPrototype hw.closed)
  | duplex =>
      have hset : ∀ id (h' : Heap (Code β)), h'.Settled →
          ((h'.set id "readable" (.boolean true)).set id "writable" (.boolean true)).Settled :=
        fun id h' hh => (hh.set id _ (v := .boolean true) trivial).set id _ (v := .boolean true)
          trivial
      have hfresh : (w.heap.alloc { kind := .ordinary }).2.Settled :=
        settled_bare hw _ fun p hp => by cases hp
      rw [run, runDuplex]
      cases hreceived : i.receiver with
      | object id =>
          cases hconstructs : i.constructs with
          | true => exact hset id _ hw
          | false => exact hset _ _ hfresh
      | _ => exact hset _ _ hfresh

/-- Library code that is run without arguments, on nothing or on an object of the heap, leaves
prototypes that come to an end. -/
def Library.Settles (lib : Library β σ) : Prop :=
  ∀ code i (w : World β σ), i.args = [] →
    (∀ id, i.receiver = .object id → id < w.heap.objects.size) →
      w.heap.Settled → (lib code i w).2.heap.Settled

theorem settled_runCode {lib : Library β σ} (hlib : lib.Settles) (c : Code β) {i : Invocation}
    (hargs : i.args = []) (hreceiver : ∀ id, i.receiver = .object id → id < w.heap.objects.size)
    (hw : w.heap.Settled) : (runCode lib c i w).2.heap.Settled := by
  cases c with
  | host code => exact code.settled_run hargs hw
  | library code => exact hlib code i w hargs hreceiver hw

end ApiSurface.Live
