/-
# `ApiSurface.Proofs.Live.Extended` — what is read off a heap is read off every later one

While a library is tried, objects are put on the heap; those that were there stay as they are, and
the heap is extended (`Extends`).  On a heap whose objects refer to its own objects only (`Closed`)
nothing that is read off one of them leads to an object that came later, so that the properties, the
prototypes and what is looked up along them are the same on an extended heap (`Extends.get_eq`).

The one thing that does change is how far prototypes are followed, since the bound is the number of
objects.  A chain of prototypes that is longer than there are objects has come back to one of them
and has nothing new to show (`exists_chainTo`); so following it farther finds nothing else.
-/
import ApiSurface.Live.Build
import ApiSurface.Proofs.Lookup
import Mathlib.Data.List.Nodup

namespace ApiSurface.Live.Heap

variable {β : Type} {h h' h'' : Heap β}

/-- Every object of a heap is on another one as it is. -/
def Extends (h h' : Heap β) : Prop :=
  ∀ id o, h.obj? id = some o → h'.obj? id = some o

/-- A value that is an object is one of the heap. -/
def Holds (h : Heap β) : Value → Prop
  | .object id => id < h.objects.size
  | _ => True

/-- The objects of a heap refer to objects of the heap only. -/
structure Closed (h : Heap β) : Prop where
  values : ∀ id, ∀ p ∈ h.properties id, ∀ v, p.2.value? = some v → h.Holds v
  prototypes : ∀ id p, h.prototype? id = some p → p < h.objects.size

instance (h : Heap β) (v : Value) : Decidable (h.Holds v) :=
  match v with
  | .object id => inferInstanceAs (Decidable (id < h.objects.size))
  | .undefined | .null | .boolean _ | .number _ | .string _ | .promise _ => .isTrue trivial

theorem closed_iff : h.Closed ↔ ∀ o ∈ h.objects.toList,
    (∀ p ∈ o.properties, ∀ v ∈ p.2.value?, h.Holds v) ∧ ∀ p ∈ o.prototype, p < h.objects.size := by
  constructor
  · intro closed o ho
    obtain ⟨id, hid⟩ := List.mem_iff_getElem?.mp ho
    have hobj : h.obj? id = some o := Array.getElem?_toList.symm.trans hid
    refine ⟨fun p hp v hv => closed.values id p ?_ v hv, fun p hp => closed.prototypes id p ?_⟩
    · rw [properties, hobj]
      exact hp
    · rw [prototype?, hobj]
      exact hp
  · intro hall
    have hmem : ∀ {id o}, h.obj? id = some o → o ∈ h.objects.toList := fun ho =>
      List.mem_of_getElem? (Array.getElem?_toList.trans ho)
    constructor
    · intro id p hp v hv
      rw [properties] at hp
      split at hp
      next o ho => exact (hall o (hmem ho)).1 p hp v hv
      next => exact absurd hp List.not_mem_nil
    · intro id p hp
      obtain ⟨o, ho, hp⟩ := Option.bind_eq_some_iff.mp hp
      exact (hall o (hmem ho)).2 p hp

instance (h : Heap β) : Decidable h.Closed :=
  decidable_of_iff' _ closed_iff

/-! ## Extended heaps -/

theorem exists_obj {id : Nat} (hid : id < h.objects.size) : ∃ o, h.obj? id = some o :=
  ⟨_, Array.getElem?_eq_getElem hid⟩

theorem lt_of_obj? {id : Nat} {o : Obj β} (ho : h.obj? id = some o) : id < h.objects.size :=
  (Array.getElem?_eq_some_iff.mp ho).1

theorem obj?_alloc (h : Heap β) (o : Obj β) : (h.alloc o).2.obj? h.objects.size = some o :=
  Array.getElem?_push_size

theorem size_alloc (h : Heap β) (o : Obj β) : (h.alloc o).2.objects.size = h.objects.size + 1 :=
  Array.size_push o

theorem obj?_modify (h : Heap β) (id : Nat) (f : Obj β → Obj β) (j : Nat) :
    (h.modify id f).obj? j = if id = j then (h.obj? j).map f else h.obj? j :=
  Array.getElem?_modify

theorem obj?_modify_of_ne (h : Heap β) {id j : Nat} (hne : j ≠ id) (f : Obj β → Obj β) :
    (h.modify id f).obj? j = h.obj? j := by
  rw [obj?_modify, if_neg hne.symm]

/-- A change of an object that leaves its prototype as it is. -/
theorem prototype?_modify (h : Heap β) (id : Nat) (f : Obj β → Obj β)
    (hf : ∀ o, (f o).prototype = o.prototype) (j : Nat) :
    (h.modify id f).prototype? j = h.prototype? j := by
  have hobj := h.obj?_modify id f j
  rw [prototype?, prototype?, hobj]
  by_cases hj : id = j
  · rw [if_pos hj]
    cases h.obj? j with
    | none => rfl
    | some o => exact hf o
  · rw [if_neg hj]

theorem prototype?_define (h : Heap β) (id : Nat) (key : String) (p : Property) (j : Nat) :
    (h.define id key p).prototype? j = h.prototype? j :=
  prototype?_modify h id (fun o => { o with properties := Table.insert o.properties key p })
    (fun _ => rfl) j

theorem Holds.mono {v : Value} (hv : h.Holds v) (hle : h.objects.size ≤ h'.objects.size) :
    h'.Holds v := by
  cases v with
  | object id => exact Nat.lt_of_lt_of_le hv hle
  | _ => trivial

namespace Extends

theorem refl (h : Heap β) : h.Extends h :=
  fun _ _ ho => ho

theorem trans (first : h.Extends h') (second : h'.Extends h'') : h.Extends h'' :=
  fun id o ho => second id o (first id o ho)

theorem size_le (ext : h.Extends h') : h.objects.size ≤ h'.objects.size := by
  by_contra hlt
  obtain ⟨o, ho⟩ := exists_obj (h := h) (Nat.lt_of_not_le hlt)
  exact absurd (lt_of_obj? (ext _ _ ho)) (Nat.lt_irrefl _)

/-- An object that is put on the heap is none of those before. -/
theorem alloc (ext : h.Extends h') (o : Obj β) : h.Extends (h'.alloc o).2 := by
  intro id o' ho
  have hid := ext id o' ho
  rw [obj?, Heap.alloc, Array.getElem?_push_lt (lt_of_obj? hid)]
  exact (Array.getElem?_eq_getElem _).symm.trans hid

/-- Only an object that came later is changed. -/
theorem modify (ext : h.Extends h') {id : Nat} (hid : h.objects.size ≤ id) (f : Obj β → Obj β) :
    h.Extends (h'.modify id f) := by
  intro j o ho
  have hlt := lt_of_obj? ho
  rw [h'.obj?_modify_of_ne (by omega)]
  exact ext j o ho

variable (ext : h.Extends h') {id : Nat}

include ext

theorem obj?_eq (hid : id < h.objects.size) : h'.obj? id = h.obj? id := by
  obtain ⟨o, ho⟩ := exists_obj hid
  exact (ext id o ho).trans ho.symm

theorem properties_eq (hid : id < h.objects.size) : h'.properties id = h.properties id := by
  rw [properties, ext.obj?_eq hid, properties]

theorem own?_eq (hid : id < h.objects.size) (key : String) : h'.own? id key = h.own? id key := by
  rw [own?, ext.properties_eq hid, own?]

theorem hasOwn_eq (hid : id < h.objects.size) (key : String) :
    h'.hasOwn id key = h.hasOwn id key := by
  rw [hasOwn, ext.own?_eq hid, hasOwn]

theorem entries_eq (hid : id < h.objects.size) : h'.entries id = h.entries id := by
  rw [entries, ext.properties_eq hid, entries]

theorem prototype?_eq (hid : id < h.objects.size) : h'.prototype? id = h.prototype? id := by
  rw [prototype?, ext.obj?_eq hid, prototype?]

theorem callable?_eq {v : Value} (hv : h.Holds v) : h'.callable? v = h.callable? v := by
  cases v with
  | object id => simp only [callable?, ext.obj?_eq hv]
  | _ => rfl

theorem isCallable_eq {v : Value} (hv : h.Holds v) : h'.isCallable v = h.isCallable v := by
  rw [isCallable, ext.callable?_eq hv, isCallable]

end Extends

theorem holds_of_callable? {v : Value} {c : Callable β} (hc : h.callable? v = some c) :
    h.Holds v := by
  cases v with
  | object id =>
      rw [callable?] at hc
      split at hc
      next o ho => exact lt_of_obj? ho
      next => cases hc
  | _ => trivial

theorem holds_of_isCallable {v : Value} (hv : h.isCallable v = true) : h.Holds v := by
  obtain ⟨c, hc⟩ := Option.isSome_iff_exists.mp hv
  exact holds_of_callable? hc

theorem Closed.holds_entries (closed : h.Closed) {id : Nat} {p : String × Value}
    (hp : p ∈ h.entries id) : h.Holds p.2 := by
  obtain ⟨q, hq, hvalue⟩ := List.mem_filterMap.mp hp
  split at hvalue
  · obtain ⟨v, hv, rfl⟩ := Option.map_eq_some_iff.mp hvalue
    exact closed.values id q hq v hv
  · cases hvalue

/-! ## Chains of prototypes -/

/-- Prototypes that are followed from an object do not leave a set that is closed under them. -/
theorem chainTo_subset {S : List Nat} (hS : ∀ x ∈ S, ∀ p, h.prototype? x = some p → p ∈ S) :
    ∀ n, ∀ id ∈ S, h.chainTo n id ⊆ S := by
  intro n
  induction n with
  | zero => exact fun id _ => List.nil_subset S
  | succ n ih =>
      intro id hid
      rw [chainTo]
      split
      next p hp => exact List.cons_subset.mpr ⟨hS id hid p hp, ih p (hS id hid p hp)⟩
      next => exact List.nil_subset S

theorem mem_seen {seen : List Nat} {id : Nat}
    (hnext : ∀ x ∈ seen, ∀ p, h.prototype? x = some p → p = id ∨ p ∈ seen) (hmem : id ∈ seen)
    {m x : Nat} (hx : x ∈ h.chainTo m id) : x ∈ seen :=
  chainTo_subset (fun y hy p hp => (hnext y hy p hp).elim (fun heq => heq ▸ hmem) fun hp => hp) m id
    hmem hx

/-- Prototypes are followed from `id`, and the objects of `seen` were seen before.  If there are at
most as many objects as steps and objects seen together, whatever comes has been seen or is seen in
those steps. -/
theorem mem_seen_or_chainTo (closed : h.Closed) (n : Nat) : ∀ (seen : List Nat) (id : Nat),
    seen.Nodup → (∀ x ∈ seen, x < h.objects.size) → id < h.objects.size →
      h.objects.size ≤ n + seen.length →
      (∀ x ∈ seen, ∀ p, h.prototype? x = some p → p = id ∨ p ∈ seen) →
      ∀ m, ∀ x ∈ h.chainTo m id, x ∈ seen ∨ x ∈ id :: h.chainTo n id := by
  induction n with
  | zero =>
      intro seen id hnodup hseen hid hsize hnext m x hx
      -- All objects have been seen, so `id` is one of them.
      have hmem : id ∈ seen := by
        by_contra hnew
        have hsubset : id :: seen ⊆ List.range h.objects.size := fun y hy =>
          List.mem_range.mpr ((List.mem_cons.mp hy).elim (fun heq => heq ▸ hid) (hseen y))
        have hle := (List.nodup_cons.mpr ⟨hnew, hnodup⟩).length_le_of_subset hsubset
        rw [List.length_cons, List.length_range] at hle
        omega
      exact .inl (mem_seen hnext hmem hx)
  | succ n ih =>
      intro seen id hnodup hseen hid hsize hnext m x hx
      by_cases hmem : id ∈ seen
      · exact .inl (mem_seen hnext hmem hx)
      · cases m with
        | zero => exact absurd hx List.not_mem_nil
        | succ m =>
            rw [chainTo] at hx ⊢
            cases hp : h.prototype? id with
            | none =>
                rw [hp] at hx
                exact absurd hx List.not_mem_nil
            | some p =>
                rw [hp] at hx
                have hfollows := ih (id :: seen) p (List.nodup_cons.mpr ⟨hmem, hnodup⟩)
                  (List.forall_mem_cons.mpr ⟨hid, hseen⟩) (closed.prototypes id p hp)
                  (by rw [List.length_cons]; omega)
                  (List.forall_mem_cons.mpr ⟨fun q hq => .inl (Option.some.inj (hq.symm.trans hp)),
                    fun y hy q hq => .inr ((hnext y hy q hq).elim
                      (fun heq => heq ▸ List.mem_cons_self) (List.mem_cons_of_mem _))⟩) m
                rcases List.mem_cons.mp hx with rfl | hx
                · exact .inr (List.mem_cons_of_mem _ List.mem_cons_self)
                · rcases hfollows x hx with hbefore | hafter
                  · rcases List.mem_cons.mp hbefore with rfl | hbefore
                    · exact .inr List.mem_cons_self
                    · exact .inl hbefore
                  · exact .inr (List.mem_cons_of_mem _ hafter)

theorem chainTo_prefix (n k : Nat) :
    ∀ id, ∃ rest, h.chainTo (n + k) id = h.chainTo n id ++ rest := by
  induction n with
  | zero => exact fun id => ⟨_, rfl⟩
  | succ n ih =>
      intro id
      rw [Nat.succ_add, chainTo, chainTo]
      split
      next p _ =>
        obtain ⟨rest, hrest⟩ := ih p
        exact ⟨rest, congrArg (p :: ·) hrest⟩
      next => exact ⟨[], rfl⟩

/-- **A chain of prototypes has nothing new to show after as many steps as there are objects.** -/
theorem exists_chainTo (closed : h.Closed) {id n m : Nat} (hid : id < h.objects.size)
    (hn : h.objects.size ≤ n) (hm : n ≤ m) :
    ∃ rest, h.chainTo m id = h.chainTo n id ++ rest ∧ ∀ x ∈ rest, x ∈ id :: h.chainTo n id := by
  obtain ⟨k, rfl⟩ := Nat.exists_eq_add_of_le hm
  obtain ⟨rest, hrest⟩ := h.chainTo_prefix n k id
  refine ⟨rest, hrest, fun x hx => ?_⟩
  have hmem : x ∈ h.chainTo (n + k) id := by
    rw [hrest]
    exact List.mem_append_right _ hx
  refine (mem_seen_or_chainTo closed n [] id List.nodup_nil (by simp) hid (by simpa using hn)
    (by simp) (n + k) x hmem).resolve_left List.not_mem_nil

theorem Closed.lt_of_mem_chainTo (closed : h.Closed) {id n x : Nat} (hid : id < h.objects.size)
    (hx : x ∈ h.chainTo n id) : x < h.objects.size := by
  have hclosed : ∀ y ∈ List.range h.objects.size, ∀ p, h.prototype? y = some p →
      p ∈ List.range h.objects.size := fun y _ p hp => List.mem_range.mpr (closed.prototypes y p hp)
  exact List.mem_range.mp (chainTo_subset hclosed n id (List.mem_range.mpr hid) hx)

/-! ## Looking up -/

/-- What is looked up is the property that the first object of the chain has. -/
theorem lookup_eq (h : Heap β) (key : String) (n : Nat) : ∀ id,
    h.lookup key (n + 1) id =
      (((id :: h.chainTo n id).findSome? (h.own? · key)).bind Property.value?).getD .undefined := by
  induction n with
  | zero =>
      intro id
      rw [lookup, chainTo, List.findSome?_cons]
      cases h.own? id key with
      | some p => rfl
      | none => cases h.prototype? id <;> rfl
  | succ n ih =>
      intro id
      rw [lookup, chainTo, List.findSome?_cons]
      cases h.own? id key with
      | some p => rfl
      | none =>
          cases h.prototype? id with
          | some p => exact ih p
          | none => rfl

/-- A property of its own is what an object has under a name. -/
theorem get_of_own? {id : Nat} {key : String} {p : Property} (hp : h.own? id key = some p) :
    h.get (.object id) key = p.value?.getD .undefined := by
  rw [get, chainFuel, lookup, hp]

/-- **Looking up farther than there are objects finds nothing else.** -/
theorem lookup_eq_of_le (closed : h.Closed) (key : String) {id n m : Nat}
    (hid : id < h.objects.size) (hn : h.objects.size < n) (hm : n ≤ m) :
    h.lookup key m id = h.lookup key n id := by
  obtain ⟨n, rfl⟩ : ∃ k, n = k + 1 := Nat.exists_eq_add_one.mpr (by omega)
  obtain ⟨m, rfl⟩ : ∃ k, m = k + 1 := Nat.exists_eq_add_one.mpr (by omega)
  obtain ⟨rest, hrest, hmem⟩ :=
    exists_chainTo closed hid (Nat.le_of_lt_succ hn) (Nat.le_of_succ_le_succ hm)
  rw [lookup_eq, lookup_eq, hrest, ← List.cons_append, List.findSome?_append]
  cases hfind : (id :: h.chainTo n id).findSome? (h.own? · key) with
  | some p => rfl
  | none =>
      -- Nobody on the chain has the name, and the rest of it is on the chain.
      have hnone := List.findSome?_eq_none_iff.mp hfind
      rw [List.findSome?_eq_none_iff.mpr fun x hx => hnone x (hmem x hx)]
      rfl

theorem Closed.holds_lookup (closed : h.Closed) (key : String) (n : Nat) :
    ∀ id, h.Holds (h.lookup key n id) := by
  induction n with
  | zero => exact fun _ => trivial
  | succ n ih =>
      intro id
      rw [lookup]
      split
      next p hp =>
        cases hvalue : p.value? with
        | some v => exact closed.values id (key, p) (Table.mem_of_find? hp) v hvalue
        | none => trivial
      next =>
        split
        · exact ih _
        · trivial

theorem Closed.holds_get (closed : h.Closed) (v : Value) (key : String) :
    h.Holds (h.get v key) := by
  cases v with
  | object id => exact closed.holds_lookup key _ id
  | _ => trivial

namespace Extends

theorem chainTo_eq (ext : h.Extends h') (closed : h.Closed) (n : Nat) :
    ∀ id, id < h.objects.size → h'.chainTo n id = h.chainTo n id := by
  induction n with
  | zero => exact fun _ _ => rfl
  | succ n ih =>
      intro id hid
      rw [chainTo, chainTo, ext.prototype?_eq hid]
      split
      next p hp => rw [ih p (closed.prototypes id p hp)]
      next => rfl

theorem lookup_eq (ext : h.Extends h') (closed : h.Closed) (key : String) (n : Nat) :
    ∀ id, id < h.objects.size → h'.lookup key n id = h.lookup key n id := by
  induction n with
  | zero => exact fun _ _ => rfl
  | succ n ih =>
      intro id hid
      rw [lookup, lookup, ext.own?_eq hid, ext.prototype?_eq hid]
      split
      · rfl
      · split
        next p hp => exact ih p (closed.prototypes id p hp)
        · rfl

/-- **What an object has under a name, it has on an extended heap.** -/
theorem get_eq (ext : h.Extends h') (closed : h.Closed) {v : Value} (hv : h.Holds v)
    (key : String) : h'.get v key = h.get v key := by
  cases v with
  | object id =>
      have hfuel : h.chainFuel ≤ h'.chainFuel := Nat.succ_le_succ ext.size_le
      exact (ext.lookup_eq closed key _ id hv).trans
        (lookup_eq_of_le closed key hv (Nat.lt_succ_self _) hfuel)
  | _ => rfl

end Extends

end ApiSurface.Live.Heap
