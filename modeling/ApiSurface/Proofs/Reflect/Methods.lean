/-
# `ApiSurface.Proofs.Reflect.Methods` — the methods of a class are those of the nearest prototypes

Instances of a function inherit from a line of prototypes (`InstanceLine`), and under a name they
have what the first prototype has there that has a callable value of its own (`firstMethod?`).
Binding the methods of a class goes along all of them, keeps the first pair of each name, and binds
what the settings and the schema let it (`MayBind`).

**Main result** (`mapMethods_binds`): if it succeeds, then the endpoint of every name that may be
bound is the value that instances have there, its entry is that of a method, and no other name has
changed, in the endpoints or in the schema.

The names of the pairs that are bound differ, so that what one of them does to its name
(`Binding.Took`) is still there when all are bound.  A name that may not be bound is passed over
with all its values, so it hides nothing and lets nothing show through.
-/
import ApiSurface.Proofs.Live.Lines
import ApiSurface.Proofs.Reflect.Repeats

namespace ApiSurface.Reflect

open Live

variable {β σ α : Type} {h : Heap (Code β)} {s : Settings} {b b' : Binding} {C : String}

/-! ## Where instances find their methods -/

/-- The prototypes that instances of a function inherit from, the nearest first.  The function names
the nearest one, in a property of its own or of one of its own prototypes. -/
inductive InstanceLine (h : Heap β) : Value → List Nat → Prop
  | simple {f : Value} (simple : f.object? = none) : InstanceLine h f []
  | bare {id : Nat} {own : List Nat} (owned : h.Line id own)
      (none : (h.along own Building.prototypeKey).object? = none) : InstanceLine h (.object id) []
  | inherited {id p : Nat} {own line : List Nat} (owned : h.Line id own)
      (found : h.along own Building.prototypeKey = .object p) (instances : h.Line p line) :
      InstanceLine h (.object id) line

/-- The callable value that an object itself has under a name, in a property that holds one. -/
def ownMethod? (h : Heap β) (id : Nat) (m : String) : Option Value :=
  (h.properties id).findSome? fun p =>
    if p.1 = m then p.2.value?.filter h.isCallable else none

/-- What instances have under a name: the method of the first prototype that has one there. -/
def firstMethod? (h : Heap β) (line : List Nat) (m : String) : Option Value :=
  line.findSome? (ownMethod? h · m)

theorem instanceChain_eq {h : Heap β} {f : Value} {line : List Nat} (hl : InstanceLine h f line) :
    instanceChain h f = line := by
  cases hl with
  | simple hf =>
      cases f with
      | object id => cases hf
      | _ => rfl
  | bare own hnone =>
      rw [instanceChain, own.get_eq]
      split
      next p hp => cases (congrArg Value.object? hp).symm.trans hnone
      next => rfl
  | inherited own found instances =>
      rw [instanceChain, own.get_eq, found]
      exact instances.chain_eq

/-! ## The first pair of each name -/

theorem lookup_flatMap {γ : Type} (f : γ → List (String × α)) (l : List γ) (k : String) :
    (l.flatMap f).lookup k = l.findSome? fun x => (f x).lookup k := by
  induction l with
  | nil => rfl
  | cons x l ih =>
      rw [List.flatMap_cons, List.lookup_append, ih, List.findSome?_cons]
      cases (f x).lookup k <;> rfl

theorem lookup_cons_eq (k : String) (p : String × α) (l : List (String × α)) :
    (p :: l).lookup k = if k = p.1 then some p.2 else l.lookup k := by
  by_cases hk : k = p.1
  · rw [if_pos hk, List.lookup_cons, beq_iff_eq.mpr hk]
  · rw [if_neg hk, List.lookup_cons, beq_eq_false_iff_ne.mpr hk]

theorem lookup_filter (q : String → Bool) (l : List (String × α)) (k : String) :
    (l.filter fun p => q p.1).lookup k = if q k then l.lookup k else none := by
  induction l with
  | nil => exact (ite_self _).symm
  | cons p l ih =>
      rw [List.filter_cons, lookup_cons_eq]
      split
      next hp =>
        rw [lookup_cons_eq, ih]
        by_cases hk : k = p.1
        · rw [if_pos hk, if_pos hk, hk, if_pos hp]
        · rw [if_neg hk, if_neg hk]
      next hp =>
        rw [ih]
        by_cases hk : k = p.1
        · rw [hk, if_neg hp, if_neg hp]
        · rw [if_neg hk]

theorem lookup_firstOfEach (l : List (String × α)) (k : String) : ∀ seen : List String,
    (firstOfEach seen l).lookup k = if k ∈ seen then none else l.lookup k := by
  induction l with
  | nil => exact fun seen => (ite_self _).symm
  | cons p l ih =>
      intro seen
      rw [firstOfEach, lookup_cons_eq]
      split
      next hseen =>
        rw [ih]
        by_cases hk : k = p.1
        · rw [hk, if_pos (List.contains_iff_mem.mp hseen), if_pos (List.contains_iff_mem.mp hseen)]
        · rw [if_neg hk]
      next hseen =>
        rw [lookup_cons_eq, ih]
        by_cases hk : k = p.1
        · rw [if_pos hk, if_pos hk, if_neg fun hmem => hseen (hk ▸ List.contains_iff_mem.mpr hmem)]
        · simp only [List.mem_cons, hk, false_or, if_false]

theorem nodup_firstOfEach (l : List (String × α)) : ∀ seen : List String,
    ((firstOfEach seen l).map Prod.fst).Nodup ∧
      ∀ k ∈ (firstOfEach seen l).map Prod.fst, k ∉ seen := by
  induction l with
  | nil => exact fun seen => ⟨List.nodup_nil, fun k hk => absurd hk List.not_mem_nil⟩
  | cons p l ih =>
      intro seen
      rw [firstOfEach]
      split
      · exact ih seen
      next hseen =>
        obtain ⟨hnodup, hnew⟩ := ih (p.1 :: seen)
        rw [List.map_cons, List.nodup_cons, List.forall_mem_cons]
        refine ⟨⟨fun hmem => hnew p.1 hmem List.mem_cons_self, hnodup⟩,
          fun hmem => hseen (List.contains_iff_mem.mpr hmem),
          fun k hk hmem => hnew k hk (List.mem_cons_of_mem _ hmem)⟩

theorem lookup_filterMap {γ : Type} (g : γ → Option (String × α)) (l : List γ) (k : String) :
    (l.filterMap g).lookup k =
      l.findSome? fun x => (g x).bind fun p => if k = p.1 then some p.2 else none := by
  induction l with
  | nil => rfl
  | cons x l ih =>
      rw [List.filterMap_cons, List.findSome?_cons]
      cases g x with
      | none => exact ih
      | some p =>
          rw [lookup_cons_eq, ih, Option.bind_some]
          split <;> rfl

theorem lookup_ownMethods (h : Heap β) (id : Nat) (m : String) :
    (ownMethods h id).lookup m = if Standard.isMember m then none else ownMethod? h id m := by
  rw [ownMethods, lookup_filterMap]
  trans (h.properties id).findSome? fun p =>
    if Standard.isMember m then none
    else if p.1 = m then p.2.value?.filter h.isCallable else none
  · refine congrArg (List.findSome? · (h.properties id)) (funext fun p => ?_)
    cases p.2.value? <;> grind [Option.filter]
  · split
    · exact List.findSome?_eq_none_iff.mpr fun _ _ => rfl
    · rfl

/-- **The methods of instances are looked up along the line of their prototypes**, but for private
ones and those that every object has. -/
theorem lookup_instanceMethods {h : Heap β} {f : Value} {line : List Nat}
    (hl : InstanceLine h f line) (m : String) :
    (instanceMethods h f).lookup m =
      if Text.startsWith m "_" || Standard.isMember m then none else firstMethod? h line m := by
  rw [instanceMethods, instanceChain_eq hl, lookup_firstOfEach, if_neg List.not_mem_nil,
    lookup_filter (fun k => !Text.startsWith k "_"), lookup_flatMap]
  cases Text.startsWith m "_" with
  | true => rfl
  | false =>
      rw [Bool.false_or, firstMethod?]
      simp only [lookup_ownMethods]
      cases Standard.isMember m with
      | true => simp
      | false => rfl

/-! ## Binding methods -/

/-- The settings and the schema let a method of a class be bound: it is none that every object has,
it is not private, its name is not to be skipped, and the schema has it if that is asked for. -/
structure MayBind (s : Settings) (schema : Schema) (C m : String) : Prop where
  special : Standard.isMember m = false
  shown : Text.startsWith m "_" = false
  allowed : C ++ "." ++ m ∉ s.skipped
  known : s.onlyKnown = true → schema.has (C ++ "." ++ m) = true

namespace Binding

/-- A method of a class has been bound.  Its entry was there, or it has been admitted with the class
for the receiver and as many other arguments as the method declares. -/
structure Took (h : Heap (Code β)) (C m : String) (v : Value) (b b' : Binding) : Prop where
  bound : Table.find? b'.endpoints (C ++ "." ++ m) = some v
  entry : ∃ e, b'.schema.find? (C ++ "." ++ m) = some e ∧ e.convention = .method ∧
    (b.schema.find? (C ++ "." ++ m) = some e ∨
      b.schema.find? (C ++ "." ++ m) = none ∧
        ∃ c, h.callable? v = some c ∧ e.args = .ofClass C :: List.replicate c.length .any)

/-- A name has the same entry and the same endpoint as before. -/
structure SameAt (name : String) (b b' : Binding) : Prop where
  entry : b'.schema.find? name = b.schema.find? name
  endpoint : Table.find? b'.endpoints name = Table.find? b.endpoints name

namespace SameAt

variable {name : String} {b'' : Binding}

theorem refl (name : String) (b : Binding) : SameAt name b b :=
  ⟨rfl, rfl⟩

theorem trans (first : SameAt name b b') (second : SameAt name b' b'') : SameAt name b b'' :=
  ⟨second.entry.trans first.entry, second.endpoint.trans first.endpoint⟩

theorem mayBind_iff {m : String} (same : SameAt (C ++ "." ++ m) b b') :
    MayBind s b'.schema C m ↔ MayBind s b.schema C m := by
  have hhas : b'.schema.has (C ++ "." ++ m) = b.schema.has (C ++ "." ++ m) := by
    rw [Schema.has, same.entry, Schema.has]
  exact ⟨fun hm => ⟨hm.special, hm.shown, hm.allowed, fun only => hhas ▸ hm.known only⟩,
    fun hm => ⟨hm.special, hm.shown, hm.allowed, fun only => hhas.symm ▸ hm.known only⟩⟩

end SameAt

namespace Took

variable {m : String} {v : Value} {b'' : Binding}

/-- What a method has bound stays if its name does not change any more. -/
theorem before (took : Took h C m v b b') (same : SameAt (C ++ "." ++ m) b' b'') :
    Took h C m v b b'' := by
  obtain ⟨e, hfind, he⟩ := took.entry
  exact ⟨same.endpoint.trans took.bound, e, same.entry.trans hfind, he⟩

theorem after (same : SameAt (C ++ "." ++ m) b b') (took : Took h C m v b' b'') :
    Took h C m v b b'' := by
  obtain ⟨e, hfind, hmethod, hbefore⟩ := took.entry
  rw [same.entry] at hbefore
  exact ⟨took.bound, e, hfind, hmethod, hbefore⟩

end Took

end Binding

open Binding

theorem Binding.sameAt_bind {name n : String} (hn : n ≠ name) (b : Binding) (v : Value) :
    SameAt n b (b.bind name v) :=
  ⟨rfl, Table.find?_insert_of_ne hn _ _⟩

theorem Binding.sameAt_enter {name n : String} (hn : n ≠ name) (b : Binding) (e : Entry)
    (v : Value) : SameAt n b (b.enter name e v) :=
  ⟨(Schema.find?_insert ..).trans (if_neg hn), Table.find?_insert_of_ne hn _ _⟩

/-- What binding one method comes to, by what the schema and the settings say of its name. -/
theorem mapMethod_eq (s : Settings) (C : String) (m : String × Value) (b : Binding)
    (w : World β σ) :
    mapMethod s C m b w =
      if C ++ "." ++ m.1 ∈ s.skipped then (.ok ((), b), w)
      else match b.schema.find? (C ++ "." ++ m.1) with
        | some e =>
            if e.convention = .method then (.ok ((), b.bind (C ++ "." ++ m.1) m.2), w)
            else (.error ⟨C ++ "." ++ m.1, e.convention⟩, w)
        | none =>
            if s.onlyKnown then (.ok ((), b), w)
            else (.ok ((), b.enter (C ++ "." ++ m.1) (unknownMethod C (arityOf w.heap m.2)) m.2),
              w) := by
  unfold mapMethod
  generalize C ++ "." ++ m.1 = name
  have hread : (Mapping.known? name : Mapping β σ _) b w =
      (.ok ((b.schema.find? name).map Entry.convention, b), w) := rfl
  by_cases hskip : name ∈ s.skipped
  · rw [if_pos (List.contains_iff_mem.mpr hskip), if_pos hskip]
    rfl
  · rw [if_neg fun hmem => hskip (List.contains_iff_mem.mp hmem), if_neg hskip, mapping_bind_eq,
      hread]
    cases b.schema.find? name with
    | some e => cases hconvention : e.convention <;> simp [hconvention] <;> rfl
    | none => cases s.onlyKnown <;> rfl

/-- **One method** is bound if it may be, and changes nothing else. -/
theorem mapMethod_binds {m : String × Value} {w w' : World β σ} {u : Unit}
    (hv : w.heap.isCallable m.2 = true) (special : Standard.isMember m.1 = false)
    (shown : Text.startsWith m.1 "_" = false)
    (hrun : mapMethod s C m b w = (.ok (u, b'), w')) :
    w' = w ∧ (MayBind s b.schema C m.1 → Took w.heap C m.1 m.2 b b') ∧
      ∀ name, (MayBind s b.schema C m.1 → name ≠ C ++ "." ++ m.1) → SameAt name b b' := by
  rw [mapMethod_eq] at hrun
  split at hrun
  next hskip =>
    cases hrun
    exact ⟨rfl, fun hm => absurd hskip hm.allowed, fun name _ => .refl name b⟩
  next hallowed =>
    split at hrun
    next e hfind =>
      split at hrun
      next hmethod =>
        cases hrun
        have hm : MayBind s b.schema C m.1 :=
          ⟨special, shown, hallowed, fun _ => by rw [Schema.has, hfind, Option.isSome_some]⟩
        exact ⟨rfl, fun _ => ⟨Table.find?_insert_self _ _ _, e, hfind, hmethod, .inl hfind⟩,
          fun name hname => sameAt_bind (hname hm) b m.2⟩
      next => cases hrun
    next hnone =>
      split at hrun
      next only =>
        cases hrun
        refine ⟨rfl, fun hm => ?_, fun name _ => .refl name b⟩
        have hhas := hm.known only
        rw [Schema.has, hnone] at hhas
        cases hhas
      next wanted =>
        cases hrun
        obtain ⟨c, hc⟩ := Option.isSome_iff_exists.mp hv
        have hm : MayBind s b.schema C m.1 :=
          ⟨special, shown, hallowed, fun only => absurd only wanted⟩
        refine ⟨rfl, fun _ => ⟨Table.find?_insert_self _ _ _, _, Table.find?_insert_self _ _ _, rfl,
          .inr ⟨hnone, c, hc, ?_⟩⟩, fun name hname => sameAt_enter (hname hm) b _ m.2⟩
        rw [unknownMethod, arityOf, hc]

/-- **All methods of a list** are bound that may be, if no two have one name, and nothing else is
changed. -/
theorem mapMethods_list_binds {l : List (String × Value)} {w w' : World β σ} {u : Unit}
    (hl : ∀ p ∈ l, w.heap.isCallable p.2 = true ∧ Standard.isMember p.1 = false ∧
      Text.startsWith p.1 "_" = false) (distinct : (l.map Prod.fst).Nodup) :
    ∀ {b : Binding}, l.forM (mapMethod s C) b w = (.ok (u, b'), w') →
      w' = w ∧ (∀ p ∈ l, MayBind s b.schema C p.1 → Took w.heap C p.1 p.2 b b') ∧
        ∀ name, (∀ p ∈ l, MayBind s b.schema C p.1 → name ≠ C ++ "." ++ p.1) →
          SameAt name b b' := by
  induction l with
  | nil =>
      intro b hrun
      cases hrun
      exact ⟨rfl, fun p hp => absurd hp List.not_mem_nil, fun name _ => .refl name b'⟩
  | cons p l ih =>
      intro b hrun
      obtain ⟨⟨hv, special, shown⟩, hl⟩ := List.forall_mem_cons.mp hl
      obtain ⟨hnew, distinct⟩ := List.nodup_cons.mp distinct
      change (mapMethod s C p >>= fun _ => l.forM (mapMethod s C)) b w = _ at hrun
      rw [mapping_bind_eq] at hrun
      split at hrun
      next u₁ b₁ w₁ hfirst =>
        obtain ⟨rfl, htook, hsame⟩ := mapMethod_binds hv special shown hfirst
        obtain ⟨rfl, htooks, hsames⟩ := ih hl distinct hrun
        -- The other methods have other names.
        have hother : ∀ q ∈ l, C ++ "." ++ q.1 ≠ C ++ "." ++ p.1 := by
          intro q hq heq
          have hname : q.1 = p.1 := by simpa using heq
          exact hnew (hname ▸ List.mem_map_of_mem hq)
        refine ⟨rfl, List.forall_mem_cons.mpr ⟨fun hp => ?_, fun q hq hmay => ?_⟩,
          fun name hname => ?_⟩
        · exact (htook hp).before (hsames _ fun q hq _ => (hother q hq).symm)
        · have hq₁ := hsame _ fun _ => hother q hq
          exact .after hq₁ (htooks q hq (hq₁.mayBind_iff.mpr hmay))
        · obtain ⟨hfirst, hrest⟩ := List.forall_mem_cons.mp hname
          refine (hsame name hfirst).trans (hsames name fun q hq hmay => hrest q hq ?_)
          exact (hsame _ fun _ => hother q hq).mayBind_iff.mp hmay
      next => cases hrun

theorem mem_iff_lookup_eq_some {l : List (String × α)} (distinct : (l.map Prod.fst).Nodup)
    {p : String × α} : p ∈ l ↔ l.lookup p.1 = some p.2 := by
  induction l with
  | nil => exact iff_of_false List.not_mem_nil fun hsome => Option.some_ne_none _ hsome.symm
  | cons q l ih =>
      obtain ⟨hnew, distinct⟩ := List.nodup_cons.mp distinct
      rw [List.mem_cons, lookup_cons_eq, ih distinct]
      split
      next hname =>
        have hnone : l.lookup p.1 ≠ some p.2 := fun hsome =>
          hnew (hname ▸ List.mem_map_of_mem ((ih distinct).mpr hsome))
        rw [or_iff_left hnone, Option.some.injEq, Prod.ext_iff, eq_comm (a := q.2)]
        exact and_iff_right hname
      next hname => exact or_iff_right fun heq => hname (congrArg Prod.fst heq)

/-- The pairs that are bound are what instances have, and no two have one name. -/
theorem mem_instanceMethods_iff {f : Value} {line : List Nat} (hl : InstanceLine h f line)
    {m : String} {v : Value} :
    (m, v) ∈ instanceMethods h f ↔
      Text.startsWith m "_" = false ∧ Standard.isMember m = false ∧
        firstMethod? h line m = some v := by
  have distinct : ((instanceMethods h f).map Prod.fst).Nodup := (nodup_firstOfEach _ []).1
  rw [mem_iff_lookup_eq_some distinct, lookup_instanceMethods hl]
  cases Text.startsWith m "_" with
  | true => simp
  | false => cases Standard.isMember m <;> simp

/-- **The nearest prototype wins.**  If the methods of a class are bound without a clash and the
prototypes of its instances come to an end, then a name that may be bound has for its endpoint the
method of the first prototype that has one, and the entry of a method; and no other name has
changed. -/
theorem mapMethods_binds {f : Value} {line : List Nat} {w w' : World β σ} {u : Unit}
    (hl : InstanceLine w.heap f line) (hrun : mapMethods s C f b w = (.ok (u, b'), w')) :
    (∀ m v, MayBind s b.schema C m → firstMethod? w.heap line m = some v →
        Took w.heap C m v b b') ∧
      ∀ name, (∀ m v, MayBind s b.schema C m → firstMethod? w.heap line m = some v →
        name ≠ C ++ "." ++ m) → SameAt name b b' := by
  have distinct : ((instanceMethods w.heap f).map Prod.fst).Nodup := (nodup_firstOfEach _ []).1
  have hall : ∀ p ∈ instanceMethods w.heap f, w.heap.isCallable p.2 = true ∧
      Standard.isMember p.1 = false ∧ Text.startsWith p.1 "_" = false := by
    intro p hp
    obtain ⟨shown, special, -⟩ := (mem_instanceMethods_iff hl).mp hp
    exact ⟨isCallable_of_mem_instanceMethods hp, special, shown⟩
  obtain ⟨-, htook, hsame⟩ := mapMethods_list_binds hall distinct hrun
  constructor
  · intro m v hm hv
    exact htook (m, v) ((mem_instanceMethods_iff hl).mpr ⟨hm.shown, hm.special, hv⟩) hm
  · intro name hname
    refine hsame name fun p hp hm => hname p.1 p.2 hm ?_
    exact ((mem_instanceMethods_iff hl).mp hp).2.2

/-- A class whose instances inherit from two prototypes that both have a method `push`. -/
def derivedClass : World Unit Unit :=
  ⟨{ objects := #[
      { kind := .function ⟨"Deflate", 0, .ofClass, .library ()⟩,
        properties := [("prototype", .hidden (.object 1))] },
      { kind := .ordinary, properties := [("push", .hidden (.object 3))], prototype := some 2 },
      { kind := .ordinary,
        properties := [("end", .hidden (.object 4)), ("push", .hidden (.object 5))] },
      { kind := .function ⟨"push", 2, .arrow, .library ()⟩ },
      { kind := .function ⟨"end", 0, .arrow, .library ()⟩ },
      { kind := .function ⟨"push", 1, .arrow, .library ()⟩ }] }, ()⟩

theorem mapMethods_derivedClass : ∃ b' w',
    InstanceLine derivedClass.heap (.object 0) [1, 2] ∧
      mapMethods {} "Deflate" (.object 0) { schema := .empty } derivedClass =
          (.ok ((), b'), w') ∧
        Took derivedClass.heap "Deflate" "push" (.object 3) { schema := .empty } b' ∧
          Took derivedClass.heap "Deflate" "end" (.object 4) { schema := .empty } b' := by
  have hline : InstanceLine derivedClass.heap (.object 0) [1, 2] :=
    .inherited (.last rfl) rfl (.next rfl (.last rfl))
  obtain ⟨b', w', hrun⟩ : ∃ b' w', mapMethods {} "Deflate" (.object 0) { schema := .empty }
      derivedClass = (.ok ((), b'), w') := ⟨_, _, rfl⟩
  have hmay : ∀ m, Standard.isMember m = false → Text.startsWith m "_" = false →
      MayBind {} .empty "Deflate" m := fun m special shown =>
    ⟨special, shown, List.not_mem_nil, fun only => Bool.noConfusion only⟩
  obtain ⟨hbinds, -⟩ := mapMethods_binds hline hrun
  exact ⟨b', w', hline, hrun, hbinds "push" _ (hmay _ (by decide) (by decide)) rfl,
    hbinds "end" _ (hmay _ (by decide) (by decide)) rfl⟩

end ApiSurface.Reflect
