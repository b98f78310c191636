/-
# `ApiSurface.Proofs.Reflect.Accounted` — what a loaded module accounts for

`Growth` says in which steps the schema and the endpoints of a run have grown from the schema that
was given.  `Binding.Accounts` is what a chain of such steps keeps up: an entry is there because it
was given or because it is bound, and the count is that of the entries that are neither given nor
the host's.  Dropping the entries without an endpoint then leaves a schema and a table of endpoints
with the same names.

**Main results** (`reflect_aligned`, `reflect_accounts`): the names, the values and the settings of
a run that succeeds are in line with one another; and every entry that was given is either there as
it was given or listed as dropped, every other one is the host's or counted.

A step binds a name that is in the schema after it, whichever step it is (`Step.exists_bound`).
Only the count and the given entries need a look at the three kinds of steps.
-/
import ApiSurface.Proofs.Reflect.Growth
import ApiSurface.Proofs.Run.Precheck

namespace ApiSurface

/-- Whether a name is neither one that was given nor one of the host. -/
def Schema.isForeign (given : Schema) (name : String) : Bool :=
  !given.has name && !Standard.has name

namespace Schema

theorem has_iff_mem_names {s : Schema} {name : String} : s.has name = true ↔ name ∈ s.names :=
  Table.has_iff

theorem has_insert_eq (s : Schema) (name : String) (e : Entry) (n : String) :
    (s.insert name e).has n = (decide (n = name) || s.has n) :=
  Table.has_insert s.entries name e n

theorem length_filter_names_insert {s : Schema} {name : String} (h : s.has name = false) (e : Entry)
    (p : String → Bool) :
    ((s.insert name e).names.filter p).length = ((name :: s.names).filter p).length :=
  ((Table.keys_insert_perm h e).filter p).length_eq

theorem pairwise_names_lt (s : Schema) : s.names.Pairwise (· < ·) := by
  refine (Table.pairwise_keys s.ascending).imp fun {a b} h => ?_
  exact compareOfLessAndEq_eq_lt.mp h

end Schema

namespace Reflect

open Live

variable {β σ : Type} {live : Value → Prop} {s : Settings} {given : Schema} {b b' : Binding}

/-! ## Bindings -/

/-- What a binding that has grown from a given schema accounts for. -/
structure Binding.Accounts (live : Value → Prop) (s : Settings) (given : Schema) (b : Binding) :
    Prop where
  /-- The schema has what was given and what is bound. -/
  names : ∀ name, b.schema.has name = (given.has name || Table.has b.endpoints name)
  kept : ∀ name e, given.find? name = some e → b.schema.find? name = some e
  allowed : ∀ name ∈ s.skipped, Table.has b.endpoints name = false
  bindable : ∀ name v, Table.find? b.endpoints name = some v → live v
  ascending : Table.Ascending b.endpoints
  counted : b.admitted = (b.schema.names.filter given.isForeign).length
  closed : s.onlyKnown = true → b.admitted = 0

theorem Binding.Step.exists_bound (h : Binding.Step live s b b') :
    ∃ name v, name ∉ s.skipped ∧ live v ∧ b'.endpoints = Table.insert b.endpoints name v ∧
      ∀ n, b'.schema.has n = (decide (n = name) || b.schema.has n) := by
  cases h with
  | @bind name v known allowed bindable =>
      refine ⟨name, v, allowed, bindable, rfl, fun n => ?_⟩
      by_cases hn : n = name
      · rw [hn, known, Bool.or_true]
      · rw [decide_eq_false hn, Bool.false_or]
  | @host name e v _ _ allowed bindable =>
      exact ⟨name, v, allowed, bindable, rfl, b.schema.has_insert_eq name e⟩
  | @add name e v _ _ _ allowed bindable =>
      exact ⟨name, v, allowed, bindable, rfl, b.schema.has_insert_eq name e⟩

namespace Binding.Accounts

theorem start (live : Value → Prop) (s : Settings) (given : Schema) :
    Accounts live s given { schema := given } where
  names _ := (Bool.or_false _).symm
  kept _ _ h := h
  allowed _ _ := rfl
  bindable _ _ h := nomatch h
  ascending := Table.ascending_nil
  counted := by
    refine (List.length_eq_zero_iff.mpr (List.filter_eq_nil_iff.mpr fun name hname => ?_)).symm
    rw [Schema.isForeign, Schema.has_iff_mem_names.mpr hname]
    simp
  closed _ := rfl

theorem given_of_unknown (h : b.Accounts live s given) {name : String}
    (unknown : b.schema.has name = false) : given.has name = false :=
  (Bool.or_eq_false_iff.mp (h.names name ▸ unknown)).1

/-- An entry under a new name leaves those that were given as they are. -/
theorem kept_insert (h : b.Accounts live s given) {name : String}
    (unknown : b.schema.has name = false) (e : Entry) :
    ∀ n e', given.find? n = some e' → (b.schema.insert name e).find? n = some e' := by
  intro n e' hn
  have hne : n ≠ name := by
    rintro rfl
    have hgiven := h.given_of_unknown unknown
    rw [Schema.has, hn] at hgiven
    cases hgiven
  exact (Table.find?_insert_of_ne hne _ _).trans (h.kept n e' hn)

/-- A step keeps the accounts. -/
theorem step (h : b.Accounts live s given) (hstep : b.Step live s b') :
    b'.Accounts live s given := by
  obtain ⟨name, v, hallowed, hlive, hends, hnames⟩ := hstep.exists_bound
  -- The given entries and the count are the only things that the kinds of steps differ in.
  have hschema : (∀ n e, given.find? n = some e → b'.schema.find? n = some e) ∧
      b'.admitted = (b'.schema.names.filter given.isForeign).length ∧
      (s.onlyKnown = true → b'.admitted = 0) := by
    cases hstep with
    | bind => exact ⟨h.kept, h.counted, h.closed⟩
    | @host name e v unknown named =>
        have hforeign : given.isForeign name = false := by
          rw [Schema.isForeign, named, Bool.not_true, Bool.and_false]
        refine ⟨h.kept_insert unknown e, ?_, h.closed⟩
        rw [Schema.length_filter_names_insert unknown, List.filter_cons_of_neg (by simp [hforeign])]
        exact h.counted
    | @add name e v unknown others wanted =>
        have hforeign : given.isForeign name = true := by
          rw [Schema.isForeign, others, h.given_of_unknown unknown]
          rfl
        refine ⟨h.kept_insert unknown e, ?_, fun honly => ?_⟩
        · rw [Schema.length_filter_names_insert unknown, List.filter_cons_of_pos hforeign,
            List.length_cons, ← h.counted]
        · rw [wanted] at honly
          cases honly
  refine ⟨fun n => ?_, hschema.1, fun n hn => ?_, fun n u hu => ?_, ?_, hschema.2.1, hschema.2.2⟩
  · rw [hnames, h.names, hends, Table.has_insert, Bool.or_left_comm]
  · have hne : n ≠ name := fun heq => hallowed (heq ▸ hn)
    rw [hends, Table.has_insert, decide_eq_false hne, Bool.false_or]
    exact h.allowed n hn
  · rw [hends, Table.find?_insert] at hu
    split at hu
    · cases hu
      exact hlive
    · exact h.bindable n u hu
  · rw [hends]
    exact Table.ascending_insert h.ascending name v

theorem of_growth (h : Binding.Growth live s { schema := given } b) : b.Accounts live s given := by
  induction h with
  | refl => exact start live s given
  | tail _ hstep ih => exact ih.step hstep

/-! ## What is left when the entries without an endpoint are dropped -/

theorem has_finish (h : b.Accounts live s given) (name : String) :
    b.finish.schema.has name = Table.has b.endpoints name := by
  have hfilter : b.finish.schema.has name =
      (Table.has b.endpoints name && b.schema.has name) :=
    Table.has_filter b.schema.entries (Table.has b.endpoints) name
  rw [hfilter, h.names]
  cases Table.has b.endpoints name with
  | true => rw [Bool.or_true, Bool.and_true]
  | false => rw [Bool.false_and]

theorem names_finish (h : b.Accounts live s given) :
    b.finish.schema.names = Table.keys b.finish.endpoints :=
  Table.keys_eq_of_has b.finish.schema.ascending h.ascending h.has_finish

theorem dropped_finish (h : b.Accounts live s given) :
    b.finish.dropped = given.names.filter fun name => !Table.has b.endpoints name := by
  let unbound : String → Bool := fun name => !Table.has b.endpoints name
  have hhas : ∀ name, Table.has (b.schema.entries.filter fun p => unbound p.1) name =
      Table.has (given.entries.filter fun p => unbound p.1) name := by
    intro name
    rw [Table.has_filter, Table.has_filter]
    show (unbound name && b.schema.has name) = (unbound name && given.has name)
    rw [h.names]
    simp only [unbound]
    cases Table.has b.endpoints name with
    | true => rfl
    | false => rw [Bool.or_false]
  have hkeys := Table.keys_eq_of_has (Table.ascending_filter b.schema.ascending _)
    (Table.ascending_filter given.ascending _) hhas
  rw [Table.keys_filter, Table.keys_filter] at hkeys
  exact hkeys

/-- None of the entries that are counted is dropped. -/
theorem unbacked_finish (h : b.Accounts live s given) :
    b.finish.unbacked = (b.finish.schema.names.filter given.isForeign).length := by
  have hnames : b.finish.schema.names = b.schema.names.filter (Table.has b.endpoints) :=
    Table.keys_filter b.schema.entries (Table.has b.endpoints)
  rw [hnames, List.filter_filter]
  refine h.counted.trans (congrArg List.length (List.filter_congr fun name hname => ?_))
  cases hforeign : given.isForeign name with
  | false => rfl
  | true =>
      have hgiven : given.has name = false := by
        rw [Schema.isForeign, Bool.and_eq_true, Bool.not_eq_true'] at hforeign
        exact hforeign.1
      have hhas := Schema.has_iff_mem_names.mpr hname
      rw [h.names, hgiven, Bool.false_or] at hhas
      rw [hhas, Bool.and_true]

end Binding.Accounts

/-! ## Loaded modules -/

/-- What a loaded module accounts for, with a schema that was given and settings. -/
structure Loaded.Accounts (s : Settings) (given : Schema) (l : Loaded) : Prop where
  /-- The signature of an entry that was given and is still there has not changed. -/
  unchanged : ∀ name e, given.find? name = some e → l.schema.has name = true →
    l.schema.find? name = some e
  /-- The entries dropped are those that were given and have no endpoint. -/
  dropped : ∀ name, name ∈ l.dropped ↔
    given.has name = true ∧ Table.has l.endpoints name = false
  ascending : l.dropped.Pairwise (· < ·)
  /-- The entries counted are those that are neither given nor the host's. -/
  unbacked : l.unbacked = (l.schema.names.filter given.isForeign).length
  closed : s.onlyKnown = true → l.unbacked = 0 ∧
    ∀ name ∈ l.schema.names, given.has name = true ∨ Standard.has name = true

theorem accounts_finish (h : b.Accounts live s given) : b.finish.Accounts s given where
  unchanged name e hgiven hhas := by
    have hends : Table.has b.endpoints name = true := (h.has_finish name).symm.trans hhas
    have hfind : b.finish.schema.find? name =
        if Table.has b.endpoints name then b.schema.find? name else none :=
      Table.find?_filter b.schema.entries (Table.has b.endpoints) name
    rw [hfind, if_pos hends]
    exact h.kept name e hgiven
  dropped name := by
    rw [h.dropped_finish, List.mem_filter, ← Schema.has_iff_mem_names, Bool.not_eq_true']
    rfl
  ascending := by
    rw [h.dropped_finish]
    exact given.pairwise_names_lt.filter _
  unbacked := h.unbacked_finish
  closed honly := by
    have hnone : b.finish.unbacked = 0 := h.closed honly
    refine ⟨hnone, fun name hname => ?_⟩
    rw [h.unbacked_finish, List.length_eq_zero_iff, List.filter_eq_nil_iff] at hnone
    have hforeign := hnone name hname
    rw [Schema.isForeign, ← Bool.not_or, Bool.not_eq_true, Bool.not_eq_false',
      Bool.or_eq_true] at hforeign
    exact hforeign

variable {lib : Library β σ} {exports : Value} {loaded : Loaded} {w w' : World β σ}

/-- **The schema and the endpoints of a loaded module have the same names**, each endpoint is a
value that can be invoked, and none is one that the settings skip. -/
theorem reflect_aligned (h : reflect lib s given exports w = (.ok loaded, w')) :
    loaded.schema.names = Table.keys loaded.endpoints ∧
      (lib.Keeps → ∀ p ∈ loaded.endpoints, w'.heap.isCallable p.2 = true) ∧
      ∀ name ∈ s.skipped,
        loaded.schema.has name = false ∧ Table.has loaded.endpoints name = false := by
  obtain ⟨b, rfl, hgrowth⟩ := growth_of_reflect h
  have hacc := Binding.Accounts.of_growth hgrowth
  refine ⟨hacc.names_finish, fun hlib p hp => ?_, fun name hname => ?_⟩
  · exact hacc.bindable p.1 p.2 ((Table.find?_eq_some_iff hacc.ascending).mpr hp) hlib
  · exact ⟨(hacc.has_finish name).trans (hacc.allowed name hname), hacc.allowed name hname⟩

/-- **A loaded module accounts for every entry**: it is there as it was given, dropped, the host's
or counted. -/
theorem reflect_accounts (h : reflect lib s given exports w = (.ok loaded, w')) :
    loaded.Accounts s given := by
  obtain ⟨b, rfl, hgrowth⟩ := growth_of_reflect h
  exact accounts_finish (Binding.Accounts.of_growth hgrowth)

/-- What a run gives, read off one part of it. -/
theorem exists_ok_of_map {ε α γ ω : Type} {r : Except ε α × ω} {f : α → γ} {x : γ}
    (h : r.1.toOption.map f = some x) : ∃ a w', r = (.ok a, w') ∧ f a = x := by
  obtain ⟨e | a, w'⟩ := r
  · cases h
  · exact ⟨a, w', rfl, Option.some.inj h⟩

/-! ### A module with a class -/

/-- A module that shows a class, which has a method and a static function, and a plain function. -/
def classModule : World Unit Unit :=
  ⟨{ objects := #[
      { kind := .ordinary,
        properties := [("A", .plain (.object 1)), ("hidden", .plain (.object 5))] },
      { kind := .function ⟨"A", 1, .ofClass, .library ()⟩,
        properties := [("make", .hidden (.object 4)), ("prototype", .hidden (.object 2))] },
      { kind := .ordinary, properties := [("m", .hidden (.object 3))] },
      { kind := .function ⟨"m", 0, .arrow, .library ()⟩ },
      { kind := .function ⟨"make", 0, .arrow, .library ()⟩ },
      { kind := .function ⟨"hidden", 0, .arrow, .library ()⟩ }] }, ()⟩

/-- An entry for the static function, and one that the module has nothing for. -/
def staticAndGone : Schema :=
  (Schema.empty.insert "A.make" (.unknown 2 .free)).insert "gone" (.unknown 0 .free)

/-- Settings that skip the plain function. -/
def skipsHidden : Settings where
  skipped := ["hidden"]

theorem classModule_loads : ∃ loaded w',
    reflect Run.returnsNothing skipsHidden staticAndGone (.object 0) classModule =
        (.ok loaded, w') ∧
      Table.keys loaded.endpoints = ["A", "A.m", "A.make", "ArrayBuffer", "Buffer", "Buffer.from",
        "Duplex", "Error", "RegExp", "SharedArrayBuffer", "Uint8Array"] ∧
      loaded.unbacked = 2 ∧ loaded.dropped = ["gone"] := by
  have hrun : (reflect Run.returnsNothing skipsHidden staticAndGone (.object 0)
      classModule).1.toOption.map (fun l => (Table.keys l.endpoints, l.unbacked, l.dropped)) =
        some (["A", "A.m", "A.make", "ArrayBuffer", "Buffer", "Buffer.from", "Duplex", "Error",
          "RegExp", "SharedArrayBuffer", "Uint8Array"], 2, ["gone"]) := by
    decide +kernel
  obtain ⟨loaded, w', hr, heq⟩ := exists_ok_of_map hrun
  obtain ⟨hkeys, hunbacked, hdropped⟩ : _ ∧ _ ∧ _ := by
    simpa only [Prod.mk.injEq] using heq
  exact ⟨loaded, w', hr, hkeys, hunbacked, hdropped⟩

theorem classModule_aligned : ∃ loaded w',
    reflect Run.returnsNothing skipsHidden staticAndGone (.object 0) classModule =
        (.ok loaded, w') ∧
      "A.m" ∈ Table.keys loaded.endpoints ∧
      loaded.schema.names = Table.keys loaded.endpoints ∧
      (∀ p ∈ loaded.endpoints, w'.heap.isCallable p.2 = true) ∧
      loaded.schema.has "hidden" = false ∧ Table.has loaded.endpoints "hidden" = false := by
  obtain ⟨loaded, w', hr, hkeys, -, -⟩ := classModule_loads
  obtain ⟨hnames, hcallable, hskipped⟩ := reflect_aligned hr
  refine ⟨loaded, w', hr, ?_, hnames, hcallable Run.keeps_returnsNothing,
    hskipped "hidden" List.mem_cons_self⟩
  rw [hkeys]
  decide

theorem classModule_accounts : ∃ loaded w',
    reflect Run.returnsNothing skipsHidden staticAndGone (.object 0) classModule =
        (.ok loaded, w') ∧
      loaded.unbacked = 2 ∧ loaded.dropped = ["gone"] ∧
      loaded.Accounts skipsHidden staticAndGone := by
  obtain ⟨loaded, w', hr, -, hunbacked, hdropped⟩ := classModule_loads
  exact ⟨loaded, w', hr, hunbacked, hdropped, reflect_accounts hr⟩

end Reflect

end ApiSurface
