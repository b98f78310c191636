/-
# `ApiSurface.Proofs.Schema.Consistent` — what the check of a schema asks for

The check goes through the entries one by one and through a guess part by part, and reports what it
finds with its place.  Here is said what it asks for without a walk and without a report
(`Schema.Consistent`): every part that a value may have is backed, every class that is listed has a
constructor, and methods and constructors are certain of their class.

**Main result** (`violations_eq_nil_iff_consistent`): nothing is reported exactly when that holds.

No condition on the guesses is needed, in contrast to `violations_eq_nil_iff`, which reads the
verdict off the names once the guesses are known to be sound.
-/
import ApiSurface.Proofs.Schema.Names

namespace ApiSurface

namespace Guess

/-- The guess is the other one or nested in it, behind mass on the kinds of objects and arrays. -/
inductive Part (part : Guess) : Guess → Prop
  | self : Part part part
  | field {mass : List (Kind × Float)} {fields : List (String × Guess)} {items : Option Guess}
      {classes : Option (List (String × Float))} {key : String} {g : Guess}
      (possible : massIn mass .object > 0) (listed : (key, g) ∈ fields) (inside : Part part g) :
      Part part (.known mass (some fields) items classes)
  | item {mass : List (Kind × Float)} {shape : Option (List (String × Guess))} {g : Guess}
      {classes : Option (List (String × Float))}
      (possible : massIn mass .array > 0) (inside : Part part g) :
      Part part (.known mass shape (some g) classes)

/-- Positive mass on a kind with parts comes with what is known about them, and the classes that are
listed are of the set.  Nothing is said of the guesses nested in this one. -/
inductive Supported (S : String → Prop) : Guess → Prop
  | any : Supported S .any
  | known {mass : List (Kind × Float)} {shape : Option (List (String × Guess))}
      {items : Option Guess} {classes : Option (List (String × Float))}
      (shaped : massIn mass .object > 0 → ∃ fields, shape = some fields)
      (itemed : massIn mass .array > 0 → ∃ item, items = some item)
      (classed : massIn mass .ofClass > 0 → ∃ listed, classes = some listed ∧ ∀ p ∈ listed, S p.1) :
      Supported S (.known mass shape items classes)

/-- The mass on instances is one, and so is that of the class among them. -/
def CertainlyOf (name : String) (g : Guess) : Prop :=
  ∃ mass shape items classes x, g = .known mass shape items (some classes) ∧
    (massIn mass .ofClass == 1) = true ∧ Table.find? classes name = some x ∧ (x == 1) = true

end Guess

/-- An entry has the class as its constructor in the schema. -/
def Schema.Constructs (s : Schema) (name : String) : Prop :=
  ∃ e, s.find? name = some e ∧ e.convention = .constructor

/-- What has to hold of a schema before it is used. -/
structure Schema.Consistent (s : Schema) : Prop where
  parts : ∀ name e, s.find? name = some e → ∀ g, g ∈ e.args ∨ g = e.ret →
    ∀ part : Guess, part.Part g → part.Supported s.Constructs
  /-- The owner is what stands before the last dot of the name. -/
  receivers : ∀ name e, s.find? name = some e → e.convention = .method →
    ∃ owner member, name = owner ++ "." ++ member ∧ '.' ∉ member.toList ∧
      ∃ g rest, e.args = g :: rest ∧ g.CertainlyOf owner
  results : ∀ name e, s.find? name = some e → e.convention = .constructor →
    e.ret.CertainlyOf name

namespace Schema

open Guess

variable {s : Schema}

theorem hasConstructor_iff_constructs {c : String} :
    s.hasConstructor c = true ↔ s.Constructs c := by
  unfold hasConstructor Constructs
  cases s.find? c with
  | none => simp
  | some e => simp

/-! ## Guesses -/

/-- A property of all parts, read off the outermost one. -/
theorem forall_part_iff {P : Guess → Prop} {mass : List (Kind × Float)}
    {shape : Option (List (String × Guess))} {items : Option Guess}
    {classes : Option (List (String × Float))} :
    (∀ part : Guess, part.Part (.known mass shape items classes) → P part) ↔
      P (.known mass shape items classes) ∧
        (massIn mass .object > 0 → ∀ fields, shape = some fields →
          ∀ p ∈ fields, ∀ part : Guess, part.Part p.2 → P part) ∧
        (massIn mass .array > 0 → ∀ item, items = some item →
          ∀ part : Guess, part.Part item → P part) := by
  constructor
  · intro h
    refine ⟨h _ .self, ?_, ?_⟩
    · rintro possible fields rfl p hp part hpart
      exact h part (.field possible hp hpart)
    · rintro possible item rfl part hpart
      exact h part (.item possible hpart)
  · rintro ⟨hself, hfields, hitem⟩ part hpart
    cases hpart with
    | self => exact hself
    | field possible listed inside => exact hfields possible _ rfl _ listed part inside
    | item possible inside => exact hitem possible _ rfl part inside

theorem classProblems_eq_nil_iff_exists {classes : Option (List (String × Float))} (path : String) :
    classProblems s path classes = [] ↔
      ∃ listed, classes = some listed ∧ ∀ p ∈ listed, s.Constructs p.1 := by
  cases classes with
  | none => simp [classProblems]
  | some listed =>
      simp only [classProblems_eq_nil_iff, hasConstructor_iff_constructs, Option.some.injEq,
        exists_eq_left']

mutual

/-- The check finds nothing in a guess exactly when all its parts are supported. -/
theorem guessProblems_eq_nil_iff_parts : ∀ (g : Guess) (path : String),
    guessProblems s path g = [] ↔ ∀ part : Guess, part.Part g → part.Supported s.Constructs
  | .any, path => by
      rw [guessProblems.eq_def]
      refine iff_of_true rfl fun part hpart => ?_
      cases hpart
      exact .any
  | .known mass shape items classes, path => by
      rw [guessProblems, List.append_eq_nil_iff, List.append_eq_nil_iff, ite_eq_right_iff,
        ite_eq_right_iff, ite_eq_right_iff, shapeProblems_eq_nil_iff_parts shape path,
        itemsProblems_eq_nil_iff_parts items path, classProblems_eq_nil_iff_exists,
        forall_part_iff]
      constructor
      · rintro ⟨⟨hshape, hitems⟩, hclasses⟩
        refine ⟨.known (fun possible => ?_) (fun possible => ?_) hclasses, ?_, ?_⟩
        · exact (hshape possible).imp fun _ => And.left
        · exact (hitems possible).imp fun _ => And.left
        · rintro possible fields rfl
          obtain ⟨_, ⟨⟩, hfields⟩ := hshape possible
          exact hfields
        · rintro possible item rfl
          obtain ⟨_, ⟨⟩, hitem⟩ := hitems possible
          exact hitem
      · rintro ⟨hself, hfields, hitem⟩
        cases hself with
        | known shaped itemed classed =>
            refine ⟨⟨fun possible => ?_, fun possible => ?_⟩, classed⟩
            · obtain ⟨fields, hshape⟩ := shaped possible
              exact ⟨fields, hshape, hfields possible fields hshape⟩
            · obtain ⟨item, hitems⟩ := itemed possible
              exact ⟨item, hitems, hitem possible item hitems⟩

theorem shapeProblems_eq_nil_iff_parts : ∀ (shape : Option (List (String × Guess))) (path : String),
    shapeProblems s path shape = [] ↔ ∃ fields, shape = some fields ∧
      ∀ p ∈ fields, ∀ part : Guess, part.Part p.2 → part.Supported s.Constructs
  | none, path => by simp [shapeProblems]
  | some fields, path => by
      rw [shapeProblems, fieldProblems_eq_nil_iff_parts fields path]
      simp only [Option.some.injEq, exists_eq_left']

theorem fieldProblems_eq_nil_iff_parts : ∀ (fields : List (String × Guess)) (path : String),
    fieldProblems s path fields = [] ↔
      ∀ p ∈ fields, ∀ part : Guess, part.Part p.2 → part.Supported s.Constructs
  | [], path => by simp [fieldProblems]
  | (key, g) :: fields, path => by
      rw [fieldProblems, List.append_eq_nil_iff, guessProblems_eq_nil_iff_parts g,
        fieldProblems_eq_nil_iff_parts fields, List.forall_mem_cons]

theorem itemsProblems_eq_nil_iff_parts : ∀ (items : Option Guess) (path : String),
    itemsProblems s path items = [] ↔ ∃ item, items = some item ∧
      ∀ part : Guess, part.Part item → part.Supported s.Constructs
  | none, path => by simp [itemsProblems]
  | some item, path => by
      rw [itemsProblems, guessProblems_eq_nil_iff_parts item]
      simp only [Option.some.injEq, exists_eq_left']

end

theorem argProblems_eq_nil_iff_parts (args : List Guess) : ∀ i, argProblems s i args = [] ↔
    ∀ g ∈ args, ∀ part : Guess, part.Part g → part.Supported s.Constructs := by
  induction args with
  | nil => simp [argProblems]
  | cons g args ih =>
      intro i
      rw [argProblems, List.append_eq_nil_iff, guessProblems_eq_nil_iff_parts g, ih,
        List.forall_mem_cons]

/-! ## Conventions -/

/-- The owner that is read off a name stands before its last dot. -/
theorem owner?_eq_some_iff {name owner : String} : Text.owner? name = some owner ↔
    ∃ member, name = owner ++ "." ++ member ∧ '.' ∉ member.toList := by
  constructor
  · intro h
    obtain ⟨⟨a, b⟩, hsplit, heq⟩ := Option.map_eq_some_iff.mp h
    obtain ⟨hname, hb⟩ := splitLast_spec hsplit
    refine ⟨String.ofList b, String.toList_injective ?_, by rwa [String.toList_ofList]⟩
    simp [hname, ← heq]
  · rintro ⟨member, rfl, hmember⟩
    exact (owner?_eq_iff owner member).mpr hmember

theorem certainlyOf_iff {name : String} {g : Guess} :
    certainlyOf name g = true ↔ g.CertainlyOf name := by
  constructor
  · intro h
    unfold certainlyOf at h
    split at h
    next mass shape items classes =>
      obtain ⟨hmass, hclass⟩ := Bool.and_eq_true_iff.mp h
      obtain ⟨x, hx, hone⟩ := (Option.any_eq_true _ _).mp hclass
      exact ⟨mass, shape, items, classes, x, rfl, hmass, hx, hone⟩
    next => cases h
  · rintro ⟨mass, shape, items, classes, x, rfl, hmass, hx, hone⟩
    rw [certainlyOf, hmass, hx]
    exact hone

theorem any_certainlyOf_iff {owner : String} {args : List Guess} :
    args.head?.any (certainlyOf owner) = true ↔
      ∃ g rest, args = g :: rest ∧ g.CertainlyOf owner := by
  cases args with
  | nil => simp
  | cons g rest => simp [certainlyOf_iff]

theorem conventionProblems_eq_nil_iff_certain (name : String) (e : Entry) :
    conventionProblems name e = [] ↔
      (e.convention = .method → ∃ owner member, name = owner ++ "." ++ member ∧
        '.' ∉ member.toList ∧ ∃ g rest, e.args = g :: rest ∧ g.CertainlyOf owner) ∧
      (e.convention = .constructor → e.ret.CertainlyOf name) := by
  rw [conventionProblems]
  cases e.convention with
  | free => simp
  | constructor => simp [certainlyOf_iff]
  | method =>
      have hother : Convention.method = .constructor → e.ret.CertainlyOf name := fun hno =>
        Convention.noConfusion hno
      rw [forall_prop_of_true rfl, and_iff_left hother]
      cases howner : Text.owner? name with
      | none =>
          refine iff_of_false (List.cons_ne_nil _ _) ?_
          rintro ⟨owner, member, hname, hmember, -⟩
          cases howner.symm.trans (owner?_eq_some_iff.mpr ⟨member, hname, hmember⟩)
      | some owner =>
          obtain ⟨member, hname, hmember⟩ := owner?_eq_some_iff.mp howner
          have hcertain : (if e.args.head?.any (certainlyOf owner) then []
              else [(".args[0]", Problem.wrongReceiver owner)]) = [] ↔
                ∃ g rest, e.args = g :: rest ∧ g.CertainlyOf owner := by
            rw [← any_certainlyOf_iff]
            simp
          refine hcertain.trans ⟨fun h => ⟨owner, member, hname, hmember, h⟩, ?_⟩
          rintro ⟨owner', member', hname', hmember', h⟩
          have howner' := owner?_eq_some_iff.mpr ⟨member', hname', hmember'⟩
          obtain rfl : owner' = owner := Option.some.inj (howner'.symm.trans howner)
          exact h

/-- **Nothing is reported of a schema exactly when it is consistent.** -/
theorem violations_eq_nil_iff_consistent (s : Schema) : s.violations = [] ↔ s.Consistent := by
  have hentry : ∀ name e, entryProblems s name e = [] ↔
      (∀ g, g ∈ e.args ∨ g = e.ret → ∀ part : Guess, part.Part g → part.Supported s.Constructs) ∧
        conventionProblems name e = [] := by
    intro name e
    rw [entryProblems, List.append_eq_nil_iff, List.append_eq_nil_iff,
      argProblems_eq_nil_iff_parts, guessProblems_eq_nil_iff_parts]
    simp only [or_imp, forall_and, forall_eq]
  simp only [violations_eq_nil_iff_entries, hentry, conventionProblems_eq_nil_iff_certain]
  constructor
  · intro h
    exact ⟨fun name e he => (h name e he).1, fun name e he => (h name e he).2.1,
      fun name e he => (h name e he).2.2⟩
  · intro h name e he
    exact ⟨h.parts name e he, h.receivers name e he, h.results name e he⟩

end Schema

end ApiSurface
