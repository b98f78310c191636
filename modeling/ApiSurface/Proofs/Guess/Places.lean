/-
# `ApiSurface.Proofs.Guess.Places` — the union at every depth

A place inside a guess is a list of steps, each to a property of an object or to the items of an
array.  What the union says at a place is the union of what its operands say there, where an operand
whose shape lacks the last key of the way says that the value is undefined (`at?_union`).  So
whatever holds of a union because of its operands holds at every place, because of what the operands
say at that place; no induction on guesses is needed beyond the one along the way.

Of one union there are four things to say.  It stores no zero, and a part only beside a mass on the
kind that the part belongs to, because that is how the parts are made (`tidy_union`).  The rest
depends on masses not being negative: a mean is zero if no mass behind it is positive, so that the
kinds and the classes of a union come from its operands (`exists_kinds_of_union`,
`exists_names_of_union`), and with a kind comes the part that belongs to it (`backed_union`).
-/
import ApiSurface.Proofs.Decimal.Sums
import ApiSurface.Proofs.Guess.Recursion

namespace ApiSurface.Guess

open Decimal

/-! ## Places -/

/-- A step from a guess to one that is nested in it. -/
inductive Step where
  | property (key : String)
  | items

/-- The guess that a step leads to. -/
def child? : Guess → Step → Option Guess
  | .any, _ => none
  | .known _ shape _ _, .property key => shape.bind fun fields => Table.find? fields key
  | .known _ _ items _, .items => items

/-- The guess at a place. -/
def at? (g : Guess) : List Step → Option Guess
  | [] => some g
  | s :: path => (child? g s).bind fun g' => at? g' path

/-- The guess has a shape just before the end of the way, and it lacks the key that comes last. -/
inductive Lacks : Guess → List Step → Prop
  | here {mass : List (Kind × Float)} {fields : List (String × Guess)} {items : Option Guess}
      {classes : Option (List (String × Float))} {key : String}
      (missing : Table.find? fields key = none) :
      Lacks (.known mass (some fields) items classes) [.property key]
  | there {g g' : Guess} {s : Step} {path : List Step} (step : child? g s = some g')
      (rest : Lacks g' path) : Lacks g (s :: path)

/-- The property holds of the guess and of all that is nested in it. -/
def Everywhere (P : Guess → Prop) (g : Guess) : Prop :=
  ∀ path h, at? g path = some h → P h

variable {P : Guess → Prop}

theorem Everywhere.self {g : Guess} (h : g.Everywhere P) : P g :=
  h [] g rfl

theorem Everywhere.child {g g' : Guess} (h : g.Everywhere P) {s : Step}
    (hs : child? g s = some g') : g'.Everywhere P := by
  intro path g'' hg''
  refine h (s :: path) g'' ?_
  rw [at?, hs]
  exact hg''

theorem Everywhere.of_children {g : Guess} (self : P g)
    (children : ∀ s g', child? g s = some g' → g'.Everywhere P) : g.Everywhere P := by
  intro path h hat
  cases path with
  | nil => exact Option.some.inj hat ▸ self
  | cons s path =>
      obtain ⟨g', hs, hat⟩ := Option.bind_eq_some_iff.mp hat
      exact children s g' hs path h hat

/-- A guess without shape and items has nothing nested in it. -/
theorem everywhere_leaf {mass : List (Kind × Float)} {classes : Option (List (String × Float))}
    (self : P (.known mass none none classes)) : Everywhere P (.known mass none none classes) := by
  refine .of_children self fun s g' hs => ?_
  cases s <;> cases hs

theorem everywhere_object {fields : List (String × Guess)} (self : P (object fields))
    (inside : ∀ p ∈ fields, p.2.Everywhere P) : (object fields).Everywhere P := by
  refine .of_children self fun s g' hs => ?_
  cases s with
  | property key => exact inside (key, g') (Table.mem_of_find? hs)
  | items => cases hs

theorem everywhere_array {item : Guess} (self : P (array item)) (inside : item.Everywhere P) :
    (array item).Everywhere P := by
  refine .of_children self fun s g' hs => ?_
  cases s with
  | property key => cases hs
  | items =>
      cases hs
      exact inside

/-! ## What the operands say -/

/-- What the guesses say one step further, with undefined for what a shape lacks. -/
def oneStep (gs : List Guess) : Step → List Guess
  | .property key => propertyGuesses (givenShapes gs) key
  | .items => givenItems gs

theorem mem_oneStep {gs : List Guess} {s : Step} {g' : Guess} :
    g' ∈ oneStep gs s ↔ (∃ g ∈ gs, child? g s = some g') ∨
      g' = undefined ∧ ∃ g ∈ gs, Lacks g [s] := by
  cases s with
  | property key =>
      rw [oneStep, propertyGuesses, List.mem_map]
      constructor
      · rintro ⟨fields, hfields, rfl⟩
        obtain ⟨mass, items, classes, hg⟩ := mem_givenShapes.mp hfields
        cases hfind : Table.find? fields key with
        | none => exact Or.inr ⟨rfl, _, hg, .here hfind⟩
        | some g' => exact Or.inl ⟨_, hg, hfind⟩
      · rintro (⟨g, hg, hchild⟩ | ⟨rfl, g, hg, hlacks⟩)
        · cases g with
          | any => cases hchild
          | known mass shape items classes =>
              obtain ⟨fields, rfl, hfind⟩ := Option.bind_eq_some_iff.mp hchild
              refine ⟨fields, mem_givenShapes.mpr ⟨_, _, _, hg⟩, ?_⟩
              rw [hfind, Option.getD_some]
        · cases hlacks with
          | here hmissing =>
              refine ⟨_, mem_givenShapes.mpr ⟨_, _, _, hg⟩, ?_⟩
              rw [hmissing, Option.getD_none]
          | there _ hrest => cases hrest
  | items =>
      rw [oneStep, mem_givenItems]
      constructor
      · rintro ⟨mass, shape, classes, hg⟩
        exact Or.inl ⟨_, hg, rfl⟩
      · rintro (⟨g, hg, hchild⟩ | ⟨rfl, g, hg, hlacks⟩)
        · cases g with
          | any => cases hchild
          | known mass shape items classes =>
              obtain rfl : items = some g' := hchild
              exact ⟨_, _, _, hg⟩
        · cases hlacks with
          | there _ hrest => cases hrest

/-- **One step into a union** is the union of what lies one step into its operands. -/
theorem child?_union {gs : List Guess} {s : Step} {u : Guess} (h : child? (union gs) s = some u) :
    oneStep gs s ≠ [] ∧ u = union (oneStep gs s) := by
  by_cases hunknown : gs = [] ∨ .any ∈ gs
  · rw [union_eq_any hunknown] at h
    cases h
  · obtain ⟨hne, hknown⟩ := not_or.mp hunknown
    rw [union_eq_known hne hknown] at h
    cases s with
    | property key =>
        obtain ⟨fields, hkept, hfind⟩ := Option.bind_eq_some_iff.mp h
        have hfields := eq_of_keptIf hkept
        rw [← hfields] at hfind
        obtain ⟨key', -, heq⟩ := List.mem_map.mp (Table.mem_of_find? hfind)
        cases heq
        exact ⟨fun hnil => ne_nil_of_keptIf hkept (List.map_eq_nil_iff.mp hnil), rfl⟩
    | items => exact ⟨ne_nil_of_keptIf h, (eq_of_keptIf h).symm⟩

theorem at?_undefined_iff {path : List Step} {h : Guess} :
    at? undefined path = some h ↔ path = [] ∧ h = undefined := by
  cases path with
  | nil => simp [at?, eq_comm]
  | cons s path => cases s <;> simp [at?, undefined, ofKind, child?]

theorem not_lacks_undefined (path : List Step) : ¬ Lacks undefined path := by
  intro h
  cases h with
  | @there _ _ s _ step => cases s <;> cases step

theorem lacks_cons_iff {g : Guess} {s : Step} {path : List Step} :
    Lacks g (s :: path) ↔
      path = [] ∧ Lacks g [s] ∨ ∃ g', child? g s = some g' ∧ Lacks g' path := by
  constructor
  · intro h
    cases h with
    | here missing => exact Or.inl ⟨rfl, .here missing⟩
    | there step rest => exact Or.inr ⟨_, step, rest⟩
  · rintro (⟨rfl, h⟩ | ⟨g', step, rest⟩)
    · exact h
    · exact .there step rest

/-- **The union at a place is the union of what its operands say there**: their own guesses, and
undefined for a key that a shape lacks. -/
theorem at?_union {gs : List Guess} (hne : gs ≠ []) {path : List Step} {u : Guess}
    (h : at? (union gs) path = some u) :
    ∃ hs, hs ≠ [] ∧ u = union hs ∧ ∀ g', g' ∈ hs ↔
      (∃ g ∈ gs, at? g path = some g') ∨ g' = undefined ∧ ∃ g ∈ gs, Lacks g path := by
  induction path generalizing gs with
  | nil =>
      refine ⟨gs, hne, (Option.some.inj h).symm, fun g' => ⟨fun hg' => Or.inl ⟨g', hg', rfl⟩, ?_⟩⟩
      rintro (⟨g, hg, hat⟩ | ⟨-, g, -, hlacks⟩)
      · cases hat
        exact hg
      · cases hlacks
  | cons s path ih =>
      obtain ⟨u', hstep, hrest⟩ := Option.bind_eq_some_iff.mp h
      obtain ⟨hne', rfl⟩ := child?_union hstep
      obtain ⟨hs, hhs, hu, hmem⟩ := ih hne' hrest
      refine ⟨hs, hhs, hu, fun g' => (hmem g').trans ⟨?_, ?_⟩⟩
      · rintro (⟨g₁, hg₁, hat⟩ | ⟨rfl, g₁, hg₁, hlacks⟩)
        · rcases mem_oneStep.mp hg₁ with ⟨g, hg, hchild⟩ | ⟨rfl, g, hg, hmissing⟩
          · exact Or.inl ⟨g, hg, Option.bind_eq_some_iff.mpr ⟨g₁, hchild, hat⟩⟩
          · obtain ⟨rfl, rfl⟩ := at?_undefined_iff.mp hat
            exact Or.inr ⟨rfl, g, hg, hmissing⟩
        · rcases mem_oneStep.mp hg₁ with ⟨g, hg, hchild⟩ | ⟨rfl, -⟩
          · exact Or.inr ⟨rfl, g, hg, .there hchild hlacks⟩
          · exact absurd hlacks (not_lacks_undefined path)
      · rintro (⟨g, hg, hat⟩ | ⟨rfl, g, hg, hlacks⟩)
        · obtain ⟨g₁, hchild, hat⟩ := Option.bind_eq_some_iff.mp hat
          exact Or.inl ⟨g₁, mem_oneStep.mpr (Or.inl ⟨g, hg, hchild⟩), hat⟩
        · rcases lacks_cons_iff.mp hlacks with ⟨rfl, hmissing⟩ | ⟨g₁, hchild, hrest⟩
          · exact Or.inl ⟨undefined, mem_oneStep.mpr (Or.inr ⟨rfl, g, hg, hmissing⟩), rfl⟩
          · exact Or.inr ⟨rfl, g₁, mem_oneStep.mpr (Or.inl ⟨g, hg, hchild⟩), hrest⟩

/-! ## One union -/

/-- No mass is zero, and a part is there only beside mass on its kind. -/
inductive Tidy : Guess → Prop
  | any : Tidy .any
  | known {mass : List (Kind × Float)} {shape : Option (List (String × Guess))}
      {items : Option Guess} {classes : Option (List (String × Float))}
      (nonzero : ∀ p ∈ mass, (p.2 == 0) = false)
      (classNonzero : ∀ cs, classes = some cs → ∀ p ∈ cs, (p.2 == 0) = false)
      (shaped : shape.isSome → Table.has mass .object = true)
      (itemed : items.isSome → Table.has mass .array = true)
      (classed : classes.isSome → Table.has mass .ofClass = true) :
      Tidy (.known mass shape items classes)

/-- No mass is negative. -/
inductive NonNegative : Guess → Prop
  | any : NonNegative .any
  | known {mass : List (Kind × Float)} {shape : Option (List (String × Guess))}
      {items : Option Guess} {classes : Option (List (String × Float))}
      (masses : ∀ p ∈ mass, 0 ≤ p.2) (classMasses : ∀ cs, classes = some cs → ∀ p ∈ cs, 0 ≤ p.2) :
      NonNegative (.known mass shape items classes)

/-- Positive mass on a kind with parts comes with the part. -/
inductive Backed : Guess → Prop
  | any : Backed .any
  | known {mass : List (Kind × Float)} {shape : Option (List (String × Guess))}
      {items : Option Guess} {classes : Option (List (String × Float))}
      (shaped : .object ∈ positiveKinds mass → shape.isSome)
      (itemed : .array ∈ positiveKinds mass → items.isSome)
      (classed : .ofClass ∈ positiveKinds mass → classes.isSome) :
      Backed (.known mass shape items classes)

/-- The guess lists the class with this mass. -/
inductive Names (name : String) (x : Float) : Guess → Prop
  | known {mass : List (Kind × Float)} {shape : Option (List (String × Guess))}
      {items : Option Guess} {classes : List (String × Float)} (listed : (name, x) ∈ classes) :
      Names name x (.known mass shape items (some classes))

theorem has_of_isSome_keptIf {α γ : Type} {mass : List (Kind × Float)} {k : Kind} {given : List α}
    {merge : List α → γ} (h : (keptIf mass k given merge).isSome) : Table.has mass k = true := by
  unfold keptIf at h
  split at h
  · cases h
  next hkept => simp_all

theorem tidy_union (gs : List Guess) : (union gs).Tidy := by
  by_cases hunknown : gs = [] ∨ .any ∈ gs
  · rw [union_eq_any hunknown]
    exact .any
  · obtain ⟨hne, hknown⟩ := not_or.mp hunknown
    rw [union_eq_known hne hknown]
    refine .known (fun p hp => (mem_meanMass hp).2) (fun cs hcs p hp => ?_)
      has_of_isSome_keptIf has_of_isSome_keptIf has_of_isSome_keptIf
    rw [← eq_of_keptIf hcs] at hp
    exact (mem_meanClasses hp).2.2

theorem exists_positive_of_mean {count : Nat} (hc : 0 < count) {masses : List Float}
    (h : ∀ m ∈ masses, 0 ≤ m) (hmean : (mean count masses == 0) = false) : ∃ m ∈ masses, 0 < m := by
  by_contra hnone
  rw [mean_of_total hc (total_of_not_pos h fun m hm hpos => hnone ⟨m, hm, hpos⟩)] at hmean
  exact absurd hmean (by decide +kernel)

theorem mem_positiveKinds_of_massIn {mass : List (Kind × Float)} {k : Kind}
    (h : 0 < massIn mass k) : k ∈ positiveKinds mass := by
  unfold massIn at h
  cases hfind : Table.find? mass k with
  | none =>
      rw [hfind] at h
      exact absurd h (by decide +kernel)
  | some x =>
      rw [hfind] at h
      exact List.mem_map.mpr
        ⟨(k, x), List.mem_filter.mpr ⟨Table.mem_of_find? hfind, decide_eq_true h⟩, rfl⟩

/-- A kind of a union is one of its operands'. -/
theorem exists_kinds_of_union {gs : List Guess} (hmass : ∀ g ∈ gs, NonNegative g) {k : Kind}
    (hk : k ∈ (union gs).kinds) : ∃ g ∈ gs, k ∈ g.kinds := by
  by_cases hunknown : gs = [] ∨ .any ∈ gs
  · rw [union_eq_any hunknown] at hk
    cases hk
  · obtain ⟨hne, hknown⟩ := not_or.mp hunknown
    rw [union_eq_known hne hknown] at hk
    obtain ⟨p, hp, rfl⟩ := List.mem_map.mp hk
    obtain ⟨hvalue, hnonzero⟩ := mem_meanMass (List.mem_filter.mp hp).1
    have hmasses : ∀ m ∈ (givenMasses gs).map (massIn · p.1), 0 ≤ m := by
      intro m hm
      obtain ⟨mass, hmem, rfl⟩ := List.mem_map.mp hm
      obtain ⟨shape, items, classes, hg⟩ := mem_givenMasses.mp hmem
      cases hmass _ hg with
      | known masses => exact holds_massIn (R := fun x => 0 ≤ x) (by decide +kernel) masses p.1
    rw [hvalue] at hnonzero
    obtain ⟨m, hm, hpos⟩ := exists_positive_of_mean
      (List.length_pos_iff.mpr (givenMasses_ne_nil hne hknown)) hmasses hnonzero
    obtain ⟨mass, hmem, rfl⟩ := List.mem_map.mp hm
    obtain ⟨shape, items, classes, hg⟩ := mem_givenMasses.mp hmem
    exact ⟨_, hg, mem_positiveKinds_of_massIn hpos⟩

/-- A class of a union is one that an operand lists, with positive mass. -/
theorem exists_names_of_union {gs : List Guess} (hmass : ∀ g ∈ gs, NonNegative g) {name : String}
    {x : Float} (h : Names name x (union gs)) : ∃ g ∈ gs, ∃ y, Names name y g ∧ 0 < y := by
  by_cases hunknown : gs = [] ∨ .any ∈ gs
  · rw [union_eq_any hunknown] at h
    cases h
  · obtain ⟨hne, hknown⟩ := not_or.mp hunknown
    rw [union_eq_known hne hknown] at h
    obtain ⟨cs, hcs, hlisted⟩ : ∃ cs, keptIf (meanMass (givenMasses gs)) .ofClass
        (givenClasses gs) meanClasses = some cs ∧ (name, x) ∈ cs := by
      generalize keptIf (meanMass (givenMasses gs)) .ofClass (givenClasses gs) meanClasses = kept
        at h
      cases h with
      | known listed => exact ⟨_, rfl, listed⟩
    rw [← eq_of_keptIf hcs] at hlisted
    obtain ⟨-, hvalue, hnonzero⟩ := mem_meanClasses hlisted
    have hmasses : ∀ m ∈ (givenClasses gs).filterMap (Table.find? · name), 0 ≤ m := by
      intro m hm
      obtain ⟨classes, hmem, hfind⟩ := List.mem_filterMap.mp hm
      obtain ⟨mass, shape, items, hg⟩ := mem_givenClasses.mp hmem
      cases hmass _ hg with
      | known _ classMasses => exact classMasses classes rfl (name, m) (Table.mem_of_find? hfind)
    rw [hvalue] at hnonzero
    obtain ⟨y, hy, hpos⟩ := exists_positive_of_mean
      (List.length_pos_iff.mpr (ne_nil_of_keptIf hcs)) hmasses hnonzero
    obtain ⟨classes, hmem, hfind⟩ := List.mem_filterMap.mp hy
    obtain ⟨mass, shape, items, hg⟩ := mem_givenClasses.mp hmem
    exact ⟨_, hg, y, .known (Table.mem_of_find? hfind), hpos⟩

theorem has_of_mem_positiveKinds {mass : List (Kind × Float)} {k : Kind}
    (h : k ∈ positiveKinds mass) : Table.has mass k = true := by
  obtain ⟨p, hp, rfl⟩ := List.mem_map.mp h
  exact Table.has_iff.mpr (List.mem_map_of_mem (List.mem_filter.mp hp).1)

/-- With a kind, a union takes over the part that belongs to it. -/
theorem backed_union {gs : List Guess} (hmass : ∀ g ∈ gs, NonNegative g)
    (h : ∀ g ∈ gs, Backed g) : (union gs).Backed := by
  have hkinds : ∀ {k}, k ∈ (union gs).kinds → ∃ g ∈ gs, k ∈ g.kinds :=
    fun hk => exists_kinds_of_union hmass hk
  by_cases hunknown : gs = [] ∨ .any ∈ gs
  · rw [union_eq_any hunknown]
    exact .any
  · obtain ⟨hne, hknown⟩ := not_or.mp hunknown
    rw [union_eq_known hne hknown] at hkinds ⊢
    -- The operand that the kind comes from gives the part.
    have hpart : ∀ {k : Kind} {α γ : Type} {given : List α} {merge : List α → γ},
        (∀ g ∈ gs, k ∈ g.kinds → given ≠ []) → k ∈ positiveKinds (meanMass (givenMasses gs)) →
          (keptIf (meanMass (givenMasses gs)) k given merge).isSome := by
      intro k α γ given merge hgiven hk
      obtain ⟨g, hg, hgk⟩ := hkinds hk
      exact isSome_keptIf (has_of_mem_positiveKinds hk) (hgiven g hg hgk)
    refine .known (hpart fun g hg hgk => ?_) (hpart fun g hg hgk => ?_) (hpart fun g hg hgk => ?_)
    · cases h g hg with
      | any => cases hgk
      | known shaped =>
          obtain ⟨fields, rfl⟩ := Option.isSome_iff_exists.mp (shaped hgk)
          exact List.ne_nil_of_mem (mem_givenShapes.mpr ⟨_, _, _, hg⟩)
    · cases h g hg with
      | any => cases hgk
      | known _ itemed =>
          obtain ⟨item, rfl⟩ := Option.isSome_iff_exists.mp (itemed hgk)
          exact List.ne_nil_of_mem (mem_givenItems.mpr ⟨_, _, _, hg⟩)
    · cases h g hg with
      | any => cases hgk
      | known _ _ classed =>
          obtain ⟨cs, rfl⟩ := Option.isSome_iff_exists.mp (classed hgk)
          exact List.ne_nil_of_mem (mem_givenClasses.mpr ⟨_, _, _, hg⟩)

/-! ## The union at every depth -/

theorem everywhere_tidy_union (gs : List Guess) : (union gs).Everywhere Tidy := by
  intro path u hu
  by_cases hne : gs = []
  · rw [union_eq_any (Or.inl hne)] at hu
    cases path with
    | nil =>
        cases hu
        exact .any
    | cons s path => cases hu
  · obtain ⟨hs, -, rfl, -⟩ := at?_union hne hu
    exact tidy_union hs

theorem nonNegative_ofKind (k : Kind) : NonNegative (ofKind k) := by
  refine .known (List.forall_mem_singleton.mpr ?_) nofun
  show (0 : Float) ≤ 1
  decide +kernel

theorem backed_undefined : Backed undefined :=
  .known (by decide +kernel) (by decide +kernel) (by decide +kernel)

/-- What holds everywhere in the operands, and of the undefined value, holds of all that they say at
a place. -/
theorem holds_at {gs : List Guess} (hundefined : P undefined) (h : ∀ g ∈ gs, g.Everywhere P)
    {path : List Step} {g' : Guess}
    (hg' : (∃ g ∈ gs, at? g path = some g') ∨ g' = undefined ∧ ∃ g ∈ gs, Lacks g path) : P g' := by
  rcases hg' with ⟨g, hg, hat⟩ | ⟨rfl, -⟩
  · exact h g hg path g' hat
  · exact hundefined

/-- **The union of known guesses without negative masses is known, and at every place** it stores no
zero and no part without its kind, and is unknown only where an operand is; the kinds and the
classes that it gives mass to are those of operands there, but for the undefined value under a key
that a shape lacks; and if parts come with their kinds everywhere in the operands, they do so
everywhere in the union. -/
theorem union_everywhere {gs : List Guess} (hne : gs ≠ []) (hknown : .any ∉ gs)
    (hmass : ∀ g ∈ gs, g.Everywhere NonNegative) :
    union gs ≠ .any ∧ (union gs).Everywhere Tidy ∧
      (∀ path u, at? (union gs) path = some u →
        (u = .any ↔ ∃ g ∈ gs, at? g path = some .any) ∧
        (∀ k ∈ u.kinds, (∃ g ∈ gs, ∃ h, at? g path = some h ∧ k ∈ h.kinds) ∨
          k = .undefined ∧ ∃ g ∈ gs, Lacks g path) ∧
        ∀ name x, Names name x u →
          ∃ g ∈ gs, ∃ h y, at? g path = some h ∧ Names name y h ∧ 0 < y) ∧
      ((∀ g ∈ gs, g.Everywhere Backed) → (union gs).Everywhere Backed) := by
  have hnonneg : ∀ {path g'}, ((∃ g ∈ gs, at? g path = some g') ∨
      g' = undefined ∧ ∃ g ∈ gs, Lacks g path) → NonNegative g' :=
    fun hg' => holds_at (nonNegative_ofKind .undefined) hmass hg'
  refine ⟨fun heq => hknown ((union_eq_any_iff hne).mp heq), fun path u hu => ?_,
    fun path u hu => ?_, fun hbacked path u hu => ?_⟩
  · exact everywhere_tidy_union gs path u hu
  · obtain ⟨hs, hhs, rfl, hmem⟩ := at?_union hne hu
    refine ⟨?_, fun k hk => ?_, fun name x hx => ?_⟩
    · rw [union_eq_any_iff hhs, hmem]
      refine or_iff_left ?_
      rintro ⟨heq, -⟩
      cases heq
    · obtain ⟨h, hh, hhk⟩ :=
        exists_kinds_of_union (fun h hh => hnonneg ((hmem h).mp hh)) hk
      rcases (hmem h).mp hh with ⟨g, hg, hat⟩ | ⟨rfl, hlacks⟩
      · exact Or.inl ⟨g, hg, h, hat, hhk⟩
      · exact Or.inr ⟨List.mem_singleton.mp hhk, hlacks⟩
    · obtain ⟨h, hh, y, hy, hpos⟩ :=
        exists_names_of_union (fun h hh => hnonneg ((hmem h).mp hh)) hx
      rcases (hmem h).mp hh with ⟨g, hg, hat⟩ | ⟨rfl, -⟩
      · exact ⟨g, hg, h, y, hat, hy, hpos⟩
      · cases hy
  · obtain ⟨hs, -, rfl, hmem⟩ := at?_union hne hu
    exact backed_union (fun h hh => hnonneg ((hmem h).mp hh))
      fun h hh => holds_at backed_undefined hbacked ((hmem h).mp hh)

/-- Two descriptions of an event, with a text between them: its time is a date or a number, and
nothing is known of its note. -/
def events : List Guess :=
  [object [("at", ofClass "Date"), ("tags", array string)], string,
    object [("at", number), ("note", .any)]]

theorem everywhere_events (hany : P .any) (hstring : P string) (hnumber : P number)
    (hclass : P (ofClass "Date")) (hobject : ∀ fields, P (object fields))
    (harray : ∀ item, P (array item)) : ∀ g ∈ events, g.Everywhere P := by
  have hleaf : ∀ {k}, P (ofKind k) → (ofKind k).Everywhere P := fun h => everywhere_leaf h
  refine List.forall_mem_cons.mpr ⟨everywhere_object (hobject _) ?_,
    List.forall_mem_cons.mpr ⟨hleaf hstring,
      List.forall_mem_singleton.mpr (everywhere_object (hobject _) ?_)⟩⟩
  · refine List.forall_mem_cons.mpr ⟨everywhere_leaf hclass, List.forall_mem_singleton.mpr ?_⟩
    exact everywhere_array (harray _) (hleaf hstring)
  · exact List.forall_mem_cons.mpr ⟨hleaf hnumber,
      List.forall_mem_singleton.mpr (.of_children hany nofun)⟩

/-- The note stays unknown, and the time is of no class but the one. -/
theorem union_events : events ≠ [] ∧ .any ∉ events ∧ (∀ g ∈ events, g.Everywhere NonNegative) ∧
    (∀ g ∈ events, g.Everywhere Backed) ∧ union events ≠ .any ∧ (union events).Everywhere Tidy ∧
      (∀ u, at? (union events) [.property "note"] = some u → u = .any) ∧
      (∀ u, at? (union events) [.property "at"] = some u →
        ∀ name x, Names name x u → name = "Date") ∧
      (union events).Everywhere Backed := by
  have hne : events ≠ [] := List.cons_ne_nil _ _
  have hknown : .any ∉ events := by simp [events, object, string, ofKind]
  have hmass : ∀ g ∈ events, g.Everywhere NonNegative := by
    refine everywhere_events .any (nonNegative_ofKind _) (nonNegative_ofKind _) ?_
      (fun _ => .known (by decide +kernel) nofun) fun _ => .known (by decide +kernel) nofun
    refine .known (by decide +kernel) ?_
    rintro cs ⟨rfl⟩
    decide +kernel
  have hbacked : ∀ g ∈ events, g.Everywhere Backed :=
    everywhere_events .any (.known (by decide +kernel) (by decide +kernel) (by decide +kernel))
      (.known (by decide +kernel) (by decide +kernel) (by decide +kernel))
      (.known (by decide +kernel) (by decide +kernel) fun _ => rfl)
      (fun _ => .known (fun _ => rfl) (by decide +kernel) (by decide +kernel))
      fun _ => .known (by decide +kernel) (fun _ => rfl) (by decide +kernel)
  obtain ⟨hunion, htidy, hplaces, hparts⟩ := union_everywhere hne hknown hmass
  refine ⟨hne, hknown, hmass, hbacked, hunion, htidy, fun u hu => ?_, fun u hu name x hx => ?_,
    hparts hbacked⟩
  · exact (hplaces _ u hu).1.mpr ⟨object [("at", number), ("note", .any)], by simp [events], rfl⟩
  · obtain ⟨g, hg, h, y, hat, hy, -⟩ := (hplaces _ u hu).2.2 name x hx
    rcases List.mem_cons.mp hg with rfl | hg
    · obtain rfl : ofClass "Date" = h := Option.some.inj hat
      cases hy with
      | known listed => exact congrArg Prod.fst (List.mem_singleton.mp listed)
    · rcases List.mem_cons.mp hg with rfl | hg
      · cases hat
      · obtain rfl := List.mem_singleton.mp hg
        obtain rfl : number = h := Option.some.inj hat
        cases hy

end ApiSurface.Guess
