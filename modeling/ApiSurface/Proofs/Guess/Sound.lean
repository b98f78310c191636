/-
# `ApiSurface.Proofs.Guess.Sound` — guesses whose mass is backed by what is known

A guess is sound over a set of classes when mass on objects, arrays and instances comes with a
shape, a guess for the items and a distribution over classes, the classes are in the set, and the
same holds of the guesses nested in it.

The ways in which guesses are merged keep this.  For the intersection that is a matter of cases.
For the union it rests on arithmetic: a kind stays only if its mean is not zero, and the mean of
zeros is zero, so that some operand has mass on the kind, and with it what backs it up.
-/
import ApiSurface.Proofs.Decimal.Whole
import ApiSurface.Proofs.Lookup
import ApiSurface.Schema.Check

namespace ApiSurface.Guess

open Decimal

/-- Mass on kinds with parts is backed, with classes from the set, all the way down. -/
inductive Sound (S : String → Prop) : Guess → Prop
  | any : Sound S .any
  | known {mass : List (Kind × Float)} {shape : Option (List (String × Guess))}
      {items : Option Guess} {classes : Option (List (String × Float))}
      (shaped : Table.has mass .object = true → shape.isSome)
      (itemed : Table.has mass .array = true → items.isSome)
      (classed : Table.has mass .ofClass = true → classes.isSome)
      (fields : ∀ fs, shape = some fs → ∀ p ∈ fs, Sound S p.2)
      (item : ∀ g, items = some g → Sound S g)
      (listed : ∀ cs, classes = some cs → ∀ p ∈ cs, S p.1) :
      Sound S (.known mass shape items classes)

/-- A class that a value of the guess, or a part of it, may be an instance of. -/
inductive Mentions (name : String) : Guess → Prop
  | here {mass : List (Kind × Float)} {shape : Option (List (String × Guess))}
      {items : Option Guess} {classes : List (String × Float)} {x : Float}
      (possible : massIn mass .ofClass > 0) (listed : (name, x) ∈ classes) :
      Mentions name (.known mass shape items (some classes))
  | field {mass : List (Kind × Float)} {fields : List (String × Guess)} {items : Option Guess}
      {classes : Option (List (String × Float))} {key : String} {g : Guess}
      (possible : massIn mass .object > 0) (listed : (key, g) ∈ fields) (inside : Mentions name g) :
      Mentions name (.known mass (some fields) items classes)
  | item {mass : List (Kind × Float)} {shape : Option (List (String × Guess))} {g : Guess}
      {classes : Option (List (String × Float))}
      (possible : massIn mass .array > 0) (inside : Mentions name g) :
      Mentions name (.known mass shape (some g) classes)

variable {S : String → Prop}

/-! ## Sound guesses -/

theorem sound_ofKind {k : Kind} (ho : k ≠ .object) (ha : k ≠ .array) (hc : k ≠ .ofClass) :
    Sound S (ofKind k) := by
  have hnone : ∀ k', k' ≠ k → Table.has [(k, (1 : Float))] k' = false := by
    intro k' hne
    rw [Table.has, Table.find?_cons_of_ne hne]
    rfl
  refine .known ?_ ?_ ?_ ?_ ?_ ?_
  · simp [hnone _ ho.symm]
  · simp [hnone _ ha.symm]
  · simp [hnone _ hc.symm]
  all_goals
    intro _ h
    cases h

theorem sound_number : Sound S number := sound_ofKind nofun nofun nofun

theorem sound_string : Sound S string := sound_ofKind nofun nofun nofun

theorem sound_undefined : Sound S undefined := sound_ofKind nofun nofun nofun

theorem sound_ofClass {name : String} (h : S name) : Sound S (ofClass name) := by
  refine .known (by decide) (by decide) (fun _ => rfl) nofun nofun ?_
  intro cs hcs p hp
  cases hcs
  rw [List.mem_singleton.mp hp]
  exact h

theorem sound_object {fields : List (String × Guess)} (h : ∀ p ∈ fields, Sound S p.2) :
    Sound S (object fields) := by
  refine .known (fun _ => rfl) (by decide) (by decide) ?_ nofun nofun
  rintro fs ⟨rfl⟩
  exact h

theorem sound_array {item : Guess} (h : Sound S item) : Sound S (array item) := by
  refine .known (by decide) (fun _ => rfl) (by decide) nofun ?_ nofun
  rintro g ⟨rfl⟩
  exact h

theorem Sound.of_mentions {g : Guess} (h : Sound S g) {name : String} (hm : Mentions name g) :
    S name := by
  induction hm with
  | here _ hlisted =>
      cases h with
      | known _ _ _ _ _ listed => exact listed _ rfl _ hlisted
  | field _ hlisted _ ih =>
      cases h with
      | known _ _ _ fields => exact ih (fields _ rfl _ hlisted)
  | item _ _ ih =>
      cases h with
      | known _ _ _ _ item => exact ih (item _ rfl)

/-! ## Means -/

theorem total_zeros {masses : List Float} (h : ∀ m ∈ masses, m = 0) : total masses = 0 := by
  unfold total
  induction masses with
  | nil => rfl
  | cons m masses ih =>
      have hzero : (0 : Float) + 0 = 0 := rfl
      rw [List.foldl_cons, h m List.mem_cons_self, hzero]
      exact ih fun m hm => h m (List.mem_cons_of_mem _ hm)

theorem mean_of_total {count : Nat} (hc : 0 < count) {masses : List Float}
    (h : total masses = 0) : mean count masses = 0 := by
  rw [mean, h, zero_div_ofNat hc]
  decide +kernel

theorem mean_zeros {count : Nat} (hc : 0 < count) {masses : List Float}
    (h : ∀ m ∈ masses, m = 0) : mean count masses = 0 :=
  mean_of_total hc (total_zeros h)

/-! ## What is made along keys -/

theorem nonzero_eq_some {κ : Type} {f : κ → Float} {k : κ} {p : κ × Float}
    (h : (let m := f k; if m == 0 then none else some (k, m)) = some p) :
    p.1 = k ∧ p.2 = f k ∧ (p.2 == 0) = false := by
  dsimp only at h
  split at h
  · cases h
  next hnonzero =>
    cases h
    exact ⟨rfl, rfl, Bool.eq_false_iff.mpr hnonzero⟩

/-- What is kept of values made along keys, where zeros are left out. -/
theorem mem_nonzero {κ : Type} {keys : List κ} {f : κ → Float} {p : κ × Float}
    (h : p ∈ keys.filterMap fun k => let m := f k; if m == 0 then none else some (k, m)) :
    p.1 ∈ keys ∧ p.2 = f p.1 ∧ (p.2 == 0) = false := by
  obtain ⟨k, hk, hp⟩ := List.mem_filterMap.mp h
  obtain ⟨rfl, hvalue, hnonzero⟩ := nonzero_eq_some hp
  exact ⟨hk, hvalue, hnonzero⟩

theorem mem_meanMass {operands : List (List (Kind × Float))} {p : Kind × Float}
    (h : p ∈ meanMass operands) :
    p.2 = mean operands.length (operands.map (massIn · p.1)) ∧ (p.2 == 0) = false :=
  (mem_nonzero h).2

theorem mem_meanClasses {operands : List (List (String × Float))} {p : String × Float}
    (h : p ∈ meanClasses operands) : p.1 ∈ allKeys operands ∧
      p.2 = mean operands.length (operands.filterMap (Table.find? · p.1)) ∧ (p.2 == 0) = false :=
  mem_nonzero h

/-! ## The union -/

/-- The parts of a known guess, put together again. -/
def Known.guess (o : Known) : Guess :=
  .known o.mass o.shape o.items o.classes

theorem massIn_of_not_has {mass : List (Kind × Float)} {k : Kind} (h : Table.has mass k = false) :
    massIn mass k = 0 := by
  have hnone : Table.find? mass k = none := by simpa [Table.has] using h
  rw [massIn, hnone]
  rfl

/-- What holds of zero and of every mass of a distribution holds of the mass of every kind. -/
theorem holds_massIn {R : Float → Prop} (hzero : R 0) {mass : List (Kind × Float)}
    (h : ∀ p ∈ mass, R p.2) (k : Kind) : R (massIn mass k) := by
  unfold massIn
  cases hfind : Table.find? mass k with
  | none => exact hzero
  | some x => exact h (k, x) (Table.mem_of_find? hfind)

/-- A kind that keeps mass in the mean has mass in an operand. -/
theorem exists_has_of_meanMass {operands : List (List (Kind × Float))} (hne : operands ≠ [])
    {k : Kind} (h : Table.has (meanMass operands) k = true) :
    ∃ mass ∈ operands, Table.has mass k = true := by
  by_contra hnone
  have hzero : ∀ m ∈ operands.map (massIn · k), m = 0 := by
    intro m hm
    obtain ⟨mass, hmass, rfl⟩ := List.mem_map.mp hm
    exact massIn_of_not_has (Bool.eq_false_iff.mpr fun hhas => hnone ⟨mass, hmass, hhas⟩)
  obtain ⟨p, hp, rfl⟩ := List.mem_map.mp (Table.has_iff.mp h)
  obtain ⟨hvalue, hnonzero⟩ := mem_meanMass hp
  rw [hvalue, mean_zeros (List.length_pos_iff.mpr hne) hzero] at hnonzero
  exact absurd hnonzero (by decide +kernel)

theorem isSome_keptIf {α γ : Type} {mass : List (Kind × Float)} {k : Kind} {given : List α}
    {merge : List α → γ} (hhas : Table.has mass k = true) (hne : given ≠ []) :
    (keptIf mass k given merge).isSome := by
  rw [keptIf, if_neg]
  · rfl
  · simp [hhas, hne]

theorem eq_of_keptIf {α γ : Type} {mass : List (Kind × Float)} {k : Kind} {given : List α}
    {merge : List α → γ} {c : γ} (h : keptIf mass k given merge = some c) : merge given = c := by
  unfold keptIf at h
  split at h
  · cases h
  · exact Option.some.inj h

/-- The keys of tables are those of each of them, in whatever order the tables are. -/
theorem mem_allKeys_iff {α : Type} {tables : List (List (String × α))} {key : String} :
    key ∈ allKeys tables ↔ ∃ t ∈ tables, ∃ a, (key, a) ∈ t := by
  rw [allKeys, Table.mem_keys_ofList]
  simp

theorem forall_propertyGuesses {P : Guess → Prop} (hmissing : P undefined)
    {shapes : List (List (String × Guess))} (h : ∀ s ∈ shapes, ∀ p ∈ s, P p.2) (key : String) :
    ∀ g ∈ propertyGuesses shapes key, P g := by
  intro g hg
  obtain ⟨s, hs, rfl⟩ := List.mem_map.mp hg
  cases hfind : Table.find? s key with
  | none => exact hmissing
  | some g => exact h s hs (key, g) (Table.mem_of_find? hfind)

/-- A kind that keeps mass in the mean keeps what the operands give of it, if each of them that has
mass on the kind gives something. -/
theorem isSome_keptIf_meanMass {operands : List Known} (hne : operands ≠ []) {α γ : Type}
    {part : Known → Option α} {k : Kind} {merge : List α → γ}
    (hgives : ∀ o ∈ operands, Table.has o.mass k = true → (part o).isSome)
    (hhas : Table.has (meanMass (operands.map Known.mass)) k = true) :
    (keptIf (meanMass (operands.map Known.mass)) k (operands.filterMap part) merge).isSome := by
  obtain ⟨mass, hmem, hkey⟩ := exists_has_of_meanMass (by simpa using hne) hhas
  obtain ⟨o, ho, rfl⟩ := List.mem_map.mp hmem
  obtain ⟨a, ha⟩ := Option.isSome_iff_exists.mp (hgives o ho hkey)
  exact isSome_keptIf hhas (List.ne_nil_of_mem (List.mem_filterMap.mpr ⟨o, ho, ha⟩))

section Merged

variable {P : Guess → Prop} {merge : List Guess → Guess}
  (hmerge : ∀ gs, (∀ g ∈ gs, P g) → P (merge gs)) {operands : List Known}
  {mass : List (Kind × Float)}

include hmerge

/-- What merging keeps holds of the properties of the merged shapes. -/
theorem holds_mergedFields (hmissing : P undefined)
    (h : ∀ o ∈ operands, ∀ shape, o.shape = some shape → ∀ p ∈ shape, P p.2)
    {fs : List (String × Guess)}
    (hfs : keptIf mass .object (operands.filterMap Known.shape) (fun shapes =>
      (allKeys shapes).map fun key => (key, merge (propertyGuesses shapes key))) = some fs) :
    ∀ p ∈ fs, P p.2 := by
  intro p hp
  rw [← eq_of_keptIf hfs] at hp
  obtain ⟨key, -, rfl⟩ := List.mem_map.mp hp
  refine hmerge _ (forall_propertyGuesses hmissing ?_ key)
  intro shape hshape
  obtain ⟨o, ho, hshape⟩ := List.mem_filterMap.mp hshape
  exact h o ho shape hshape

/-- What merging keeps holds of the merged items. -/
theorem holds_mergedItems (h : ∀ o ∈ operands, ∀ g, o.items = some g → P g) {g : Guess}
    (hg : keptIf mass .array (operands.filterMap Known.items) merge = some g) : P g := by
  rw [← eq_of_keptIf hg]
  refine hmerge _ fun g hg => ?_
  obtain ⟨o, ho, hitems⟩ := List.mem_filterMap.mp hg
  exact h o ho g hitems

end Merged

theorem sound_unionKnown {merge : List Guess → Guess}
    (hmerge : ∀ gs, (∀ g ∈ gs, Sound S g) → Sound S (merge gs)) {operands : List Known}
    (hne : operands ≠ []) (h : ∀ o ∈ operands, Sound S o.guess) :
    Sound S (unionKnown merge operands) := by
  refine .known ?_ ?_ ?_ ?_ ?_ ?_
  · refine isSome_keptIf_meanMass hne fun o ho => ?_
    cases h o ho with
    | known shaped => exact shaped
  · refine isSome_keptIf_meanMass hne fun o ho => ?_
    cases h o ho with
    | known _ itemed => exact itemed
  · refine isSome_keptIf_meanMass hne fun o ho => ?_
    cases h o ho with
    | known _ _ classed => exact classed
  · refine fun fs => holds_mergedFields hmerge sound_undefined fun o ho => ?_
    cases h o ho with
    | known _ _ _ fields => exact fields
  · refine fun g => holds_mergedItems hmerge fun o ho => ?_
    cases h o ho with
    | known _ _ _ _ item => exact item
  · intro cs hcs p hp
    rw [← eq_of_keptIf hcs] at hp
    obtain ⟨t, ht, x, hx⟩ := mem_allKeys_iff.mp (mem_meanClasses hp).1
    obtain ⟨o, ho, hclasses⟩ := List.mem_filterMap.mp ht
    cases h o ho with
    | known _ _ _ _ _ listed => exact listed t hclasses (p.1, x) hx

/-! ## Known operands -/

theorem mapM_known?_eq_none {gs : List Guess} (h : .any ∈ gs) : gs.mapM known? = none := by
  induction gs with
  | nil => cases h
  | cons g gs ih =>
      rw [List.mapM_cons]
      rcases List.mem_cons.mp h with rfl | h
      · rfl
      · rw [ih h]
        cases known? g <;> rfl

theorem mapM_known?_eq_some {gs : List Guess} (h : .any ∉ gs) :
    gs.mapM known? = some (gs.filterMap known?) := by
  induction gs with
  | nil => rfl
  | cons g gs ih =>
      rw [List.mapM_cons, ih fun hmem => h (List.mem_cons_of_mem _ hmem)]
      cases g with
      | any => exact absurd List.mem_cons_self h
      | known mass shape items classes => rfl

theorem filterMap_known?_ne_nil {gs : List Guess} (hne : gs ≠ []) (h : .any ∉ gs) :
    gs.filterMap known? ≠ [] := by
  obtain ⟨g, gs, rfl⟩ := List.exists_cons_of_ne_nil hne
  cases g with
  | any => exact absurd List.mem_cons_self h
  | known mass shape items classes => simp [known?]

theorem mem_filterMap_known? {gs : List Guess} {o : Known} :
    o ∈ gs.filterMap known? ↔ o.guess ∈ gs := by
  rw [List.mem_filterMap]
  constructor
  · rintro ⟨g, hg, hknown⟩
    cases g with
    | any => cases hknown
    | known mass shape items classes =>
        cases hknown
        exact hg
  · exact fun h => ⟨o.guess, h, rfl⟩

theorem unionTo_eq_any {gs : List Guess} (h : gs = [] ∨ .any ∈ gs) (depth : Nat) :
    unionTo depth gs = .any := by
  cases depth with
  | zero => rfl
  | succ depth =>
      rw [unionTo]
      rcases h with rfl | h
      · rfl
      · rw [mapM_known?_eq_none h]

/-- One level of the union: the parts of the operands are merged, with one level less for what is
nested in them. -/
theorem unionTo_succ {gs : List Guess} (hne : gs ≠ []) (h : .any ∉ gs) (depth : Nat) :
    unionTo (depth + 1) gs = unionKnown (unionTo depth) (gs.filterMap known?) := by
  rw [unionTo, mapM_known?_eq_some h]
  have hops := filterMap_known?_ne_nil hne h
  split
  next heq => cases heq
  next heq => exact absurd (Option.some.inj heq) hops
  next heq => rw [← Option.some.inj heq]

/-! ## One level and all of them -/

/-- The property is kept by the union of known guesses, with any merging that keeps it. -/
def KeptByUnion (P : Guess → Prop) : Prop :=
  ∀ merge, (∀ gs : List Guess, (∀ g ∈ gs, P g) → P (merge gs)) → ∀ operands, operands ≠ [] →
    (∀ o : Known, o ∈ operands → P o.guess) → P (unionKnown merge operands)

theorem holds_unionTo {P : Guess → Prop} (hany : P .any) (hkept : KeptByUnion P) (depth : Nat) :
    ∀ gs : List Guess, (∀ g ∈ gs, P g) → P (unionTo depth gs) := by
  induction depth with
  | zero =>
      intro _ _
      exact hany
  | succ depth ih =>
      intro gs h
      by_cases hunknown : gs = [] ∨ .any ∈ gs
      · rw [unionTo_eq_any hunknown]
        exact hany
      · obtain ⟨hne, hknown⟩ := not_or.mp hunknown
        rw [unionTo_succ hne hknown]
        exact hkept _ ih _ (filterMap_known?_ne_nil hne hknown) fun o ho =>
          h _ (mem_filterMap_known?.mp ho)

/-- **The union of sound guesses is sound.** -/
theorem sound_union {gs : List Guess} (h : ∀ g ∈ gs, Sound S g) : Sound S (union gs) :=
  holds_unionTo .any (fun _ hmerge _ hne ho => sound_unionKnown hmerge hne ho) _ gs h

/-! ## The intersection -/

theorem wider_eq (a b : Guess) : wider a b = a ∨ wider a b = b := by
  unfold wider
  split
  · exact Or.inl rfl
  · exact Or.inr rfl
  · split
    · exact Or.inr rfl
    · exact Or.inl rfl

/-- Properties in order, with guesses that have the property. -/
structure Fields (P : Guess → Prop) (fields : List (String × Guess)) : Prop where
  order : Table.Ascending fields
  holds : ∀ p ∈ fields, P p.2

theorem fields_nil {P : Guess → Prop} : Fields P [] :=
  ⟨Table.ascending_nil, nofun⟩

theorem Fields.insert {P : Guess → Prop} {fields : List (String × Guess)} (h : Fields P fields)
    (key : String) {g : Guess} (hg : P g) : Fields P (Table.insert fields key g) := by
  refine ⟨Table.ascending_insert h.order key g, fun p hp => ?_⟩
  rcases Table.mem_insert hp with rfl | hp
  · exact hg
  · exact h.holds p hp

theorem fields_mergeShape {P : Guess → Prop} {object : List (String × Guess)}
    (ho : ∀ p ∈ object, P p.2) {shape : List (String × Guess)} (h : Fields P shape) :
    Fields P (mergeShape shape object) := by
  refine List.foldlRecOn (motive := Fields P) _ _ h fun shape hshape q hq => ?_
  split
  next old hfind =>
    refine hshape.insert q.1 ?_
    rcases wider_eq old q.2 with heq | heq
    · rw [heq]
      exact hshape.holds _ (Table.mem_of_find? hfind)
    · rw [heq]
      exact ho q hq
  · exact hshape.insert q.1 (ho q hq)

/-- The intersection keeps a property that the union keeps, if it passes from an object to its
properties and from properties in order to their object. -/
theorem holds_intersect {P : Guess → Prop} (hany : P .any)
    (hunion : ∀ {gs : List Guess}, (∀ g ∈ gs, P g) → P (union gs))
    (hfields : ∀ {g fields}, P g → certainShape? g = some fields → ∀ p ∈ fields, P p.2)
    (hobject : ∀ {fields}, Fields P fields → P (object fields)) {gs : List Guess}
    (h : ∀ g ∈ gs, P g) : P (intersect gs) := by
  have hops : ∀ g ∈ gs.filter fun g => !g.isAny, P g := fun g hg =>
    h g (List.mem_filter.mp hg).1
  unfold intersect
  simp only
  split
  · exact hany
  · split
    · exact hunion hops
    next shapes _ =>
      refine hobject (List.foldlRecOn (motive := Fields P) _ _ fields_nil fun s hs t ht => ?_)
      obtain ⟨g, hg, hshape⟩ := List.mem_filterMap.mp ht
      exact fields_mergeShape (hfields (hops g hg) hshape) hs

/-- The guess is certainly an object, with these properties. -/
def CertainlyObject (g : Guess) (fields : List (String × Guess)) : Prop :=
  ∃ mass items classes, g = .known mass (some fields) items classes ∧
    (massIn mass .object == 1) = true

theorem certainShape?_eq_some_iff {g : Guess} {fields : List (String × Guess)} :
    certainShape? g = some fields ↔ CertainlyObject g fields := by
  constructor
  · intro h
    unfold certainShape? at h
    split at h
    next mass shape items classes =>
      split at h
      next hmass =>
        cases h
        exact ⟨mass, items, classes, rfl, hmass⟩
      · cases h
    · cases h
  · rintro ⟨mass, items, classes, rfl, hmass⟩
    rw [certainShape?, if_pos hmass]

theorem sound_certainShape {g : Guess} {fields : List (String × Guess)} (h : Sound S g)
    (hs : certainShape? g = some fields) : ∀ p ∈ fields, Sound S p.2 := by
  obtain ⟨mass, items, classes, rfl, -⟩ := certainShape?_eq_some_iff.mp hs
  cases h with
  | known _ _ _ hfields => exact hfields _ rfl

/-- **The intersection of sound guesses is sound.** -/
theorem sound_intersect {gs : List Guess} (h : ∀ g ∈ gs, Sound S g) : Sound S (intersect gs) :=
  holds_intersect .any sound_union sound_certainShape (fun hfields => sound_object hfields.holds) h

/-! ## Certain instances -/

theorem certainlyOf_ofClass (name : String) : Schema.certainlyOf name (ofClass name) = true := by
  have hmass : (massIn [(Kind.ofClass, 1)] .ofClass == 1) = true := rfl
  have hone : ((1 : Float) == 1) = true := rfl
  rw [ofClass, Schema.certainlyOf, Table.find?_cons_self, hmass]
  exact hone

end ApiSurface.Guess
