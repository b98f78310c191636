/-
# `ApiSurface.Proofs.Guess.Laws` — the union of two, and the union of copies

The union of two guesses does not depend on their order (`union_swap`).  A mean is a sum in the
order of the operands, and an addition rounds, so that this is a fact about two operands and about
no more: with two, every sum is of two masses at most, at every depth, because an operand gives one
shape, one guess for the items and one distribution over the classes.  To exchange two is to reverse
the list, and a list of operands is taken apart by maps and filters, which commute with reversal; so
it is said of a list of two operands at most and its reverse.

The union of copies of a guess is the guess (`union_replicate`), if the means of its masses are: a
table is made again along its keys, a mass of zero is stored nowhere, and no part is dropped since
none stands without its kind.  For stored masses this holds of up to two to the power of 32 copies.
-/
import ApiSurface.Proofs.Decimal.Nearness
import ApiSurface.Proofs.Guess.Places

namespace ApiSurface.Guess

open Decimal

/-! ## Means -/

theorem mean_reverse {masses : List Float} (h : masses.length ≤ 2) (count : Nat) :
    mean count masses.reverse = mean count masses := by
  rw [mean, mean, total_reverse h]

theorem meanMass_reverse {operands : List (List (Kind × Float))} (h : operands.length ≤ 2) :
    meanMass operands.reverse = meanMass operands := by
  have hmean : ∀ k, mean operands.reverse.length (operands.reverse.map (massIn · k)) =
      mean operands.length (operands.map (massIn · k)) := by
    intro k
    rw [List.length_reverse, List.map_reverse, mean_reverse (by simpa using h)]
  simp only [meanMass, hmean]

/-! ## Keys -/

theorem allKeys_reverse {α : Type} (tables : List (List (String × α))) :
    allKeys tables.reverse = allKeys tables := by
  refine Table.keys_eq_of_has (Table.ascending_ofList _) (Table.ascending_ofList _) fun key => ?_
  rw [Bool.eq_iff_iff, Table.has_iff, Table.has_iff]
  refine mem_allKeys_iff.trans (Iff.trans ?_ mem_allKeys_iff.symm)
  simp only [List.mem_reverse]

theorem meanClasses_reverse {operands : List (List (String × Float))} (h : operands.length ≤ 2) :
    meanClasses operands.reverse = meanClasses operands := by
  have hmean : ∀ name,
      mean operands.reverse.length (operands.reverse.filterMap (Table.find? · name)) =
        mean operands.length (operands.filterMap (Table.find? · name)) := by
    intro name
    rw [List.length_reverse, List.filterMap_reverse,
      mean_reverse (le_trans (List.length_filterMap_le ..) h)]
  simp only [meanClasses, allKeys_reverse, hmean]

/-! ## Guesses -/

theorem keptIf_reverse {α γ : Type} {given : List α} {merge : List α → γ}
    (h : merge given.reverse = merge given) (mass : List (Kind × Float)) (k : Kind) :
    keptIf mass k given.reverse merge = keptIf mass k given merge := by
  simp only [keptIf, h, List.isEmpty_reverse]

theorem propertyGuesses_reverse (shapes : List (List (String × Guess))) (key : String) :
    propertyGuesses shapes.reverse key = (propertyGuesses shapes key).reverse :=
  List.map_reverse ..

theorem unionKnown_reverse {merge : List Guess → Guess}
    (hmerge : ∀ gs : List Guess, gs.length ≤ 2 → merge gs.reverse = merge gs)
    {operands : List Known} (h : operands.length ≤ 2) :
    unionKnown merge operands.reverse = unionKnown merge operands := by
  have hgiven : ∀ {α : Type} (part : Known → Option α), (operands.filterMap part).length ≤ 2 :=
    fun part => le_trans (List.length_filterMap_le ..) h
  have hproperties : ∀ key,
      merge (propertyGuesses (operands.filterMap Known.shape).reverse key) =
        merge (propertyGuesses (operands.filterMap Known.shape) key) := by
    intro key
    rw [propertyGuesses_reverse]
    exact hmerge _ ((List.length_map _).trans_le (hgiven Known.shape))
  rw [unionKnown, unionKnown]
  simp only [List.map_reverse, List.filterMap_reverse]
  rw [meanMass_reverse ((List.length_map Known.mass).trans_le h), keptIf_reverse ?_,
    keptIf_reverse (hmerge _ (hgiven Known.items)),
    keptIf_reverse (meanClasses_reverse (hgiven Known.classes))]
  simp only [allKeys_reverse, hproperties]

theorem unionTo_reverse (depth : Nat) :
    ∀ gs : List Guess, gs.length ≤ 2 → unionTo depth gs.reverse = unionTo depth gs := by
  induction depth with
  | zero => exact fun _ _ => rfl
  | succ depth ih =>
      intro gs h
      by_cases hunknown : gs = [] ∨ .any ∈ gs
      · rw [unionTo_eq_any hunknown, unionTo_eq_any]
        simpa using hunknown
      · obtain ⟨hne, hknown⟩ := not_or.mp hunknown
        rw [unionTo_succ hne hknown, unionTo_succ (by simpa using hne) (by simpa using hknown),
          List.filterMap_reverse,
          unionKnown_reverse ih (le_trans (List.length_filterMap_le ..) h)]

/-- **The union of two guesses does not depend on their order.** -/
theorem union_swap (a b : Guess) : union [a, b] = union [b, a] := by
  have hbelow : ∀ g ∈ [a, b], depth g ≤ maxDepth [b, a] + 1 := fun g hg =>
    Nat.le_succ_of_le (depth_le_maxDepth (List.mem_reverse.mpr hg : g ∈ [a, b].reverse))
  rw [union_eq_unionTo hbelow]
  exact (unionTo_reverse _ [a, b] (Nat.le_refl 2)).symm

/-! ## Tables made again -/

theorem mem_kinds (k : Kind) : k ∈ Kind.all := by
  cases k <;> decide

/-- A table without zeros is made again from its look-ups along keys that cover its own. -/
theorem filterMap_nonzero_eq {κ : Type} [Ord κ] [Std.OrientedOrd κ] [Std.LawfulEqOrd κ]
    [DecidableEq κ] {t : Table κ Float} (order : Table.Ascending t)
    (nonzero : ∀ p ∈ t, (p.2 == 0) = false) {keys : List κ}
    (hkeys : keys.Pairwise fun a b => compare a b = .lt) (hall : ∀ k ∈ Table.keys t, k ∈ keys)
    {f : κ → Float} (hf : ∀ k ∈ keys, f k = (Table.find? t k).getD 0) :
    (keys.filterMap fun k => let m := f k; if m == 0 then none else some (k, m)) = t := by
  refine Table.eq_of_find? (ascending_nonzero hkeys f) order fun k => ?_
  rw [Table.find?_filterMap fun k _ hp => (nonzero_eq_some (f := f) (k := k) hp).1]
  cases hfind : Table.find? t k with
  | none =>
      split
      next hk =>
        have hzero : ((0 : Float) == 0) = true := rfl
        rw [hf k hk, hfind, Option.getD_none, if_pos hzero]
        rfl
      · rfl
  | some x =>
      have hmem := Table.mem_of_find? hfind
      have hk : k ∈ keys := hall k (List.mem_map_of_mem hmem)
      have hx : (x == 0) = false := nonzero (k, x) hmem
      simp [hk, hf k hk, hfind, hx]

theorem allKeys_replicate {α : Type} {n : Nat} (hn : 0 < n) {t : List (String × α)}
    (order : Table.Ascending t) : allKeys (List.replicate n t) = Table.keys t := by
  refine Table.keys_eq_of_has (Table.ascending_ofList _) order fun key => ?_
  rw [Bool.eq_iff_iff, Table.has_iff, Table.has_iff]
  refine mem_allKeys_iff.trans ?_
  simp [Table.keys, List.mem_replicate, hn.ne']

/-! ## Copies -/

section Copies

variable {R : Float → Prop} {n : Nat} (hn : 0 < n)
  (hmean : ∀ x, R x → mean n (List.replicate n x) = x)

include hmean

theorem meanMass_replicate (hzero : R 0) {mass : List (Kind × Float)}
    (order : Table.Ascending mass) (masses : ∀ p ∈ mass, R p.2)
    (nonzero : ∀ p ∈ mass, (p.2 == 0) = false) : meanMass (List.replicate n mass) = mass := by
  refine filterMap_nonzero_eq order nonzero pairwise_kinds (fun k _ => mem_kinds k) fun k _ => ?_
  rw [List.length_replicate, List.map_replicate, hmean _ (holds_massIn hzero masses k)]
  rfl

include hn

theorem meanClasses_replicate {classes : List (String × Float)}
    (order : Table.Ascending classes) (masses : ∀ p ∈ classes, R p.2)
    (nonzero : ∀ p ∈ classes, (p.2 == 0) = false) :
    meanClasses (List.replicate n classes) = classes := by
  have hkeys := allKeys_replicate hn order
  refine filterMap_nonzero_eq order nonzero (pairwise_allKeys _) (fun k hk => hkeys ▸ hk)
    fun name hname => ?_
  rw [hkeys] at hname
  obtain ⟨x, hfind⟩ := Option.isSome_iff_exists.mp (Table.has_iff.mpr hname)
  rw [List.length_replicate, List.filterMap_replicate_of_some (f := (Table.find? · name)) hfind,
    hmean _ (masses _ (Table.mem_of_find? hfind)), hfind, Option.getD_some]

omit hmean in
/-- A part is kept beside its kind, and merged with itself. -/
theorem keptIf_replicate {α : Type} {mass : List (Kind × Float)} {k : Kind} (o : Known)
    (part : Known → Option α) {merge : List α → α}
    (hkind : (part o).isSome → Table.has mass k = true)
    (hmerge : ∀ a, part o = some a → merge (List.replicate n a) = a) :
    keptIf mass k ((List.replicate n o).filterMap part) merge = part o := by
  cases hpart : part o with
  | none =>
      rw [List.filterMap_replicate_of_none hpart]
      rfl
  | some a =>
      have hhas := hkind (hpart ▸ rfl)
      rw [List.filterMap_replicate_of_some hpart, keptIf, hmerge a hpart]
      simp [hhas, hn.ne']

omit hmean in
theorem map_union_replicate {fields : List (String × Guess)} (order : Table.Ascending fields)
    (h : ∀ p ∈ fields, union (List.replicate n p.2) = p.2) :
    ((allKeys (List.replicate n fields)).map fun key =>
      (key, union (propertyGuesses (List.replicate n fields) key))) = fields := by
  rw [allKeys_replicate hn order, Table.keys, List.map_map]
  refine (List.map_congr_left fun p hp => ?_).trans (List.map_id fields)
  have hfind : Table.find? fields p.1 = some p.2 := (Table.find?_eq_some_iff order).mpr hp
  show (p.1, union ((List.replicate n fields).map fun s => (Table.find? s p.1).getD undefined)) = p
  rw [List.map_replicate, hfind, Option.getD_some, h p hp]

/-- **The union of copies of a guess is the guess**, if it stores no zero and no part without its
kind and the mean of equal masses of its kind is that mass. -/
theorem union_replicate (hzero : R 0) {g : Guess} (h : g.Formed R) (htidy : g.Everywhere Tidy) :
    union (List.replicate n g) = g := by
  induction h with
  | any => exact union_eq_any (Or.inr (List.mem_replicate.mpr ⟨hn.ne', rfl⟩))
  | @known mass shape items classes massOrder masses shapeOrder _ _ classOrder classMasses
      ihfields ihitem =>
      have hfields : ∀ fields, shape = some fields →
          ((allKeys (List.replicate n fields)).map fun key =>
            (key, union (propertyGuesses (List.replicate n fields) key))) = fields := by
        rintro fields rfl
        refine map_union_replicate hn (shapeOrder fields rfl) fun p hp => ?_
        have hfind := (Table.find?_eq_some_iff (shapeOrder fields rfl)).mpr hp
        exact ihfields fields rfl p hp (htidy.child (s := .property p.1) hfind)
      have hitem : ∀ item, items = some item → union (List.replicate n item) = item := by
        rintro item rfl
        exact ihitem item rfl (htidy.child (s := .items) rfl)
      have hne : List.replicate n (known mass shape items classes) ≠ [] := by simpa using hn.ne'
      have hknown : .any ∉ List.replicate n (known mass shape items classes) := by simp
      have hoperands : (List.replicate n (known mass shape items classes)).filterMap known? =
          List.replicate n ⟨mass, shape, items, classes⟩ :=
        List.filterMap_replicate_of_some (f := known?) rfl
      cases htidy.self with
      | known nonzero classNonzero shaped itemed classed =>
          rw [union_eq_known hne hknown, givenMasses, givenShapes, givenItems, givenClasses,
            hoperands, List.map_replicate, meanMass_replicate hmean hzero massOrder masses nonzero,
            keptIf_replicate hn ⟨mass, shape, items, classes⟩ Known.shape shaped hfields,
            keptIf_replicate hn ⟨mass, shape, items, classes⟩ Known.items itemed hitem,
            keptIf_replicate hn ⟨mass, shape, items, classes⟩ Known.classes classed fun cs hcs =>
              meanClasses_replicate hn hmean (classOrder cs hcs) (classMasses cs hcs)
                (classNonzero cs hcs)]

end Copies

/-! ## Certain guesses -/

/-- All mass on one kind, with no part but the one that belongs to it. -/
theorem tidy_certain {k : Kind} {shape : Option (List (String × Guess))} {items : Option Guess}
    {classes : Option (List (String × Float))} (shaped : shape.isSome → k = .object)
    (itemed : items.isSome → k = .array) (classed : classes.isSome → k = .ofClass)
    (classNonzero : ∀ cs, classes = some cs → ∀ p ∈ cs, (p.2 == 0) = false) :
    Tidy (.known [(k, 1)] shape items classes) := by
  have hone : ((1 : Float) == 0) = false := rfl
  have hhas : ∀ {k'}, k = k' → Table.has [(k, (1 : Float))] k' = true := by
    rintro k' rfl
    exact Table.has_iff.mpr List.mem_cons_self
  exact .known (List.forall_mem_singleton.mpr hone) classNonzero (fun h => hhas (shaped h))
    (fun h => hhas (itemed h)) fun h => hhas (classed h)

theorem tidy_ofClass (name : String) : Tidy (ofClass name) := by
  refine tidy_certain nofun nofun (fun _ => rfl) ?_
  rintro cs ⟨rfl⟩
  refine List.forall_mem_singleton.mpr ?_
  show ((1 : Float) == 0) = false
  rfl

/-- **The union of certain instances of one class is a certain instance of it.** -/
theorem union_replicate_ofClass {k : Nat} (hk : 0 < k) (h : k < 2 ^ 53) (name : String) :
    union (List.replicate k (ofClass name)) = ofClass name := by
  have hmean : ∀ x : Float, x = 0 ∨ x = 1 → mean k (List.replicate k x) = x := by
    rintro x (rfl | rfl)
    · exact mean_zeros hk fun m hm => List.eq_of_mem_replicate hm
    · exact mean_ones hk h
  exact union_replicate hk hmean (Or.inl rfl) (formed_ofClass (Or.inr rfl) name)
    (everywhere_leaf (tidy_ofClass name))

/-! ## Stable guesses -/

/-- At every depth the masses are stored ones and none is zero, so that each is one thousandth at
least (`stored_nonzero_iff`), and no part stands without its kind.  Merging copies leaves such a
guess as it is. -/
structure Stable (g : Guess) : Prop where
  formed : g.Formed Stored
  tidy : g.Everywhere Tidy

theorem Stable.union_replicate {n : Nat} (hn : 0 < n) (hlimit : n ≤ 2 ^ 32) {g : Guess}
    (h : g.Stable) : union (List.replicate n g) = g :=
  Guess.union_replicate hn (fun _ hx => mean_replicate hn hlimit hx) stored_zero h.formed h.tidy

theorem stable_any : Stable .any :=
  ⟨.any, .of_children .any nofun⟩

theorem stable_ofKind (k : Kind) : (ofKind k).Stable :=
  ⟨formed_ofKind stored_one k, everywhere_leaf (tidy_certain nofun nofun nofun nofun)⟩

theorem stable_ofClass (name : String) : (ofClass name).Stable :=
  ⟨formed_ofClass stored_one name, everywhere_leaf (tidy_ofClass name)⟩

theorem stable_object {fields : List (String × Guess)} (order : Table.Ascending fields)
    (h : ∀ p ∈ fields, p.2.Stable) : (object fields).Stable :=
  ⟨formed_object stored_one order fun p hp => (h p hp).formed,
    everywhere_object (tidy_certain (fun _ => rfl) nofun nofun nofun) fun p hp => (h p hp).tidy⟩

theorem stable_array {item : Guess} (h : item.Stable) : (array item).Stable :=
  ⟨formed_array stored_one h.formed,
    everywhere_array (tidy_certain nofun (fun _ => rfl) nofun nofun) h.tidy⟩

/-- **The union of stable guesses is stable**, so merging it with itself changes nothing more. -/
theorem stable_union {gs : List Guess} (h : ∀ g ∈ gs, g.Stable) : (union gs).Stable :=
  ⟨formed_union fun g hg => (h g hg).formed, everywhere_tidy_union gs⟩

theorem stable_certainShape {g : Guess} {fields : List (String × Guess)} (h : g.Stable)
    (hs : certainShape? g = some fields) : ∀ p ∈ fields, p.2.Stable := by
  intro p hp
  obtain ⟨mass, items, classes, rfl, -⟩ := certainShape?_eq_some_iff.mp hs
  cases h.formed with
  | known _ _ shapeOrder hfields =>
      have hfind := (Table.find?_eq_some_iff (shapeOrder fields rfl)).mpr hp
      exact ⟨hfields fields rfl p hp, h.tidy.child (s := .property p.1) hfind⟩

theorem stable_intersect {gs : List Guess} (h : ∀ g ∈ gs, g.Stable) :
    (intersect gs).Stable :=
  holds_intersect stable_any stable_union stable_certainShape
    (fun hfields => stable_object hfields.order hfields.holds) h

end ApiSurface.Guess
