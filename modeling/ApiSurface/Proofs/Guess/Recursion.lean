/-
# `ApiSurface.Proofs.Guess.Recursion` — the union without its bound on depth

The union counts down how deep the operands are nested.  Any two bounds that reach the deepest
operand give the same (`unionTo_eq_unionTo`), since what is nested in a guess is less deep than the
guess, and the undefined value that stands in for a missing property is as shallow as a guess can
be.  So the bound can be forgotten: without operands or with an unknown one the union is unknown
(`union_eq_any`), and else it merges the parts of its operands and calls itself for what is nested
in them (`union_eq_known`).
-/
import ApiSurface.Proofs.Guess.Formed

namespace ApiSurface.Guess

open Decimal

/-! ## What the operands give -/

/-- The shapes of the guesses that have one. -/
def givenShapes (gs : List Guess) : List (List (String × Guess)) :=
  (gs.filterMap known?).filterMap Known.shape

/-- The guesses for items of the guesses that have one. -/
def givenItems (gs : List Guess) : List Guess :=
  (gs.filterMap known?).filterMap Known.items

/-- The distributions over classes of the guesses that have one. -/
def givenClasses (gs : List Guess) : List (List (String × Float)) :=
  (gs.filterMap known?).filterMap Known.classes

/-- The distributions over kinds of the known guesses. -/
def givenMasses (gs : List Guess) : List (List (Kind × Float)) :=
  (gs.filterMap known?).map Known.mass

theorem mem_givenShapes {gs : List Guess} {fields : List (String × Guess)} :
    fields ∈ givenShapes gs ↔
      ∃ mass items classes, .known mass (some fields) items classes ∈ gs := by
  rw [givenShapes, List.mem_filterMap]
  constructor
  · rintro ⟨⟨mass, shape, items, classes⟩, ho, rfl⟩
    exact ⟨mass, items, classes, mem_filterMap_known?.mp ho⟩
  · rintro ⟨mass, items, classes, hg⟩
    exact ⟨⟨mass, some fields, items, classes⟩, mem_filterMap_known?.mpr hg, rfl⟩

theorem mem_givenItems {gs : List Guess} {item : Guess} :
    item ∈ givenItems gs ↔ ∃ mass shape classes, .known mass shape (some item) classes ∈ gs := by
  rw [givenItems, List.mem_filterMap]
  constructor
  · rintro ⟨⟨mass, shape, items, classes⟩, ho, rfl⟩
    exact ⟨mass, shape, classes, mem_filterMap_known?.mp ho⟩
  · rintro ⟨mass, shape, classes, hg⟩
    exact ⟨⟨mass, shape, some item, classes⟩, mem_filterMap_known?.mpr hg, rfl⟩

theorem mem_givenClasses {gs : List Guess} {cs : List (String × Float)} :
    cs ∈ givenClasses gs ↔ ∃ mass shape items, .known mass shape items (some cs) ∈ gs := by
  rw [givenClasses, List.mem_filterMap]
  constructor
  · rintro ⟨⟨mass, shape, items, classes⟩, ho, rfl⟩
    exact ⟨mass, shape, items, mem_filterMap_known?.mp ho⟩
  · rintro ⟨mass, shape, items, hg⟩
    exact ⟨⟨mass, shape, items, some cs⟩, mem_filterMap_known?.mpr hg, rfl⟩

theorem mem_givenMasses {gs : List Guess} {mass : List (Kind × Float)} :
    mass ∈ givenMasses gs ↔ ∃ shape items classes, .known mass shape items classes ∈ gs := by
  rw [givenMasses, List.mem_map]
  constructor
  · rintro ⟨⟨mass, shape, items, classes⟩, ho, rfl⟩
    exact ⟨shape, items, classes, mem_filterMap_known?.mp ho⟩
  · rintro ⟨shape, items, classes, hg⟩
    exact ⟨⟨mass, shape, items, classes⟩, mem_filterMap_known?.mpr hg, rfl⟩

theorem givenMasses_ne_nil {gs : List Guess} (hne : gs ≠ []) (h : .any ∉ gs) :
    givenMasses gs ≠ [] :=
  fun hnil => filterMap_known?_ne_nil hne h (List.map_eq_nil_iff.mp hnil)

/-! ## Depth -/

theorem depth_pos (g : Guess) : 1 ≤ depth g := by
  cases g with
  | any => exact Nat.le_refl 1
  | known mass shape items classes =>
      rw [depth]
      exact Nat.le_add_left ..

theorem depth_le_maxDepth {gs : List Guess} {g : Guess} (h : g ∈ gs) : depth g ≤ maxDepth gs := by
  have hfold : ∀ (ds : List Nat) (b : Nat), b ≤ ds.foldl max b ∧ ∀ d ∈ ds, d ≤ ds.foldl max b := by
    intro ds
    induction ds with
    | nil => exact fun b => ⟨Nat.le_refl b, nofun⟩
    | cons d ds ih =>
        intro b
        obtain ⟨hstart, hall⟩ := ih (max b d)
        refine ⟨le_trans (le_max_left b d) hstart, List.forall_mem_cons.mpr ⟨?_, hall⟩⟩
        exact le_trans (le_max_right b d) hstart
  exact (hfold (gs.map depth) 1).2 _ (List.mem_map_of_mem h)

theorem depth_le_fieldsDepth {fields : List (String × Guess)} {p : String × Guess}
    (h : p ∈ fields) : depth p.2 ≤ fieldsDepth fields := by
  induction fields with
  | nil => cases h
  | cons q fields ih =>
      obtain ⟨key, g⟩ := q
      rw [fieldsDepth]
      rcases List.mem_cons.mp h with rfl | h
      · exact le_max_left ..
      · exact le_trans (ih h) (le_max_right ..)

/-- Properties of the operands are less deep than the operands, and so is the undefined value that
stands in for one, if there is one at all. -/
theorem depth_le_of_propertyGuesses {gs : List Guess} {n : Nat} (h : ∀ g ∈ gs, depth g ≤ n + 1)
    {key : String} (hkey : key ∈ allKeys (givenShapes gs)) :
    ∀ g ∈ propertyGuesses (givenShapes gs) key, depth g ≤ n := by
  have hfields : ∀ fields ∈ givenShapes gs, ∀ p ∈ fields, depth p.2 ≤ n := by
    intro fields hfields p hp
    obtain ⟨mass, items, classes, hg⟩ := mem_givenShapes.mp hfields
    have hdepth := Nat.le_of_succ_le_succ (h _ hg)
    rw [shapeDepth] at hdepth
    exact le_trans (depth_le_fieldsDepth hp) (le_trans (le_max_left ..) hdepth)
  obtain ⟨fields, hmem, g, hg⟩ := mem_allKeys_iff.mp hkey
  exact forall_propertyGuesses (P := fun g => depth g ≤ n)
    (le_trans (depth_pos g) (hfields _ hmem _ hg)) hfields key

theorem depth_le_of_givenItems {gs : List Guess} {n : Nat} (h : ∀ g ∈ gs, depth g ≤ n + 1) :
    ∀ g ∈ givenItems gs, depth g ≤ n := by
  intro g hg
  obtain ⟨mass, shape, classes, hg⟩ := mem_givenItems.mp hg
  have hdepth := Nat.le_of_succ_le_succ (h _ hg)
  rw [itemsDepth] at hdepth
  exact le_trans (le_max_right ..) hdepth

/-- A union looks at the merging of nested guesses only for what the operands give. -/
theorem unionKnown_congr {merge merge' : List Guess → Guess} {gs : List Guess}
    (hshape : ∀ key ∈ allKeys (givenShapes gs),
      merge (propertyGuesses (givenShapes gs) key) = merge' (propertyGuesses (givenShapes gs) key))
    (hitems : merge (givenItems gs) = merge' (givenItems gs)) :
    unionKnown merge (gs.filterMap known?) = unionKnown merge' (gs.filterMap known?) := by
  have hfields : (allKeys (givenShapes gs)).map
        (fun key => (key, merge (propertyGuesses (givenShapes gs) key))) =
      (allKeys (givenShapes gs)).map
        fun key => (key, merge' (propertyGuesses (givenShapes gs) key)) :=
    List.map_congr_left fun key hkey => by rw [hshape key hkey]
  simp only [givenShapes, givenItems] at hfields hitems
  simp only [unionKnown, keptIf, hfields, hitems]

/-- **Every bound that reaches the deepest operand gives the same union.** -/
theorem unionTo_eq_unionTo {gs : List Guess} {n n' : Nat} (h : ∀ g ∈ gs, depth g ≤ n)
    (h' : ∀ g ∈ gs, depth g ≤ n') : unionTo n gs = unionTo n' gs := by
  induction n generalizing gs n' with
  | zero =>
      have hnil : gs = [] := List.eq_nil_iff_forall_not_mem.mpr fun g hg =>
        Nat.not_succ_le_zero 0 (le_trans (depth_pos g) (h g hg))
      rw [unionTo_eq_any (Or.inl hnil), unionTo_eq_any (Or.inl hnil)]
  | succ n ih =>
      by_cases hunknown : gs = [] ∨ .any ∈ gs
      · rw [unionTo_eq_any hunknown, unionTo_eq_any hunknown]
      · obtain ⟨hne, hknown⟩ := not_or.mp hunknown
        obtain ⟨g, hg⟩ := List.exists_mem_of_ne_nil gs hne
        obtain ⟨n', rfl⟩ := Nat.exists_eq_succ_of_ne_zero
          (Nat.ne_of_gt (le_trans (depth_pos g) (h' g hg)))
        rw [unionTo_succ hne hknown, unionTo_succ hne hknown]
        refine unionKnown_congr (fun key hkey => ?_) ?_
        · exact ih (depth_le_of_propertyGuesses h hkey) (depth_le_of_propertyGuesses h' hkey)
        · exact ih (depth_le_of_givenItems h) (depth_le_of_givenItems h')

/-! ## The equation of the union -/

theorem union_eq_unionTo {gs : List Guess} {n : Nat} (h : ∀ g ∈ gs, depth g ≤ n) :
    union gs = unionTo n gs :=
  unionTo_eq_unionTo (fun _ hg => Nat.le_succ_of_le (depth_le_maxDepth hg)) h

theorem union_eq_any {gs : List Guess} (h : gs = [] ∨ .any ∈ gs) : union gs = .any :=
  unionTo_eq_any h _

/-- **The union of known guesses**, where what is nested in them is merged by the union again. -/
theorem union_eq_known {gs : List Guess} (hne : gs ≠ []) (h : .any ∉ gs) :
    union gs = .known (meanMass (givenMasses gs))
      (keptIf (meanMass (givenMasses gs)) .object (givenShapes gs) fun shapes =>
        (allKeys shapes).map fun key => (key, union (propertyGuesses shapes key)))
      (keptIf (meanMass (givenMasses gs)) .array (givenItems gs) union)
      (keptIf (meanMass (givenMasses gs)) .ofClass (givenClasses gs) meanClasses) := by
  have hbelow : ∀ g ∈ gs, depth g ≤ maxDepth gs + 1 :=
    fun g hg => Nat.le_succ_of_le (depth_le_maxDepth hg)
  have hmerge : unionKnown (unionTo (maxDepth gs)) (gs.filterMap known?) =
      unionKnown union (gs.filterMap known?) :=
    unionKnown_congr
      (fun key hkey => (union_eq_unionTo (depth_le_of_propertyGuesses hbelow hkey)).symm)
      (union_eq_unionTo (depth_le_of_givenItems hbelow)).symm
  rw [union, unionTo_succ hne h, hmerge]
  rfl

theorem union_eq_any_iff {gs : List Guess} (hne : gs ≠ []) : union gs = .any ↔ .any ∈ gs := by
  refine ⟨fun heq => ?_, fun h => union_eq_any (Or.inr h)⟩
  by_contra h
  rw [union_eq_known hne h] at heq
  cases heq

end ApiSurface.Guess
