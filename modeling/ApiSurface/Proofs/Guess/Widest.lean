/-
# `ApiSurface.Proofs.Guess.Widest` — what an intersection keeps

The intersection merges the shapes of the operands that are certainly objects, property by property
in order, and of two guesses for one property it keeps the one whose kinds strictly contain the
other's, the first one if neither does.  Whether one guess is wider than another is no total order,
so what stays depends on the order of the operands; but it is never narrower than a guess that was
passed over (`intersect_keeps_widest`).

The reason is that the kinds of the kept guess only grow: a guess that was passed over, or replaced,
at an earlier step would have to be wider than what was kept then.  `Kept` states this for the
guesses that were met so far, and one more guess keeps it (`Kept.wider`).
-/
import ApiSurface.Proofs.Guess.Sound

namespace ApiSurface.Guess

/-! ## One property -/

theorem strictlyWithin_iff {a b : List Kind} :
    strictlyWithin a b = true ↔ {k | k ∈ a} ⊂ {k | k ∈ b} := by
  simp [strictlyWithin, Set.ssubset_iff_exists, Set.subset_def]

/-- Of the guesses that were met, the one that is kept: an unknown one if there is one, and else
none that was met is strictly wider. -/
structure Kept (met : Guess → Prop) (w : Guess) : Prop where
  mem : met w
  unknown : met .any → w = .any
  widest : w ≠ .any → ∀ g, met g → ¬ {k | k ∈ w.kinds} ⊂ {k | k ∈ g.kinds}

theorem kept_self (g : Guess) : Kept (fun g' => g' = g) g where
  mem := rfl
  unknown := Eq.symm
  widest := by
    rintro - g' rfl
    exact ssubset_irrefl _

theorem Kept.wider {met : Guess → Prop} {w : Guess} (h : Kept met w) (g : Guess) :
    Kept (fun g' => met g' ∨ g' = g) (wider w g) := by
  cases w with
  | any => exact ⟨Or.inl h.mem, fun _ => rfl, fun hw => absurd rfl hw⟩
  | known m s i c =>
      have hknown : ¬ met .any := by
        intro hmet
        cases h.unknown hmet
      cases g with
      | any => exact ⟨Or.inr rfl, fun _ => rfl, fun hw => absurd rfl hw⟩
      | known m' s' i' c' =>
          rw [Guess.wider]
          split
          next hwithin =>
            have hgrown : {k | k ∈ positiveKinds m} ⊂ {k | k ∈ positiveKinds m'} :=
              strictlyWithin_iff.mp hwithin
            refine ⟨Or.inr rfl, ?_, ?_⟩
            · rintro (hmet | heq)
              · exact absurd hmet hknown
              · cases heq
            · rintro - g' (hmet | rfl) hss
              · exact h.widest nofun g' hmet (hgrown.trans hss)
              · exact ssubset_irrefl _ hss
          next hnot =>
            refine ⟨Or.inl h.mem, ?_, ?_⟩
            · rintro (hmet | heq)
              · exact absurd hmet hknown
              · cases heq
            · rintro - g' (hmet | rfl) hss
              · exact h.widest nofun g' hmet hss
              · exact hnot (strictlyWithin_iff.mpr hss)

/-! ## Shapes -/

/-- The shape has a guess for the properties that were met, and it is the one to keep. -/
structure Merges (met : List (String × Guess)) (shape : List (String × Guess)) : Prop where
  order : Table.Ascending shape
  kept : ∀ key w, Table.find? shape key = some w → Kept (fun g => (key, g) ∈ met) w
  covers : ∀ key g, (key, g) ∈ met → Table.has shape key = true

theorem merges_nil : Merges [] [] :=
  ⟨Table.ascending_nil, nofun, nofun⟩

/-- One more property: its guess is put against the one that is there. -/
theorem Merges.insert {met shape : List (String × Guess)} (h : Merges met shape) {key : String}
    {g w : Guess} (hw : Kept (fun g' => (key, g') ∈ met ∨ g' = g) w) :
    Merges (met ++ [(key, g)]) (Table.insert shape key w) := by
  have hmet : ∀ key' g', (key', g') ∈ met ++ [(key, g)] ↔
      (key', g') ∈ met ∨ key' = key ∧ g' = g := by
    intro key' g'
    rw [List.mem_append, List.mem_singleton, Prod.mk.injEq]
  refine ⟨Table.ascending_insert h.order key w, fun key' w' hfind => ?_, fun key' g' hg' => ?_⟩
  · simp only [hmet]
    rw [Table.find?_insert] at hfind
    by_cases hkey : key' = key
    · subst hkey
      rw [if_pos rfl] at hfind
      cases hfind
      simpa using hw
    · rw [if_neg hkey] at hfind
      simpa [hkey] using h.kept key' w' hfind
  · rw [Table.has_insert, Bool.or_eq_true, decide_eq_true_eq]
    rcases (hmet key' g').mp hg' with hg' | ⟨hkey, -⟩
    · exact Or.inr (h.covers key' g' hg')
    · exact Or.inl hkey

theorem merges_mergeShape {object : List (String × Guess)} :
    ∀ {met shape : List (String × Guess)}, Merges met shape →
      Merges (met ++ object) (mergeShape shape object) := by
  induction object with
  | nil =>
      intro met shape h
      rwa [List.append_nil]
  | cons p object ih =>
      intro met shape h
      obtain ⟨key, g⟩ := p
      rw [List.append_cons, mergeShape, List.foldl_cons]
      refine ih ?_
      split
      next old hfind => exact h.insert ((h.kept key old hfind).wider g)
      next hfind =>
        -- No guess for this property was met before.
        have hnew : ∀ g', (key, g') ∉ met := by
          intro g' hmet
          have hhas := h.covers key g' hmet
          rw [Table.has, hfind] at hhas
          cases hhas
        refine h.insert ?_
        simpa [hnew] using kept_self g

theorem merges_foldl_mergeShape {shapes : List (List (String × Guess))} :
    ∀ {met shape : List (String × Guess)}, Merges met shape →
      Merges (met ++ shapes.flatten) (shapes.foldl mergeShape shape) := by
  induction shapes with
  | nil =>
      intro met shape h
      simpa using h
  | cons object shapes ih =>
      intro met shape h
      rw [List.flatten_cons, ← List.append_assoc, List.foldl_cons]
      exact ih (merges_mergeShape h)

/-! ## The intersection -/

/-- One of the guesses is certainly an object and has this guess for the property. -/
def Offered (gs : List Guess) (key : String) (g : Guess) : Prop :=
  ∃ operand ∈ gs, ∃ fields, CertainlyObject operand fields ∧ (key, g) ∈ fields

theorem mem_certainShapes {gs : List Guess} {fields : List (String × Guess)} :
    fields ∈ (gs.filter fun g => !g.isAny).filterMap certainShape? ↔
      ∃ g ∈ gs, CertainlyObject g fields := by
  rw [List.mem_filterMap]
  constructor
  · rintro ⟨g, hg, hshape⟩
    exact ⟨g, (List.mem_filter.mp hg).1, certainShape?_eq_some_iff.mp hshape⟩
  · rintro ⟨g, hg, hshape⟩
    refine ⟨g, List.mem_filter.mpr ⟨hg, ?_⟩, certainShape?_eq_some_iff.mpr hshape⟩
    obtain ⟨mass, items, classes, rfl, -⟩ := hshape
    rfl

theorem mem_flatten_certainShapes {gs : List Guess} {key : String} {g : Guess} :
    (key, g) ∈ ((gs.filter fun g => !g.isAny).filterMap certainShape?).flatten ↔
      Offered gs key g := by
  rw [List.mem_flatten]
  constructor
  · rintro ⟨fields, hfields, hmem⟩
    obtain ⟨operand, hoperand, hshape⟩ := mem_certainShapes.mp hfields
    exact ⟨operand, hoperand, fields, hshape, hmem⟩
  · rintro ⟨operand, hoperand, fields, hshape, hmem⟩
    exact ⟨fields, mem_certainShapes.mpr ⟨operand, hoperand, hshape⟩, hmem⟩

theorem intersect_eq_object {gs : List Guess} (h : ∃ g ∈ gs, ∃ fields, CertainlyObject g fields) :
    intersect gs =
      object (((gs.filter fun g => !g.isAny).filterMap certainShape?).foldl mergeShape []) := by
  obtain ⟨g, hg, fields, hshape⟩ := h
  have hmem := mem_certainShapes.mpr ⟨g, hg, hshape⟩
  have hoperands : (gs.filter fun g => !g.isAny).isEmpty = false := by
    rw [List.isEmpty_eq_false_iff_exists_mem]
    obtain ⟨g', hg', -⟩ := List.mem_filterMap.mp hmem
    exact ⟨g', hg'⟩
  rw [intersect]
  simp only [hoperands, Bool.false_eq_true, if_false]
  split
  next hnil =>
    rw [hnil] at hmem
    cases hmem
  next => rfl

/-- **The intersection of guesses, one of which is certainly an object, has the properties that
these have between them, and keeps the widest guess for each**: one of theirs, unknown exactly if
one of theirs is, and else not strictly narrower than any of theirs. -/
theorem intersect_keeps_widest {gs : List Guess}
    (h : ∃ g ∈ gs, ∃ fields, CertainlyObject g fields) :
    ∃ kept, intersect gs = object kept ∧ Table.Ascending kept ∧
      (∀ key, Table.has kept key = true ↔ ∃ g, Offered gs key g) ∧
      ∀ key w, Table.find? kept key = some w →
        Offered gs key w ∧ (w = .any ↔ Offered gs key .any) ∧
        (w ≠ .any → ∀ g, Offered gs key g → ¬ {k | k ∈ w.kinds} ⊂ {k | k ∈ g.kinds}) := by
  have hmerges : Merges ((gs.filter fun g => !g.isAny).filterMap certainShape?).flatten
      (((gs.filter fun g => !g.isAny).filterMap certainShape?).foldl mergeShape []) :=
    merges_foldl_mergeShape merges_nil
  obtain ⟨order, kept, covers⟩ := hmerges
  simp only [mem_flatten_certainShapes] at kept covers
  refine ⟨_, intersect_eq_object h, order, fun key => ⟨fun hhas => ?_, ?_⟩, fun key w hw => ?_⟩
  · obtain ⟨w, hw⟩ := Option.isSome_iff_exists.mp hhas
    exact ⟨w, (kept key w hw).mem⟩
  · rintro ⟨g, hg⟩
    exact covers key g hg
  · have hkept := kept key w hw
    exact ⟨hkept.mem, ⟨fun heq => heq ▸ hkept.mem, hkept.unknown⟩, hkept.widest⟩

/-- Three descriptions of a box, with a number between them: the size is a text, a number or a text,
a text or a truth value, and nothing is known of the first lid. -/
def boxes : List Guess :=
  [object [("lid", .any), ("size", string)], number,
    object [("size", .known [(.number, 0.5), (.string, 0.5)] none none none)],
    object [("lid", null), ("size", .known [(.string, 0.5), (.boolean, 0.5)] none none none)]]

theorem certainlyObject_object (fields : List (String × Guess)) :
    CertainlyObject (object fields) fields :=
  ⟨_, _, _, rfl, by decide +kernel⟩

/-- The unknown lid stays, and the size that is no more than a text does not. -/
theorem intersect_boxes : (∃ g ∈ boxes, ∃ fields, CertainlyObject g fields) ∧
    ∃ kept, intersect boxes = object kept ∧ Table.find? kept "lid" = some .any ∧
      ∃ w, Table.find? kept "size" = some w ∧ w ≠ string ∧ Offered boxes "size" w := by
  have hfirst : ∃ g ∈ boxes, ∃ fields, CertainlyObject g fields :=
    ⟨_, List.mem_cons_self, _, certainlyObject_object _⟩
  have hlid : Offered boxes "lid" .any :=
    ⟨_, List.mem_cons_self, _, certainlyObject_object _, List.mem_cons_self⟩
  have hsize : Offered boxes "size" (.known [(.number, 0.5), (.string, 0.5)] none none none) :=
    ⟨_, List.mem_cons_of_mem _ (List.mem_cons_of_mem _ List.mem_cons_self), _,
      certainlyObject_object _, List.mem_cons_self⟩
  have hnarrow : {k | k ∈ kinds string} ⊂
      {k | k ∈ kinds (.known [(.number, 0.5), (.string, 0.5)] none none none)} :=
    strictlyWithin_iff.mp (by decide +kernel)
  obtain ⟨kept, heq, -, hkeys, hkept⟩ := intersect_keeps_widest hfirst
  obtain ⟨lid, hlid'⟩ := Option.isSome_iff_exists.mp ((hkeys "lid").mpr ⟨_, hlid⟩)
  obtain ⟨size, hsize'⟩ := Option.isSome_iff_exists.mp ((hkeys "size").mpr ⟨_, hsize⟩)
  refine ⟨hfirst, kept, heq, ?_, size, hsize', ?_, (hkept _ _ hsize').1⟩
  · rw [hlid', (hkept _ _ hlid').2.1.mpr hlid]
  · rintro rfl
    exact (hkept _ _ hsize').2.2 nofun _ hsize hnarrow

end ApiSurface.Guess
