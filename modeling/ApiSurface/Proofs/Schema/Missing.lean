/-
# `ApiSurface.Proofs.Schema.Missing` — what is reported when constructors go missing

The check looks at a guess part by part, and the only thing that it asks the schema about is whether
a class has a constructor.  So an entry that passes in one schema has, in any other, exactly the
problems that the classes it mentions lack a constructor there (`lacks_entryProblems`): one
induction over the guess, with one lemma for each of the functions that the check is made of.
-/
import ApiSurface.Proofs.Schema.Names

namespace ApiSurface.Schema

open Guess

variable {s₀ s : Schema}

/-- The problems are that classes of the set have no constructor in the schema, each somewhere. -/
def Lacks (s : Schema) (problems : List (String × Problem)) (M : String → Prop) : Prop :=
  ∀ q, (∃ path, (path, q) ∈ problems) ↔ ∃ c, q = .noConstructor c ∧ M c ∧ s.hasConstructor c = false

theorem Lacks.nil (s : Schema) : s.Lacks [] fun _ => False := by
  intro q
  constructor
  · rintro ⟨path, hmem⟩
    cases hmem
  · rintro ⟨c, -, hfalse, -⟩
    exact hfalse.elim

theorem Lacks.append {ps ps' : List (String × Problem)} {M M' : String → Prop} (h : s.Lacks ps M)
    (h' : s.Lacks ps' M') : s.Lacks (ps ++ ps') fun c => M c ∨ M' c := by
  intro q
  simp only [List.mem_append, exists_or, h q, h' q, or_and_right, and_or_left]

theorem Lacks.congr {ps : List (String × Problem)} {M M' : String → Prop} (h : s.Lacks ps M)
    (hM : ∀ c, M c ↔ M' c) : s.Lacks ps M' := by
  intro q
  simp only [h q, hM]

/-- Parts that are looked at only if there is mass on their kind. -/
theorem Lacks.ite {p : Prop} [Decidable p] {ps : List (String × Problem)} {M : String → Prop}
    (h : p → s.Lacks ps M) : s.Lacks (if p then ps else []) fun c => p ∧ M c := by
  split
  next hp => exact (h hp).congr fun c => (and_iff_right hp).symm
  next hp => exact (Lacks.nil s).congr fun c => ⟨False.elim, fun hc => hp hc.1⟩

theorem lacks_classes {path₀ : String} {classes : Option (List (String × Float))}
    (h : classProblems s₀ path₀ classes = []) (path : String) :
    s.Lacks (classProblems s path classes)
      fun c => ∃ listed, classes = some listed ∧ ∃ x, (c, x) ∈ listed := by
  cases classes with
  | none => cases h
  | some listed =>
      intro q
      simp only [classProblems, List.mem_map, List.mem_filter, Prod.mk.injEq, Option.some.injEq,
        exists_eq_left']
      constructor
      · rintro ⟨_, p, ⟨hp, hmissing⟩, -, rfl⟩
        exact ⟨p.1, rfl, ⟨p.2, hp⟩, by simpa using hmissing⟩
      · rintro ⟨c, rfl, ⟨x, hx⟩, hmissing⟩
        exact ⟨path, (c, x), ⟨hx, by simpa using hmissing⟩, rfl, rfl⟩

mutual

/-- A guess without problems in one schema only lacks constructors in another one. -/
theorem lacks_guess : ∀ (g : Guess) {path₀ : String}, guessProblems s₀ path₀ g = [] →
    ∀ path, s.Lacks (guessProblems s path g) fun c => g.Mentions c
  | .any, _, _, path => by
      rw [guessProblems.eq_def]
      refine (Lacks.nil s).congr fun c => ⟨False.elim, fun hc => ?_⟩
      cases hc
  | .known mass shape items classes, path₀, h, path => by
      rw [guessProblems, List.append_eq_nil_iff, List.append_eq_nil_iff] at h
      obtain ⟨⟨hshape, hitems⟩, hclasses⟩ := h
      rw [guessProblems]
      have hparts := ((Lacks.ite fun hpos : massIn mass .object > 0 =>
          lacks_shape shape (by rwa [if_pos hpos] at hshape) path).append
        (Lacks.ite fun hpos : massIn mass .array > 0 =>
          lacks_items items (by rwa [if_pos hpos] at hitems) path)).append
        (Lacks.ite fun hpos : massIn mass .ofClass > 0 =>
          lacks_classes (by rwa [if_pos hpos] at hclasses) path)
      refine hparts.congr fun c => ?_
      constructor
      · rintro ((⟨hpos, fields, rfl, p, hp, hc⟩ | ⟨hpos, g, rfl, hc⟩) | ⟨hpos, listed, rfl, x, hx⟩)
        · exact .field hpos hp hc
        · exact .item hpos hc
        · exact .here hpos hx
      · intro hc
        cases hc with
        | here hpos hx => exact Or.inr ⟨hpos, _, rfl, _, hx⟩
        | field hpos hp hc => exact Or.inl (Or.inl ⟨hpos, _, rfl, _, hp, hc⟩)
        | item hpos hc => exact Or.inl (Or.inr ⟨hpos, _, rfl, hc⟩)

theorem lacks_shape : ∀ (shape : Option (List (String × Guess))) {path₀ : String},
    shapeProblems s₀ path₀ shape = [] → ∀ path, s.Lacks (shapeProblems s path shape)
      fun c => ∃ fields, shape = some fields ∧ ∃ p ∈ fields, p.2.Mentions c
  | none, _, h, _ => by cases h
  | some fields, path₀, h, path => by
      rw [shapeProblems] at h ⊢
      refine (lacks_fields fields h path).congr fun c => ?_
      simp only [Option.some.injEq, exists_eq_left']

theorem lacks_fields : ∀ (fields : List (String × Guess)) {path₀ : String},
    fieldProblems s₀ path₀ fields = [] → ∀ path, s.Lacks (fieldProblems s path fields)
      fun c => ∃ p ∈ fields, p.2.Mentions c
  | [], _, _, path => by
      rw [fieldProblems]
      exact (Lacks.nil s).congr fun c => ⟨False.elim, fun ⟨_, hp, _⟩ => nomatch hp⟩
  | (k, g) :: fields, path₀, h, path => by
      rw [fieldProblems, List.append_eq_nil_iff] at h
      rw [fieldProblems]
      refine ((lacks_guess g h.1 _).append (lacks_fields fields h.2 _)).congr fun c => ?_
      simp only [List.mem_cons, exists_eq_or_imp]

theorem lacks_items : ∀ (items : Option Guess) {path₀ : String},
    itemsProblems s₀ path₀ items = [] → ∀ path, s.Lacks (itemsProblems s path items)
      fun c => ∃ g, items = some g ∧ g.Mentions c
  | none, _, h, _ => by cases h
  | some g, path₀, h, path => by
      rw [itemsProblems] at h ⊢
      refine (lacks_guess g h _).congr fun c => ?_
      simp only [Option.some.injEq, exists_eq_left']

end

theorem lacks_args (args : List Guess) : ∀ {i₀ : Nat}, argProblems s₀ i₀ args = [] →
    ∀ i, s.Lacks (argProblems s i args) fun c => ∃ g ∈ args, g.Mentions c := by
  induction args with
  | nil =>
      intro _ _ i
      exact (Lacks.nil s).congr fun c => ⟨False.elim, fun ⟨_, hg, _⟩ => nomatch hg⟩
  | cons g args ih =>
      intro i₀ h i
      rw [argProblems, List.append_eq_nil_iff] at h
      rw [argProblems]
      refine ((lacks_guess g h.1 _).append (ih h.2 _)).congr fun c => ?_
      simp only [List.mem_cons, exists_eq_or_imp]

/-- **An entry without problems in one schema only lacks constructors in another one**, those of the
classes that it mentions. -/
theorem lacks_entryProblems {name : String} {e : Entry} (h : entryProblems s₀ name e = []) :
    s.Lacks (entryProblems s name e) fun c => e.Mentions c := by
  rw [entryProblems, List.append_eq_nil_iff, List.append_eq_nil_iff] at h
  obtain ⟨⟨hargs, hret⟩, hconvention⟩ := h
  rw [entryProblems, hconvention, List.append_nil]
  exact (lacks_args e.args hargs 0).append (lacks_guess e.ret hret _)

/-- A class that is mentioned without a problem has a constructor. -/
theorem hasConstructor_of_mentions {name : String} {e : Entry} (h : entryProblems s name e = [])
    {c : String} (hc : e.Mentions c) : s.hasConstructor c = true := by
  by_contra hmissing
  obtain ⟨path, hmem⟩ := (lacks_entryProblems h _).mpr
    ⟨c, rfl, hc, Bool.eq_false_iff.mpr hmissing⟩
  rw [h] at hmem
  cases hmem

theorem mem_violations_iff {v : Violation} : v ∈ s.violations ↔
    ∃ e, s.find? v.entry = some e ∧ (v.path, v.problem) ∈ entryProblems s v.entry e := by
  simp only [violations, List.mem_flatMap, List.mem_map]
  constructor
  · rintro ⟨p, hp, q, hq, rfl⟩
    exact ⟨p.2, find?_eq_some_iff.mpr hp, hq⟩
  · rintro ⟨e, he, hmem⟩
    exact ⟨(v.entry, e), find?_eq_some_iff.mp he, (v.path, v.problem), hmem, rfl⟩

/-- A sound entry passes if the classes of the set have constructors and the name of a method is
read as it was put together. -/
theorem entryProblems_eq_nil_of_sound {S : String → Prop} {name : String} {e : Entry}
    (h : e.Sound S name) (hS : ∀ c, S c → s.hasConstructor c = true)
    (hmember : e.convention = .method → ∀ owner member, name = owner ++ "." ++ member →
      e.args.head? = some (.ofClass owner) → '.' ∉ member.toList) :
    entryProblems s name e = [] := by
  rw [entryProblems, List.append_eq_nil_iff, List.append_eq_nil_iff]
  refine ⟨⟨?_, ?_⟩, (conventionProblems_eq_nil_iff h).mpr hmember⟩
  · exact (argProblems_eq_nil_iff h.args 0).mpr fun g hg c hc => hS c ((h.args g hg).of_mentions hc)
  · exact (guessProblems_eq_nil_iff h.ret _).mpr fun c hc => hS c (h.ret.of_mentions hc)

end ApiSurface.Schema
