/-
# `ApiSurface.Proofs.Schema.Seeding` — the entries of the host beside those that are there

Seeding gives a schema the entries of the host under the names that it does not have.  What is
looked up afterwards is what was there, or else what the host has (`find?_seeded`), so that every
constructor stays one, and an entry that passed the check passes it still.

The entries that are added have been checked beside one another only.  All but one mention no class
but their own; `Buffer.from` returns a `Buffer`, and the entry under that name may be one that was
there before and constructs nothing.  **Main result** (`violations_seeded_eq_nil_iff`): that is the
one way in which a valid schema becomes invalid, and it does happen (`takenName_has_violation`).
-/
import ApiSurface.Proofs.Schema.Missing
import ApiSurface.Schema.Standard

namespace ApiSurface

/-! ## The entries of the host -/

theorem Standard.sound_constructorEntry {S : String → Prop} {name : String} (h : S name)
    {args : List Guess} (hargs : ∀ g ∈ args, g.Sound S) :
    (constructorEntry name args).2.Sound S name :=
  ⟨hargs, Guess.sound_ofClass h, fun _ => Guess.certainlyOf_ofClass name, nofun⟩

namespace Schema

/-- All entries of the host but one are constructors, and mention no class but their own. -/
theorem sound_host : ∀ p ∈ Standard.entries,
    p.2.Sound (· = p.1) p.1 ∧ p.2.convention = .constructor ∨
      p.1 = "Buffer.from" ∧ p.2.Sound (· = "Buffer") p.1 ∧ p.2.convention = .free := by
  have hnil : ∀ {S : String → Prop}, ∀ g ∈ ([] : List Guess), g.Sound S :=
    List.forall_mem_nil _
  have hone : ∀ {S : String → Prop} {g : Guess}, g.Sound S → ∀ g' ∈ [g], g'.Sound S := fun hg =>
    List.forall_mem_singleton.mpr hg
  have hclass : ∀ (name : String) {args : List Guess}, (∀ g ∈ args, g.Sound (· = name)) →
      (Standard.constructorEntry name args).2.Sound (· = name) name ∧
        (Standard.constructorEntry name args).2.convention = .constructor := fun name _ hargs =>
    ⟨Standard.sound_constructorEntry (S := (· = name)) rfl hargs, rfl⟩
  have hoptional : ∀ {S : String → Prop}, (Guess.optional .string).Sound S := Guess.sound_union
    (List.forall_mem_cons.mpr ⟨Guess.sound_string, hone Guess.sound_undefined⟩)
  simp only [Standard.entries, List.forall_mem_cons]
  refine ⟨.inl (hclass _ hnil), .inl (hclass _ (hone Guess.sound_number)), .inl (hclass _ hnil),
    .inl (hclass _ (hone Guess.sound_number)), .inl (hclass _ (hone Guess.sound_number)),
    .inl (hclass _ (hone hoptional)), .inl (hclass _ hnil), .inr ⟨trivial, ?_, trivial⟩,
    List.forall_mem_nil _⟩
  refine ⟨hone Guess.sound_string, Guess.sound_ofClass rfl, fun he => ?_, fun he => ?_⟩
  · cases he
  · cases he

theorem mem_of_lookup {n : String} {e : Entry} (h : Standard.entries.lookup n = some e) :
    (n, e) ∈ Standard.entries := by
  obtain ⟨before, after, heq, -⟩ := List.lookup_eq_some_iff.mp h
  rw [heq]
  exact List.mem_append_right _ List.mem_cons_self

variable {s : Schema}

theorem hasConstructor_of_find? {n : String} {e : Entry} (h : s.find? n = some e)
    (he : e.convention = .constructor) : s.hasConstructor n = true := by
  rw [hasConstructor, h]
  exact beq_iff_eq.mpr he

/-- An entry whose name is that of the only class it mentions passes where it is a constructor. -/
theorem entryProblems_of_own {n : String} {e : Entry} (h : e.Sound (· = n) n)
    (he : e.convention = .constructor) (hfind : s.find? n = some e) : entryProblems s n e = [] := by
  refine entryProblems_eq_nil_of_sound h ?_ fun hmethod => ?_
  · rintro c rfl
    exact hasConstructor_of_find? hfind he
  · cases he.symm.trans hmethod

/-! ## Looking up in a seeded schema -/

theorem find?_foldl_missing (n : String) (l : List (String × Entry)) : ∀ s : Schema,
    (l.foldl (fun s p => if s.has p.1 then s else s.insert p.1 p.2) s).find? n =
      (s.find? n).or (l.lookup n) := by
  induction l with
  | nil =>
      intro s
      rw [List.foldl_nil, List.lookup_nil, Option.or_none]
  | cons p l ih =>
      obtain ⟨name, e⟩ := p
      intro s
      rw [List.foldl_cons, ih, List.lookup_cons]
      by_cases hn : n = name
      · subst hn
        rw [beq_self_eq_true]
        cases hfind : s.find? n with
        | some e' => rw [if_pos (by rw [has, hfind, Option.isSome_some]), hfind, Option.some_or,
            Option.some_or]
        | none => rw [if_neg (by simp [has, hfind]), find?_insert, if_pos rfl, Option.some_or,
            Option.none_or]
      · rw [beq_false_of_ne hn]
        split
        · rfl
        · rw [find?_insert, if_neg hn]

/-- **A seeded schema has the entry that was there, or else the one of the host.** -/
theorem find?_seeded (s : Schema) (n : String) :
    s.seeded.find? n = (s.find? n).or (Standard.entries.lookup n) :=
  find?_foldl_missing n Standard.entries s

theorem hasConstructor_seeded {c : String} (h : s.hasConstructor c = true) :
    s.seeded.hasConstructor c = true := by
  unfold hasConstructor at h ⊢
  rw [find?_seeded]
  split at h
  next e hfind =>
    rw [hfind, Option.some_or]
    exact h
  next => cases h

/-! ## The check of a seeded schema -/

/-- What the host returns from `Buffer.from` is called an instance of something that was there
before and constructs nothing. -/
def BufferTaken (s : Schema) : Prop :=
  s.find? "Buffer.from" = none ∧ ∃ e, s.find? "Buffer" = some e ∧ e.convention ≠ .constructor

theorem hasConstructor_seeded_buffer (hfrom : s.find? "Buffer.from" = none) :
    s.seeded.hasConstructor "Buffer" = false ↔ s.BufferTaken := by
  rw [hasConstructor, find?_seeded, BufferTaken, and_iff_right hfrom]
  cases s.find? "Buffer" with
  | some e => simp
  | none =>
      refine iff_of_false ?_ ?_
      · decide
      · rintro ⟨e, ⟨⟩, -⟩

/-- An entry that was there passes the check if it did before. -/
theorem entryProblems_seeded {n : String} {e : Entry} (h : entryProblems s n e = []) :
    entryProblems s.seeded n e = [] := by
  refine List.eq_nil_iff_forall_not_mem.mpr fun (path, problem) hmem => ?_
  obtain ⟨c, -, hc, hmissing⟩ := (lacks_entryProblems h problem).mp ⟨path, hmem⟩
  rw [hasConstructor_seeded (hasConstructor_of_mentions h hc)] at hmissing
  cases hmissing

/-- The host's `Buffer.from` lacks nothing but the constructor of what it returns. -/
theorem lacks_bufferFrom {e : Entry} (h : Standard.entries.lookup "Buffer.from" = some e) :
    s.Lacks (entryProblems s "Buffer.from" e) (· = "Buffer") := by
  have hpasses : entryProblems empty.seeded "Buffer.from" e = [] :=
    violations_eq_nil_iff_entries.mp (by decide +kernel) "Buffer.from" e (find?_seeded _ _ ▸ h)
  refine (lacks_entryProblems hpasses).congr fun c => ⟨?_, ?_⟩
  · intro hc
    rcases sound_host _ (mem_of_lookup h) with ⟨-, hconstructor⟩ | ⟨-, hsound, -⟩
    · cases h
      cases hconstructor
    · exact sound_of_mentions hsound hc
  · rintro rfl
    cases h
    exact .inr (.here (by decide +kernel) List.mem_cons_self)

/-- What is reported of a seeded schema that was valid before. -/
theorem bufferTaken_of_mem_violations (h : s.violations = []) {v : Violation}
    (hv : v ∈ s.seeded.violations) :
    v.entry = "Buffer.from" ∧ v.problem = .noConstructor "Buffer" ∧ s.BufferTaken := by
  obtain ⟨name, path, problem⟩ := v
  obtain ⟨e, hfind, hmem⟩ := mem_violations_iff.mp hv
  dsimp only at hfind hmem ⊢
  have hseeded := hfind
  rw [find?_seeded, Option.or_eq_some_iff] at hfind
  rcases hfind with hgiven | ⟨hnone, hhost⟩
  · rw [entryProblems_seeded (violations_eq_nil_iff_entries.mp h name e hgiven)] at hmem
    cases hmem
  · rcases sound_host _ (mem_of_lookup hhost) with ⟨hsound, hconstructor⟩ | ⟨hname, -, -⟩
    · rw [entryProblems_of_own hsound hconstructor hseeded] at hmem
      cases hmem
    · obtain rfl : name = "Buffer.from" := hname
      obtain ⟨c, rfl, rfl, hmissing⟩ := (lacks_bufferFrom hhost problem).mp ⟨path, hmem⟩
      exact ⟨rfl, rfl, (hasConstructor_seeded_buffer hnone).mp hmissing⟩

/-- **Seeding a valid schema leaves it valid**, unless `Buffer.from` comes to stand beside something
that is called `Buffer` and is no constructor; then just that is reported. -/
theorem violations_seeded_eq_nil_iff (h : s.violations = []) :
    (s.seeded.violations = [] ↔ ¬ s.BufferTaken) ∧
      ∀ v ∈ s.seeded.violations, v.entry = "Buffer.from" ∧ v.problem = .noConstructor "Buffer" := by
  refine ⟨⟨fun hnil htaken => ?_, fun hfree => ?_⟩, fun v hv => ?_⟩
  · obtain ⟨e, he⟩ : ∃ e, Standard.entries.lookup "Buffer.from" = some e :=
      Option.isSome_iff_exists.mp (by decide)
    have hmissing := (hasConstructor_seeded_buffer htaken.1).mpr htaken
    obtain ⟨path, hmem⟩ :=
      (lacks_bufferFrom he (.noConstructor "Buffer")).mpr ⟨"Buffer", rfl, rfl, hmissing⟩
    have hfind : s.seeded.find? "Buffer.from" = some e := by
      rw [find?_seeded, htaken.1, Option.none_or, he]
    have hreported : ⟨"Buffer.from", path, .noConstructor "Buffer"⟩ ∈ s.seeded.violations :=
      mem_violations_iff.mpr ⟨e, hfind, hmem⟩
    rw [hnil] at hreported
    cases hreported
  · refine List.eq_nil_iff_forall_not_mem.mpr fun v hv => ?_
    obtain ⟨-, -, htaken⟩ := bufferTaken_of_mem_violations h hv
    exact hfree htaken
  · obtain ⟨hentry, hproblem, -⟩ := bufferTaken_of_mem_violations h hv
    exact ⟨hentry, hproblem⟩

/-- A schema with a class of regular expressions of its own, and a function that takes one. -/
def grepSchema : Schema :=
  ((empty.insert "RegExp"
    { args := [.number], ret := .ofClass "RegExp", convention := .constructor }).insert "grep"
    { args := [.ofClass "RegExp", .string], ret := .boolean, convention := .free }).insert "Buffer"
    { args := [], ret := .ofClass "Buffer", convention := .constructor }

theorem violations_seeded_grepSchema : grepSchema.violations = [] ∧ ¬ grepSchema.BufferTaken ∧
    grepSchema.seeded.violations = [] := by
  have hvalid : grepSchema.violations = [] := by decide +kernel
  have hfree : ¬ grepSchema.BufferTaken := by
    rintro ⟨-, e, hfind, hother⟩
    cases hfind
    exact hother rfl
  exact ⟨hvalid, hfree, (violations_seeded_eq_nil_iff hvalid).1.mpr hfree⟩

/-- A schema with a function under the name of a class of the host. -/
def takenName : Schema :=
  empty.insert "Buffer" (.unknown 0 .free)

/-- A valid schema may be invalid once it is seeded. -/
theorem takenName_has_violation : ¬ ∀ s : Schema, s.violations = [] → s.seeded.violations = [] := by
  intro h
  have hviolations : takenName.seeded.violations =
      [⟨"Buffer.from", ".ret", .noConstructor "Buffer"⟩] := by
    decide +kernel
  cases hviolations.symm.trans (h takenName (by decide +kernel))

end Schema

end ApiSurface
