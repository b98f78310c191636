/-
# `ApiSurface.Proofs.Schema.Names` — what is left to check in a sound schema

In a schema of sound entries the check can only fail over names.  An entry under the name of a class
may be something other than its constructor, and a method may be read as one of another class than
its own because the name of the member has a dot in it.  `violations_eq_nil_iff`: there are no
violations exactly when neither happens (`Schema.Unambiguous`).
-/
import ApiSurface.Proofs.Guess.Sound

namespace ApiSurface

open Guess

/-- An entry whose guesses are sound over a set of classes.  A constructor certainly returns the
class that it is named after, and a method has a receiver that the first part of its name says. -/
structure Entry.Sound (S : String → Prop) (name : String) (e : Entry) : Prop where
  args : ∀ g ∈ e.args, g.Sound S
  ret : e.ret.Sound S
  result : e.convention = .constructor → Schema.certainlyOf name e.ret = true
  receiver : e.convention = .method →
    ∃ owner member, name = owner ++ "." ++ member ∧ e.args.head? = some (.ofClass owner)

/-- A class that an argument or the result of an entry may be an instance of. -/
def Entry.Mentions (name : String) (e : Entry) : Prop :=
  (∃ g ∈ e.args, g.Mentions name) ∨ e.ret.Mentions name

namespace Schema

/-- Every entry is sound over a set of classes. -/
def Sound (S : String → Prop) (s : Schema) : Prop :=
  ∀ name e, s.find? name = some e → e.Sound S name

/-- The names mean what they are meant to.  What stands under the name of a class is its
constructor, and the name of a member has no dot in it. -/
structure Unambiguous (s : Schema) : Prop where
  classes : ∀ name e, s.find? name = some e → ∀ c, e.Mentions c →
    ∀ e', s.find? c = some e' → e'.convention = .constructor
  members : ∀ name e, s.find? name = some e → e.convention = .method →
    ∀ owner member, name = owner ++ "." ++ member → e.args.head? = some (.ofClass owner) →
      '.' ∉ member.toList

variable {S : String → Prop}

theorem find?_eq_some_iff {s : Schema} {name : String} {e : Entry} :
    s.find? name = some e ↔ (name, e) ∈ s.entries :=
  Table.find?_eq_some_iff s.ascending

/-! ## Adding an entry -/

theorem find?_insert (s : Schema) (name : String) (e : Entry) (n : String) :
    (s.insert name e).find? n = if n = name then some e else s.find? n :=
  Table.find?_insert s.entries name e n

theorem has_insert_self (s : Schema) (name : String) (e : Entry) :
    (s.insert name e).has name = true := by
  rw [has, find?, Schema.insert, Table.find?_insert_self]
  rfl

theorem has_insert {s : Schema} {n : String} (h : s.has n = true) (name : String) (e : Entry) :
    (s.insert name e).has n = true := by
  by_cases hn : n = name
  · exact hn ▸ has_insert_self s name e
  · rw [has, find?, Schema.insert, Table.find?_insert_of_ne hn]
    exact h

theorem Sound.insert {s : Schema} (h : s.Sound S) {name : String} {e : Entry}
    (he : e.Sound S name) : (s.insert name e).Sound S := by
  intro n e' hfind
  rw [find?, Schema.insert, Table.find?_insert] at hfind
  split at hfind
  next hn =>
    cases hfind
    exact hn ▸ he
  · exact h n e' hfind

theorem sound_empty : empty.Sound S :=
  fun _ _ h => nomatch h

/-! ## The problems of a guess -/

theorem fieldProblems_eq_nil_iff {s : Schema} {fields : List (String × Guess)} (path : String) :
    fieldProblems s path fields = [] ↔
      ∀ p ∈ fields, guessProblems s (path ++ "." ++ p.1) p.2 = [] := by
  induction fields with
  | nil => simp [fieldProblems]
  | cons p fields ih =>
      obtain ⟨key, g⟩ := p
      rw [fieldProblems, List.append_eq_nil_iff, ih, List.forall_mem_cons]

theorem classProblems_eq_nil_iff {s : Schema} {classes : List (String × Float)} (path : String) :
    classProblems s path (some classes) = [] ↔ ∀ p ∈ classes, s.hasConstructor p.1 = true := by
  simp [classProblems]

theorem has_of_massIn_pos {mass : List (Kind × Float)} {k : Kind} (h : massIn mass k > 0) :
    Table.has mass k = true := by
  by_contra hnot
  rw [massIn_of_not_has (Bool.eq_false_iff.mpr hnot)] at h
  exact absurd h (by decide +kernel)

/-- The check of a sound guess asks for the constructors of the classes mentioned, and for nothing
else. -/
theorem guessProblems_eq_nil_iff {s : Schema} {g : Guess} (h : g.Sound S) :
    ∀ path, guessProblems s path g = [] ↔ ∀ c, g.Mentions c → s.hasConstructor c = true := by
  induction h with
  | any =>
      intro path
      rw [guessProblems.eq_def]
      simp only [true_iff]
      intro c hc
      cases hc
  | @known mass shape items classes shaped itemed classed fields item listed ihfields ihitem =>
      intro path
      rw [guessProblems, List.append_eq_nil_iff, List.append_eq_nil_iff]
      constructor
      · rintro ⟨⟨hshape, hitems⟩, hclasses⟩ c hc
        cases hc with
        | here possible hmem =>
            rw [if_pos possible, classProblems_eq_nil_iff] at hclasses
            exact hclasses _ hmem
        | field possible hmem inside =>
            rw [if_pos possible, shapeProblems, fieldProblems_eq_nil_iff] at hshape
            exact (ihfields _ rfl _ hmem _).mp (hshape _ hmem) c inside
        | item possible inside =>
            rw [if_pos possible, itemsProblems] at hitems
            exact (ihitem _ rfl _).mp hitems c inside
      · intro hall
        refine ⟨⟨?_, ?_⟩, ?_⟩
        · split
          next possible =>
            obtain ⟨fs, rfl⟩ := Option.isSome_iff_exists.mp (shaped (has_of_massIn_pos possible))
            rw [shapeProblems, fieldProblems_eq_nil_iff]
            exact fun p hp => (ihfields fs rfl p hp _).mpr fun c hc =>
              hall c (.field possible hp hc)
          next => rfl
        · split
          next possible =>
            obtain ⟨g, rfl⟩ := Option.isSome_iff_exists.mp (itemed (has_of_massIn_pos possible))
            rw [itemsProblems]
            exact (ihitem g rfl _).mpr fun c hc => hall c (.item possible hc)
          next => rfl
        · split
          next possible =>
            obtain ⟨cs, rfl⟩ := Option.isSome_iff_exists.mp (classed (has_of_massIn_pos possible))
            rw [classProblems_eq_nil_iff]
            intro p hp
            exact hall p.1 (.here possible hp)
          next => rfl

theorem argProblems_eq_nil_iff {s : Schema} {args : List Guess} (h : ∀ g ∈ args, g.Sound S) :
    ∀ i, argProblems s i args = [] ↔ ∀ g ∈ args, ∀ c, g.Mentions c → s.hasConstructor c = true := by
  induction args with
  | nil => simp [argProblems]
  | cons g args ih =>
      intro i
      rw [argProblems, List.append_eq_nil_iff, guessProblems_eq_nil_iff (h g List.mem_cons_self),
        ih fun g hg => h g (List.mem_cons_of_mem _ hg), List.forall_mem_cons]

/-! ## The problems of a convention -/

theorem splitLast_eq_none_iff {l : List Char} : Text.splitLast '.' l = none ↔ '.' ∉ l := by
  induction l with
  | nil => simp [Text.splitLast]
  | cons c l ih =>
      rw [Text.splitLast, List.mem_cons, not_or, ← ih]
      cases Text.splitLast '.' l with
      | some p => simp
      | none =>
          by_cases hc : c = '.'
          · simp [hc]
          · simp [hc, Ne.symm hc]

theorem splitLast_append_dot (a : List Char) {b : List Char} (h : '.' ∉ b) :
    Text.splitLast '.' (a ++ '.' :: b) = some (a, b) := by
  induction a with
  | nil =>
      rw [List.nil_append, Text.splitLast, splitLast_eq_none_iff.mpr h]
      rfl
  | cons c a ih => rw [List.cons_append, Text.splitLast, ih]

theorem splitLast_spec {l : List Char} :
    ∀ {a b : List Char}, Text.splitLast '.' l = some (a, b) → l = a ++ '.' :: b ∧ '.' ∉ b := by
  induction l with
  | nil =>
      intro a b h
      cases h
  | cons c l ih =>
      intro a b h
      rw [Text.splitLast] at h
      split at h
      next a' b' hrest =>
        cases h
        obtain ⟨heq, hb⟩ := ih hrest
        exact ⟨by rw [heq, List.cons_append], hb⟩
      next hrest =>
        split at h
        next hc =>
          cases h
          exact ⟨by rw [hc, List.nil_append], splitLast_eq_none_iff.mp hrest⟩
        · cases h

/-- The owner that is read off a name is the one the name was put together from, unless the member
has a dot in it. -/
theorem owner?_eq_iff (owner member : String) :
    Text.owner? (owner ++ "." ++ member) = some owner ↔ '.' ∉ member.toList := by
  have hlist : (owner ++ "." ++ member).toList = owner.toList ++ '.' :: member.toList := by
    simp
  rw [Text.owner?, hlist]
  constructor
  · intro h
    obtain ⟨⟨a, b⟩, hsplit, heq⟩ := Option.map_eq_some_iff.mp h
    obtain ⟨hl, hb⟩ := splitLast_spec hsplit
    have ha : a = owner.toList := by
      rw [← heq, String.toList_ofList]
    subst ha
    have hmember : member.toList = b := (List.cons.inj (List.append_cancel_left hl)).2
    exact hmember ▸ hb
  · intro h
    rw [splitLast_append_dot _ h, Option.map_some, String.ofList_toList]

theorem certainlyOf_ofClass_iff (name owner : String) :
    certainlyOf name (.ofClass owner) = true ↔ name = owner := by
  constructor
  · intro h
    by_contra hne
    rw [ofClass, certainlyOf, Table.find?_cons_of_ne hne] at h
    simp [Table.find?] at h
  · rintro rfl
    exact certainlyOf_ofClass name

theorem ofClass_injective {name owner : String} (h : Guess.ofClass name = .ofClass owner) :
    name = owner :=
  (certainlyOf_ofClass_iff name owner).mp (h ▸ certainlyOf_ofClass name)

theorem receiverProblems_eq_nil_iff {name owner : String} {e : Entry}
    (hhead : e.args.head? = some (.ofClass owner)) :
    (match Text.owner? name with
      | none => [("", Problem.noOwner)]
      | some o =>
        if e.args.head?.any (certainlyOf o) then [] else [(".args[0]", .wrongReceiver o)]) = [] ↔
      Text.owner? name = some owner := by
  cases Text.owner? name with
  | none => simp
  | some o => simp [hhead, certainlyOf_ofClass_iff]

theorem conventionProblems_eq_nil_iff {name : String} {e : Entry} (h : e.Sound S name) :
    conventionProblems name e = [] ↔ (e.convention = .method →
      ∀ owner member, name = owner ++ "." ++ member → e.args.head? = some (.ofClass owner) →
        '.' ∉ member.toList) := by
  rw [conventionProblems]
  cases hconv : e.convention with
  | free => simp
  | constructor => simp [h.result hconv]
  | method =>
      obtain ⟨owner, member, hname, hhead⟩ := h.receiver hconv
      -- Both sides say that the owner read off the name is the class of the receiver.
      refine (receiverProblems_eq_nil_iff hhead).trans ?_
      rw [forall_prop_of_true rfl, hname, owner?_eq_iff]
      constructor
      · intro hdot owner' member' heq hhead'
        obtain rfl : owner = owner' := by
          rw [hhead, Option.some.injEq] at hhead'
          exact ofClass_injective hhead'
        have hmember : member = member' := by
          have hlist := congrArg String.toList heq
          simp only [String.toList_append] at hlist
          exact String.toList_inj.mp (List.append_cancel_left hlist)
        exact hmember ▸ hdot
      · intro hall
        exact hall owner member rfl hhead

/-! ## The verdict -/

theorem hasConstructor_iff {s : Schema} {c : String} (h : s.has c = true) :
    s.hasConstructor c = true ↔ ∀ e, s.find? c = some e → e.convention = .constructor := by
  obtain ⟨e, he⟩ := Option.isSome_iff_exists.mp h
  rw [hasConstructor, he]
  simp

theorem sound_of_mentions {name : String} {e : Entry} (h : e.Sound S name) {c : String}
    (hc : e.Mentions c) : S c := by
  rcases hc with ⟨g, hg, hc⟩ | hc
  · exact (h.args g hg).of_mentions hc
  · exact h.ret.of_mentions hc

theorem violations_eq_nil_iff_entries {s : Schema} :
    s.violations = [] ↔ ∀ name e, s.find? name = some e → entryProblems s name e = [] := by
  simp only [violations, List.flatMap_eq_nil_iff, List.map_eq_nil_iff, find?_eq_some_iff,
    Prod.forall]

/-- **A sound schema whose classes all have entries passes the check exactly when its names are
unambiguous.** -/
theorem violations_eq_nil_iff {s : Schema} (h : s.Sound S) (hS : ∀ c, S c → s.has c = true) :
    s.violations = [] ↔ s.Unambiguous := by
  have hentry : ∀ name e, s.find? name = some e → (entryProblems s name e = [] ↔
      (∀ c, e.Mentions c → s.hasConstructor c = true) ∧ conventionProblems name e = []) := by
    intro name e he
    have hsound := h name e he
    rw [entryProblems, List.append_eq_nil_iff, List.append_eq_nil_iff,
      argProblems_eq_nil_iff hsound.args, guessProblems_eq_nil_iff hsound.ret]
    refine and_congr_left fun _ => ⟨?_, ?_⟩
    · rintro ⟨hargs, hret⟩ c (⟨g, hg, hc⟩ | hc)
      · exact hargs g hg c hc
      · exact hret c hc
    · exact fun hall => ⟨fun g hg c hc => hall c (Or.inl ⟨g, hg, hc⟩), fun c hc =>
        hall c (Or.inr hc)⟩
  rw [violations_eq_nil_iff_entries]
  constructor
  · intro hnil
    refine ⟨fun name e he c hc => ?_, fun name e he => ?_⟩
    · have hctor := ((hentry name e he).mp (hnil name e he)).1 c hc
      have hhas := hS c (sound_of_mentions (h name e he) hc)
      exact (hasConstructor_iff hhas).mp hctor
    · exact (conventionProblems_eq_nil_iff (h name e he)).mp
        ((hentry name e he).mp (hnil name e he)).2
  · intro hu name e he
    refine (hentry name e he).mpr ⟨fun c hc => ?_, ?_⟩
    · have hhas := hS c (sound_of_mentions (h name e he) hc)
      exact (hasConstructor_iff hhas).mpr (hu.classes name e he c hc)
    · exact (conventionProblems_eq_nil_iff (h name e he)).mpr (hu.members name e he)

end Schema

end ApiSurface
