/-
# `ApiSurface.Proofs.Declaration.Regions` — what a class adds, in whatever order

The entries that an item or a class brings are all under its own name: that name itself, or the name
with a dot and a member's name after it.  Names of declarations have no dot in them, so the entries
fall into regions, one for every name, and what is written in one region leaves the others as they
are.

Emission goes by what is there: a class takes arguments and methods over from its parent, and a
class whose name is claimed is passed over.  Still the region of a class is settled by the class
alone (`Region.unique`): its parent's region is complete before its own is begun, unless the class
is its own ancestor (`regional_class`).
-/
import ApiSurface.Proofs.Declaration.Blame
import ApiSurface.Proofs.Declaration.ClassNames

namespace ApiSurface

/-! ## Names under an owner -/

/-- The name is the owner's own, or that of a member of the owner. -/
def Under (owner n : String) : Prop :=
  n = owner ∨ ∃ m, n = owner ++ "." ++ m

theorem Under.self (owner : String) : Under owner owner :=
  Or.inl rfl

theorem Under.member (owner m : String) : Under owner (owner ++ "." ++ m) :=
  Or.inr ⟨m, rfl⟩

/-- The name has no dot in it. -/
def Undotted (n : String) : Prop :=
  '.' ∉ n.toList

theorem Under.exists_tail {owner n : String} (h : Under owner n) :
    ∃ r, n.toList = owner.toList ++ r ∧ (r = [] ∨ ∃ r', r = '.' :: r') := by
  rcases h with rfl | ⟨m, rfl⟩
  · exact ⟨[], (List.append_nil _).symm, Or.inl rfl⟩
  · exact ⟨'.' :: m.toList, by simp, Or.inr ⟨_, rfl⟩⟩

/-- A name is under one owner only. -/
theorem Under.unique {owner owner' n : String} (hdot : Undotted owner) (hdot' : Undotted owner')
    (h : Under owner n) (h' : Under owner' n) : owner = owner' := by
  obtain ⟨r, hr, htail⟩ := h.exists_tail
  obtain ⟨r', hr', htail'⟩ := h'.exists_tail
  have hsame := Declaration.eq_of_append_dot hdot hdot' htail htail' (hr.symm.trans hr')
  exact String.toList_injective hsame.1

namespace Schema

/-- Schemas with the same entries are the same. -/
theorem ext_find? {s t : Schema} (h : ∀ n, s.find? n = t.find? n) : s = t := by
  obtain ⟨entries, hs⟩ := s
  obtain ⟨entries', ht⟩ := t
  obtain rfl := Table.eq_of_find? hs ht h
  rfl

/-- The two schemas agree on what is under the owner. -/
def SameUnder (owner : String) (s t : Schema) : Prop :=
  ∀ n, Under owner n → s.find? n = t.find? n

variable {owner : String} {s t u : Schema}

theorem SameUnder.symm (h : SameUnder owner s t) : SameUnder owner t s :=
  fun n hn => (h n hn).symm

theorem SameUnder.trans (h : SameUnder owner s t) (h' : SameUnder owner t u) :
    SameUnder owner s u :=
  fun n hn => (h n hn).trans (h' n hn)

theorem find?_insert_congr {n : String} (h : s.find? n = t.find? n) (name : String) (e : Entry) :
    (s.insert name e).find? n = (t.insert name e).find? n := by
  rw [find?_insert, find?_insert, h]

theorem find?_writes_congr {n : String} (es : List (String × Entry)) :
    ∀ {s t : Schema}, s.find? n = t.find? n → (s.writes es).find? n = (t.writes es).find? n := by
  induction es with
  | nil => exact id
  | cons p es ih => exact fun h => ih (find?_insert_congr h p.1 p.2)

theorem SameUnder.writes (h : SameUnder owner s t) (es : List (String × Entry)) :
    SameUnder owner (s.writes es) (t.writes es) :=
  fun n hn => find?_writes_congr es (h n hn)

end Schema

namespace Declaration

open Conversion Relation

/-! ## What inheritance reads and writes -/

section Inheriting

variable {s t : Schema} {name : String}

theorem under_of_memberUnder? {owner n m : String} (h : memberUnder? owner n = some m) :
    Under owner n := by
  obtain ⟨rest, hrest, -⟩ := Option.bind_eq_some_iff.mp h
  unfold Text.after? at hrest
  split at hrest
  next hstart =>
    obtain ⟨tail, htail⟩ := List.isPrefixOf_iff_prefix.mp hstart
    exact Or.inr ⟨String.ofList tail, String.toList_injective (by simp [← htail])⟩
  · cases hrest

/-- Which methods there are to inherit is said by what is under the parent. -/
theorem inheritedMethods_congr {parent : String} (h : s.SameUnder parent t)
    (defined : List String) :
    inheritedMethods s parent defined = inheritedMethods t parent defined := by
  -- Entries elsewhere give nothing, so they may be left out; the rest of the tables is the same.
  let here : String → Bool := fun n => (memberUnder? parent n).isSome
  have hrest : ∀ s : Schema, inheritedMethods s parent defined =
      inheritedMethods (s.filter fun n _ => here n) parent defined := by
    intro s
    simp only [inheritedMethods, Schema.filter, List.filterMap_filter]
    refine List.filterMap_congr fun p _ => ?_
    cases hp : here p.1 with
    | true => rfl
    | false =>
        have hnone : memberUnder? parent p.1 = none := by simpa [here] using hp
        simp [hnone]
  have hsame : (s.filter fun n _ => here n) = t.filter fun n _ => here n := by
    refine Schema.ext_find? fun n => ?_
    show Table.find? (s.entries.filter fun p => here p.1) n =
      Table.find? (t.entries.filter fun p => here p.1) n
    rw [Table.find?_filter, Table.find?_filter]
    split
    next hn =>
      obtain ⟨m, hm⟩ := Option.isSome_iff_exists.mp hn
      exact h n (under_of_memberUnder? hm)
    · rfl
  rw [hrest s, hrest t, hsame]

theorem find?_foldl_inherit_of_not_under {n : String} (hn : ¬ Under name n) (receiver : Guess)
    (ms : List (String × Entry)) (s : Schema) :
    (ms.foldl (inherit name receiver) s).find? n = s.find? n := by
  refine List.foldlRecOn (motive := fun t : Schema => t.find? n = s.find? n) _ _ rfl
    fun t ht m _ => ?_
  rw [find?_inherit_of_ne, ht]
  rintro rfl
  exact hn (.member name m.1)

theorem sameUnder_inherit (h : s.SameUnder name t) (receiver : Guess) (m : String × Entry) :
    (inherit name receiver s m).SameUnder name (inherit name receiver t m) := by
  intro n hn
  have hentry := h _ (.member name m.1)
  unfold inherit
  simp only [hentry]
  split
  · split
    · exact h n hn
    · exact Schema.find?_insert_congr (h n hn) _ _
  · exact Schema.find?_insert_congr (h n hn) _ _

theorem sameUnder_foldl_inherit (receiver : Guess) (ms : List (String × Entry)) :
    ∀ {s t : Schema}, s.SameUnder name t →
      (ms.foldl (inherit name receiver) s).SameUnder name (ms.foldl (inherit name receiver) t) := by
  induction ms with
  | nil => exact id
  | cons m ms ih => exact fun h => ih (sameUnder_inherit h receiver m)

end Inheriting

/-! ## What a class writes -/

namespace ClassEntries

variable {es : ClassEntries} {name : String}

theorem under_of_mem_names (hes : es.Formed name) {n : String} (h : n ∈ es.names name) :
    Under name n := by
  rcases List.mem_append.mp h with h | h
  · rcases List.mem_cons.mp h with rfl | h
    · exact .self n
    · rw [hes.methods] at h
      obtain ⟨m, -, rfl⟩ := List.mem_map.mp h
      exact .member name m
  · obtain ⟨p, hp, rfl⟩ := List.mem_map.mp h
    obtain ⟨m, -, hm⟩ := hes.statics p hp
    exact hm ▸ .member name m

/-- A class writes nothing but under its own name. -/
theorem find?_writesAll_of_not_under (hes : es.Formed name) {n : String} (hn : ¬ Under name n)
    (parent : Option String) (s : Schema) :
    (es.writesAll name parent s).find? n = s.find? n := by
  have hnames : n ∉ es.names name := fun h => hn (under_of_mem_names hes h)
  obtain ⟨hmethods, hstatics⟩ := not_or.mp (mt List.mem_append.mpr hnames)
  obtain ⟨hname, hmethods⟩ := not_or.mp (mt List.mem_cons.mpr hmethods)
  have hown : (es.writesOwn name parent s).find? n = s.find? n := by
    rw [writesOwn, Schema.find?_writes_of_not_mem hstatics, Schema.find?_writes_of_not_mem hmethods,
      Schema.find?_insert, if_neg hname]
  cases parent with
  | none => exact hown
  | some p => exact (find?_foldl_inherit_of_not_under hn _ _ _).trans hown

theorem constructorIn_congr {s t : Schema} {parent : Option String}
    (h : ∀ p ∈ parent, s.SameUnder p t) :
    es.constructorIn name parent s = es.constructorIn name parent t := by
  cases parent with
  | none => rfl
  | some p =>
      have hp := h p rfl p (.self p)
      simp only [constructorIn, Option.map_some, constructorArgs, hp]

/-- Where schemas agree under the class and under its parent, the class writes the same. -/
theorem sameUnder_writesAll {s t : Schema} {parent : Option String} (h : s.SameUnder name t)
    (hparent : ∀ p ∈ parent, s.SameUnder p t) :
    (es.writesAll name parent s).SameUnder name (es.writesAll name parent t) := by
  have hown : ∀ owner, s.SameUnder owner t →
      (es.writesOwn name parent s).SameUnder owner (es.writesOwn name parent t) := by
    intro owner howner n hn
    rw [writesOwn, writesOwn, constructorIn_congr hparent]
    exact Schema.find?_writes_congr _ (Schema.find?_writes_congr _
      (Schema.find?_insert_congr (howner n hn) _ _))
  cases parent with
  | none => exact hown name h
  | some p =>
      have hmethods := inheritedMethods_congr (hown p (hparent p rfl)) es.defined
      simp only [writesAll, hmethods]
      exact sameUnder_foldl_inherit _ _ (hown name h)

end ClassEntries

/-! ## The region of a class -/

variable {w : World} {conv : Converter}

/-- Under the name of the class the schema has what the class brings, given the region of its
parent, and nothing else. -/
inductive Region (w : World) (conv : Converter) : ClassRef → Schema → Prop
  | root {c : ClassRef} {es : ClassEntries} {s : Schema} (hparent : parentClass? w c = none)
      (hes : (classEntries w conv c).Gives es)
      (hs : s.SameUnder (w.className c) (es.writesAll (w.className c) none .empty)) :
      Region w conv c s
  | child {c p : ClassRef} {es : ClassEntries} {s before : Schema}
      (hparent : parentClass? w c = some p) (hbefore : Region w conv p before)
      (hnew : before.SameUnder (w.className c) .empty) (hes : (classEntries w conv c).Gives es)
      (hs : s.SameUnder (w.className c)
        (es.writesAll (w.className c) (some (w.className p)) before)) : Region w conv c s

namespace Region

theorem congr {c : ClassRef} {s t : Schema} (h : Region w conv c s)
    (hst : s.SameUnder (w.className c) t) : Region w conv c t := by
  cases h with
  | root hparent hes hs => exact .root hparent hes (hst.symm.trans hs)
  | child hparent hbefore hnew hes hs =>
      exact .child hparent hbefore hnew hes (hst.symm.trans hs)

/-- **A class has one region.** -/
theorem unique {c : ClassRef} {s t : Schema} (h : Region w conv c s) :
    Region w conv c t → s.SameUnder (w.className c) t := by
  induction h generalizing t with
  | root hparent hes hs =>
      intro h'
      cases h' with
      | root hparent' hes' hs' =>
          obtain rfl := hes.unique hes'
          exact hs.trans hs'.symm
      | child hparent' => cases hparent.symm.trans hparent'
  | child hparent hbefore hnew hes hs ih =>
      intro h'
      cases h' with
      | root hparent' => cases hparent.symm.trans hparent'
      | child hparent' hbefore' hnew' hes' hs' =>
          cases hparent.symm.trans hparent'
          obtain rfl := hes.unique hes'
          refine hs.trans (.trans ?_ hs'.symm)
          refine ClassEntries.sameUnder_writesAll (hnew.trans hnew'.symm) ?_
          rintro _ ⟨rfl⟩
          exact ih hbefore'

end Region

/-! ## Emission of a class -/

/-- The first class extends the second one. -/
def Scopes.Extends (s : Scopes) (c p : ClassRef) : Prop :=
  ∃ path args, c.decl.parent = some (.ref path args) ∧
    s.typeNamed? c.scope path = some (.ofClass p.scope p.decl)

theorem parentClass?_eq_some_iff {c p : ClassRef} :
    parentClass? w c = some p ↔ w.scopes.Extends c p := by
  constructor
  · intro h
    unfold parentClass? at h
    split at h
    next path args hparent =>
      split at h
      next scope decl hname =>
        cases h
        exact ⟨path, args, hparent, hname⟩
      · cases h
    · cases h
  · rintro ⟨path, args, hparent, hname⟩
    simp only [parentClass?, hparent, hname]

/-- Classes have names without a dot, each its own, and none is its own ancestor. -/
structure World.Tidy (w : World) : Prop where
  undotted : ∀ c, w.scopes.Declares c → Undotted (w.className c)
  distinct : ∀ c c', w.scopes.Declares c → w.scopes.Declares c' →
    w.className c = w.className c' → c = c'
  acyclic : ∀ c, ¬ TransGen w.scopes.Extends c c

theorem World.Tidy.eq_of_under (hw : w.Tidy) {c c' : ClassRef} (hc : w.scopes.Declares c)
    (hc' : w.scopes.Declares c') {n : String} (h : Under (w.className c) n)
    (h' : Under (w.className c') n) : c = c' :=
  hw.distinct c c' hc hc' (h.unique (hw.undotted c hc) (hw.undotted c' hc') h')

/-- Classes whose names are claimed have their regions, but for those that are still open; those and
all others have nothing. -/
structure Deriver.Regional (w : World) (conv : Converter) (isOpen : ClassRef → Prop) (d : Deriver) :
    Prop where
  closed : ∀ c, w.scopes.Declares c → w.className c ∈ d.emitted → ¬ isOpen c →
    Region w conv c d.schema
  empty : ∀ c, w.scopes.Declares c → (w.className c ∈ d.emitted → isOpen c) →
    d.schema.SameUnder (w.className c) .empty

/-- No name is lost, and only what is under a class is written. -/
structure Deriver.Writes (w : World) (d d' : Deriver) : Prop where
  emitted : ∀ n ∈ d.emitted, n ∈ d'.emitted
  elsewhere : ∀ n, (∀ c, w.scopes.Declares c → ¬ Under (w.className c) n) →
    d'.schema.find? n = d.schema.find? n

theorem Deriver.Writes.trans {d d' d'' : Deriver} (h : d.Writes w d') (h' : d'.Writes w d'') :
    d.Writes w d'' :=
  ⟨fun n hn => h'.emitted n (h.emitted n hn),
    fun n hn => (h'.elsewhere n hn).trans (h.elsewhere n hn)⟩

/-- The members of an open class are written, and the class is open no longer. -/
theorem regional_members (hw : w.Tidy) {c : ClassRef} (hc : w.scopes.Declares c)
    {isOpen : ClassRef → Prop} (hopen : ¬ isOpen c) {parent : Option String} {d d' : Deriver}
    {u : Unit} (hd : d.Regional w conv fun x => x = c ∨ isOpen x)
    (hclaimed : w.className c ∈ d.emitted)
    (hregion : ∀ es, (classEntries w conv c).Gives es →
      Region w conv c (es.writesAll (w.className c) parent d.schema))
    (h : emitMembers w conv c parent d = some (u, d')) :
    d'.Regional w conv isOpen ∧ d.Writes w d' := by
  rw [emitMembers_eq] at h
  obtain ⟨es, hes, hschema, hemitted, -⟩ := brings_eq_some h
  have hframe : ∀ n, ¬ Under (w.className c) n → d'.schema.find? n = d.schema.find? n := fun n hn =>
    hschema ▸ ClassEntries.find?_writesAll_of_not_under (formed_classEntries hes).1 hn parent _
  have hother : ∀ c', w.scopes.Declares c' → c' ≠ c →
      d'.schema.SameUnder (w.className c') d.schema := fun c' hc' hne n hn =>
    hframe n fun hn' => hne (hw.eq_of_under hc' hc hn hn')
  refine ⟨⟨fun c' hc' hclaimed' hclosed => ?_, fun c' hc' hclaimed' => ?_⟩,
    ⟨fun n hn => hemitted ▸ hn, fun n hn => hframe n (hn c hc)⟩⟩
  · by_cases hsame : c' = c
    · subst hsame
      exact hschema ▸ hregion es hes
    · refine (hd.closed c' hc' (hemitted ▸ hclaimed') ?_).congr (hother c' hc' hsame).symm
      exact not_or.mpr ⟨hsame, hclosed⟩
  · have hne : c' ≠ c := by
      rintro rfl
      exact hopen (hclaimed' (hemitted ▸ hclaimed))
    refine (hother c' hc' hne).trans (hd.empty c' hc' fun hn => Or.inr (hclaimed' ?_))
    rw [hemitted]
    exact hn

/-- **A class is emitted with its region, and so are its ancestors**, in whatever order. -/
theorem regional_class (hw : w.Tidy) (fuel : Nat) : ∀ c, w.scopes.Declares c →
    ∀ (isOpen : ClassRef → Prop), (∀ x, isOpen x → TransGen w.scopes.Extends x c) → ∀ d u d',
      d.Regional w conv isOpen → emitClass w conv fuel c d = some (u, d') →
        d'.Regional w conv isOpen ∧ d.Writes w d' ∧ w.className c ∈ d'.emitted := by
  induction fuel with
  | zero =>
      intro _ _ _ _ _ _ _ _ h
      cases h
  | succ fuel ih =>
      intro c hc isOpen hancestors d u d' hd h
      have hopen : ¬ isOpen c := fun h => hw.acyclic c (hancestors c h)
      by_cases hnew : w.className c ∈ d.emitted
      · cases (emitClass_of_mem hnew).symm.trans h
        exact ⟨hd, ⟨fun _ hn => hn, fun _ _ => rfl⟩, hnew⟩
      obtain ⟨d₂, hparent, hroot, hmembers⟩ := exists_members_of_emitClass hnew h
      -- The class is open from here until its members are written.
      have hd₁ : (d.claimed (w.className c)).Regional w conv fun x => x = c ∨ isOpen x := by
        refine ⟨fun c' hc' hclaimed hclosed => ?_, fun c' hc' hclaimed => ?_⟩
        · obtain ⟨hne, hclosed⟩ := not_or.mp hclosed
          refine hd.closed c' hc' ((List.mem_cons.mp hclaimed).resolve_left fun heq => ?_) hclosed
          exact hne (hw.distinct c' c hc' hc heq)
        · refine hd.empty c' hc' fun hn => ?_
          refine (hclaimed (List.mem_cons_of_mem _ hn)).resolve_left ?_
          rintro rfl
          exact hnew hn
      have hstart : d.Writes w (d.claimed (w.className c)) :=
        ⟨fun _ hn => List.mem_cons_of_mem _ hn, fun _ _ => rfl⟩
      have hclaimed : w.className c ∈ (d.claimed (w.className c)).emitted := List.mem_cons_self
      cases hp : parentClass? w c with
      | none =>
          rw [hp, hroot hp] at hmembers
          obtain ⟨hd', hwrites⟩ := regional_members hw hc hopen hd₁ hclaimed
            (fun es hes => .root hp hes (ClassEntries.sameUnder_writesAll
              (hd₁.empty c hc fun _ => Or.inl rfl) nofun)) hmembers
          exact ⟨hd', hstart.trans hwrites, hwrites.emitted _ hclaimed⟩
      | some p =>
          rw [hp] at hmembers
          have hdeclared := parentClass?_declares hp
          have hancestors' : ∀ x, x = c ∨ isOpen x → TransGen w.scopes.Extends x p := by
            rintro x (rfl | hx)
            · exact .single (parentClass?_eq_some_iff.mp hp)
            · exact (hancestors x hx).tail (parentClass?_eq_some_iff.mp hp)
          obtain ⟨hd₂, hwrites₂, hp₂⟩ := ih p hdeclared _ hancestors' _ _ d₂ hd₁ (hparent p hp)
          have hbefore : Region w conv p d₂.schema := hd₂.closed p hdeclared hp₂
            fun hopen => hw.acyclic p (hancestors' p hopen)
          obtain ⟨hd', hwrites⟩ := regional_members hw hc hopen hd₂ (hwrites₂.emitted _ hclaimed)
            (fun es hes => .child hp hbefore (hd₂.empty c hc fun _ => Or.inl rfl) hes
              fun _ _ => rfl) hmembers
          exact ⟨hd', (hstart.trans hwrites₂).trans hwrites,
            hwrites.emitted _ (hwrites₂.emitted _ hclaimed)⟩

theorem exists_emitMembers {c : ClassRef} {es : ClassEntries}
    (hes : (classEntries w conv c).Gives es) (parent : Option String) (d : Deriver) :
    ∃ d', emitMembers w conv c parent d = some ((), d') := by
  obtain ⟨refs, hes⟩ := hes
  rw [emitMembers_eq, hes]
  exact ⟨_, rfl⟩

/-- A class that has a region can be emitted, as long as the bound is above the number of names that
are not claimed. -/
theorem Region.exists_run {c : ClassRef} {s : Schema} (h : Region w conv c s) :
    w.scopes.Declares c → ∀ fuel d, Visited w.declaredNames fuel d.emitted →
      ∃ d', emitClass w conv fuel c d = some ((), d') := by
  have hstep : ∀ {c : ClassRef} {fuel : Nat} {d : Deriver},
      (w.className c ∉ d.emitted → ∃ d', emitClass w conv (fuel + 1) c d = some ((), d')) →
      ∃ d', emitClass w conv (fuel + 1) c d = some ((), d') := by
    intro c fuel d h
    by_cases hmem : w.className c ∈ d.emitted
    · exact ⟨d, emitClass_of_mem hmem⟩
    · exact h hmem
  induction h with
  | @root c es s hparent hes hs =>
      intro hc fuel d hvisited
      obtain ⟨fuel, rfl⟩ := Nat.exists_eq_succ_of_ne_zero hvisited.pos.ne'
      refine hstep fun hnew => ?_
      rw [emitClass_of_not_mem hnew, hparent]
      exact exists_emitMembers hes _ _
  | @child c p es s before hparent hbefore hnew hes hs ih =>
      intro hc fuel d hvisited
      obtain ⟨fuel, rfl⟩ := Nat.exists_eq_succ_of_ne_zero hvisited.pos.ne'
      refine hstep fun hnew => ?_
      rw [emitClass_of_not_mem hnew, hparent]
      obtain ⟨d₂, hp⟩ := ih (parentClass?_declares hparent) fuel (d.claimed (w.className c))
        (hvisited.cons (className_mem hc) hnew)
      obtain ⟨d', hd'⟩ := exists_emitMembers hes (some (w.className p)) d₂
      exact ⟨d', Derive.bind_eq_some_iff.mpr ⟨(), d₂, hp, hd'⟩⟩

end Declaration

end ApiSurface
