/-
# `ApiSurface.Proofs.Declaration.Everywhere` — what every guess of a derived schema has

All that a derivation does to its schema is to have the entries of an item or of a class written.
So a property of schemas that these changes keep is one of the schema in the end (`Writing`,
`kept_all`).  That every guess has some property is kept if every way of making guesses keeps
it, and the schema of the host has only guesses that are made in these ways too: what is hereditary
holds of every guess of a derived schema (`holds_deriveStatements`).  In particular no guess of a
derived schema lists a class that has no entry, at any depth and with whatever mass
(`has_of_listed`).

The property may ask of a class that its name has an entry.  The set of these names is read off the
end of the run, as it is for soundness: `Deriver.Within` says of every earlier moment that the names
claimed and noted by then will have entries.
-/
import ApiSurface.Proofs.Declaration.Derived
import ApiSurface.Proofs.Declaration.Entries
import ApiSurface.Proofs.Declaration.Reached

namespace ApiSurface

namespace Guess

mutual

/-- The classes that are listed in a guess and in the guesses nested in it, whatever mass they
have. -/
def listed : Guess → List String
  | any => []
  | known _ shape items classes =>
    (classes.getD []).map Prod.fst ++ (listedInShape shape ++ listedInItems items)

/-- The classes that are listed in the properties, if there is a shape. -/
def listedInShape : Option (List (String × Guess)) → List String
  | none => []
  | some fields => listedInFields fields

/-- The classes that are listed in any of the properties. -/
def listedInFields : List (String × Guess) → List String
  | [] => []
  | (_, g) :: r => listed g ++ listedInFields r

/-- The classes that are listed in the guess for the items, if there is one. -/
def listedInItems : Option Guess → List String
  | none => []
  | some g => listed g

end

theorem mem_listedInFields {c : String} {fields : List (String × Guess)} :
    c ∈ listedInFields fields ↔ ∃ p ∈ fields, c ∈ listed p.2 := by
  induction fields with
  | nil => simp [listedInFields]
  | cons p r ih =>
      obtain ⟨key, g⟩ := p
      simp [listedInFields, ih]

/-- The classes that a sound guess lists are in the set. -/
theorem Sound.of_mem_listed {S : String → Prop} {g : Guess} (h : Sound S g) :
    ∀ c ∈ listed g, S c := by
  induction h with
  | any =>
      intro c hc
      cases hc
  | @known mass shape items classes _ _ _ _ _ hlisted ihfields ihitem =>
      intro c hc
      simp only [listed, List.mem_append] at hc
      rcases hc with hc | hc | hc
      · obtain ⟨p, hp, rfl⟩ := List.mem_map.mp hc
        cases classes with
        | none => cases hp
        | some cs => exact hlisted cs rfl p hp
      · cases shape with
        | none => cases hc
        | some fields =>
            obtain ⟨p, hp, hc⟩ := mem_listedInFields.mp hc
            exact ihfields fields rfl p hp c hc
      · cases items with
        | none => cases hc
        | some g => exact ihitem g rfl c hc

end Guess

/-- The classes that are listed in the arguments or the result of an entry. -/
def Entry.listed (e : Entry) : List String :=
  (e.args ++ [e.ret]).flatMap Guess.listed

theorem Entry.Holds.of_mem_listed {S : String → Prop} {e : Entry}
    (h : e.Holds (Guess.Sound S)) : ∀ c ∈ e.listed, S c := by
  intro c hc
  obtain ⟨g, hg, hc⟩ := List.mem_flatMap.mp hc
  rcases List.mem_append.mp hg with hg | hg
  · exact (h.args g hg).of_mem_listed c hc
  · rw [List.mem_singleton.mp hg] at hc
    exact h.ret.of_mem_listed c hc

namespace Schema

variable {P : Guess → Prop}

/-- Every guess in the entries of the schema has the property. -/
def Holds (P : Guess → Prop) (s : Schema) : Prop :=
  ∀ name e, s.find? name = some e → e.Holds P

theorem holds_empty : empty.Holds P := by
  intro _ _ h
  cases h

theorem Holds.insert {s : Schema} (h : s.Holds P) (name : String) {e : Entry} (he : e.Holds P) :
    (s.insert name e).Holds P := by
  intro n e' hfind
  rw [find?_insert] at hfind
  split at hfind
  · cases hfind
    exact he
  · exact h n e' hfind

theorem Holds.writes {s : Schema} (h : s.Holds P) {es : List (String × Entry)}
    (hes : ∀ p ∈ es, p.2.Holds P) : (s.writes es).Holds P :=
  List.foldlRecOn (motive := fun s : Schema => s.Holds P) _ _ h
    fun _ hs p hp => hs.insert p.1 (hes p hp)

end Schema

namespace Declaration

variable {w : World} {conv : Converter} {S : String → Prop} {P : Guess → Prop}

/-! ## What a class writes -/

theorem holds_constructorArgs {s : Schema} (h : s.Holds P) (name : String) :
    ∀ g ∈ constructorArgs s name, P g := by
  unfold constructorArgs
  intro g hg
  split at hg
  next e he =>
    split at hg
    · exact (h name e he).args g hg
    · cases hg
  · cases hg

theorem Entry.Holds.withReceiver {e : Entry} (h : e.Holds P) {receiver : Guess}
    (hreceiver : P receiver) : (withReceiver receiver e).Holds P := by
  unfold Declaration.withReceiver
  split
  · exact h
  next first args hargs =>
    have hrest : ∀ g ∈ args, P g := fun g hg => h.args g (hargs ▸ List.mem_cons_of_mem _ hg)
    exact ⟨List.forall_mem_cons.mpr ⟨hreceiver, hrest⟩, h.ret⟩

theorem holds_inherit {s : Schema} (h : s.Holds P) (name : String) {receiver : Guess}
    (hreceiver : P receiver) {m : String × Entry} (hm : m.2.Holds P) :
    (inherit name receiver s m).Holds P := by
  obtain heq | heq := inherit_eq_or name receiver s m <;> rw [heq]
  · exact h
  · exact h.insert (name ++ "." ++ m.1) (Entry.Holds.withReceiver hm hreceiver)

namespace ClassEntries

variable {es : ClassEntries} {name : String} {s : Schema}

theorem Holds.constructorIn (hes : es.Holds P) (hname : P (.ofClass name)) (h : s.Holds P)
    (parent : Option String) : (es.constructorIn name parent s).Holds P := by
  unfold ClassEntries.constructorIn
  cases hdeclared : es.constructor with
  | some e => exact hes.constructor e hdeclared
  | none =>
      refine ⟨?_, hname⟩
      intro g hg
      cases parent with
      | none => cases hg
      | some p => exact holds_constructorArgs h p g hg

theorem Holds.writesAll (hes : es.Holds P) (hname : P (.ofClass name)) (h : s.Holds P)
    (parent : Option String) : (es.writesAll name parent s).Holds P := by
  have hown : (es.writesOwn name parent s).Holds P :=
    ((h.insert name (hes.constructorIn hname h parent)).writes hes.methods).writes hes.statics
  unfold ClassEntries.writesAll
  cases parent with
  | none => exact hown
  | some p =>
      refine List.foldlRecOn (motive := fun s : Schema => s.Holds P) _ _ hown fun s hs m hm => ?_
      obtain ⟨-, n, hfind⟩ := mem_inheritedMethods hm
      exact holds_inherit hs name hname (hown n m.2 hfind)

end ClassEntries

/-! ## Whole runs -/

/-- The property of schemas is kept by what classes and items bring, if the classes referred to have
their names in the set. -/
structure Writing (w : World) (conv : Converter) (S : String → Prop) (I : Schema → Prop) :
    Prop where
  ofClass : ∀ c es, (classEntries w conv c).Gives es →
    (∀ r, (classEntries w conv c).Refers r → S (w.className r)) → S (w.className c) →
      ∀ parent s, I s → I (es.writesAll (w.className c) parent s)
  ofItem : ∀ item es, (itemEntries w conv item).Gives es →
    (∀ r, (itemEntries w conv item).Refers r → S (w.className r)) → ∀ s, I s → I (s.writes es)

theorem Deriver.Within.of_knows {d : Deriver} (h : d.Within w S) {c : ClassRef}
    (hc : d.Knows w c) : S (w.className c) :=
  hc.elim (h.emitted _) (h.pending c)

section Writing

variable {I : Schema → Prop} (hI : Writing w conv S I) (hconv : Faithful w S conv)

include hI

theorem kept_members {c : ClassRef} {parent : Option String} {d d' : Deriver} {u : Unit}
    (h : emitMembers w conv c parent d = some (u, d')) (hwithin : d'.Within w S)
    (hname : S (w.className c)) (hd : I d.schema) : I d'.schema := by
  rw [emitMembers_eq] at h
  obtain ⟨es, hes, hschema, -, hknows, -⟩ := brings_eq_some h
  rw [hschema]
  exact hI.ofClass c es hes (fun r hr => hwithin.of_knows (hknows r hr)) hname parent _ hd

include hconv

theorem kept_class (fuel : Nat) : ∀ c, w.scopes.Declares c → ∀ d u d',
    emitClass w conv fuel c d = some (u, d') → d'.Within w S → I d.schema → I d'.schema := by
  induction fuel with
  | zero =>
      intro _ _ _ _ _ h
      cases h
  | succ fuel ih =>
      intro c hc d u d' h hwithin hd
      have hname : S (w.className c) :=
        hwithin.emitted _ (emitClass_spec hconv (fuel + 1) c hc d u d' h).2.1
      by_cases hnew : w.className c ∈ d.emitted
      · cases (emitClass_of_mem hnew).symm.trans h
        exact hd
      obtain ⟨d₂, hparent, hroot, hmembers⟩ := exists_members_of_emitClass hnew h
      refine kept_members hI hmembers hwithin hname ?_
      cases hp : parentClass? w c with
      | none => exact hroot hp ▸ hd
      | some p =>
          have hgrows : d₂.Grows w d' := (emits_members hconv c _ d₂ u d' hmembers).1
          exact ih p (parentClass?_declares hp) _ _ d₂ (hparent p hp) (hwithin.of_grows hgrows) hd

theorem kept_item {item : SurfaceItem} (hitem : ItemsDeclared w.scopes [item]) {d d' : Deriver}
    {u : Unit} (h : emitItem w conv item d = some (u, d')) (hwithin : d'.Within w S)
    (hd : I d.schema) : I d'.schema := by
  rcases class_or_brings_of_emitItem h with ⟨scope, decl, name, rfl, h⟩ | ⟨-, h⟩
  · exact kept_class hI hconv _ _ (hitem scope decl name List.mem_cons_self) d u d' h hwithin hd
  · obtain ⟨es, hes, hschema, -, hknows, -⟩ := brings_eq_some h
    rw [hschema]
    exact hI.ofItem item es hes (fun r hr => hwithin.of_knows (hknows r hr)) _ hd

theorem kept_items (items : List SurfaceItem) : ItemsDeclared w.scopes items → ∀ d u d',
    emitItems w conv items d = some (u, d') → d'.Within w S → I d.schema → I d'.schema := by
  induction items with
  | nil =>
      intro _ d u d' h _ hd
      cases h
      exact hd
  | cons item rest ih =>
      intro hitems d u d' h hwithin hd
      obtain ⟨hitem, hrests⟩ := itemsDeclared_cons.mp hitems
      obtain ⟨u₁, d₁, hfirst, hrest⟩ := Derive.bind_eq_some_iff.mp h
      have hgrows : d₁.Grows w d' := (emits_items hconv rest hrests d₁ u d' hrest).1
      refine ih hrests d₁ u d' hrest hwithin ?_
      exact kept_item hI hconv hitem hfirst (hwithin.of_grows hgrows) hd

theorem kept_pending (fuel : Nat) : ∀ d u d', (∀ c ∈ d.pending, w.scopes.Declares c) →
    emitPending w conv fuel d = some (u, d') → d'.Within w S → I d.schema → I d'.schema := by
  induction fuel with
  | zero =>
      intro _ _ _ _ h
      cases h
  | succ fuel ih =>
      intro d u d' hdeclared h hwithin hd
      rcases next_of_emitPending h with hnext | ⟨c, d₁, d₂, hnext, hclass, hrest⟩
      · exact (takes_of_nextPending hnext).schema ▸ hd
      · have htakes := takes_of_nextPending hnext
        have hc := hdeclared c (htakes.noted c rfl)
        have hgrows := (emitClass_spec hconv _ c hc d₁ () d₂ hclass).1
        have hdeclared' : ∀ x ∈ d₂.pending, w.scopes.Declares x := fun x hx =>
          (hgrows.declared x hx).elim (fun hx => hdeclared x (htakes.left hx)) id
        have hgrows' := (emitPending_spec hconv fuel d₂ d' hdeclared' hrest).1
        refine ih d₂ u d' hdeclared' hrest hwithin ?_
        exact kept_class hI hconv _ c hc d₁ () d₂ hclass (hwithin.of_grows hgrows')
          (htakes.schema.symm ▸ hd)

/-- What every way of writing keeps, and the empty schema has, holds at the end of a derivation. -/
theorem kept_all {items : List SurfaceItem} (hitems : ItemsDeclared w.scopes items)
    {d : Deriver} {u : Unit} (h : emitAll w conv items ⟨.empty, [], []⟩ = some (u, d))
    (hwithin : d.Within w S) (hempty : I .empty) : I d.schema := by
  obtain ⟨u₁, d₁, hrun, hrest⟩ := Derive.bind_eq_some_iff.mp h
  have hgrows := (emits_items hconv items hitems _ u₁ d₁ hrun).1
  have hdeclared : ∀ c ∈ d₁.pending, w.scopes.Declares c := fun c hc =>
    (hgrows.declared c hc).resolve_left (nomatch ·)
  have hgrows' := (emitPending_spec hconv _ d₁ d hdeclared hrest).1
  refine kept_pending hI hconv _ d₁ u d hdeclared hrest hwithin ?_
  exact kept_items hI hconv items hitems _ u₁ d₁ hrun (hwithin.of_grows hgrows') hempty

end Writing

/-! ## Guesses of a derived schema -/

theorem Hereditary.mono {S' : String → Prop} (hP : Hereditary S' P)
    (hsub : ∀ name, S name → S' name) : Hereditary S P where
  any := hP.any
  ofKind := hP.ofKind
  ofClass := fun h => hP.ofClass (hsub _ h)
  object := hP.object
  array := hP.array
  union := hP.union
  intersect := hP.intersect

theorem writing_holds (hP : Hereditary S P) (hconv : Keeps w S P conv) :
    Writing w conv S (Schema.Holds P) where
  ofClass := by
    rintro c es ⟨refs, heq⟩ hrefs hname parent s hs
    have hes := (keeps_classEntries hP hconv c es refs heq).2
      (fun r hr => hrefs r ⟨es, refs, heq, hr⟩) hname
    exact hes.writesAll (hP.ofClass hname) hs parent
  ofItem := by
    rintro item es ⟨refs, heq⟩ hrefs s hs
    exact hs.writes ((keeps_itemEntries hP hconv item es refs heq).2
      fun r hr => hrefs r ⟨es, refs, heq, hr⟩)

theorem holds_hostEntries (hP : Hereditary S P)
    (hhost : ∀ name, Standard.isClass name = true → S name) :
    ∀ p ∈ Standard.entries, p.2.Holds P := by
  have hclass : ∀ name, Standard.isClass name = true → P (.ofClass name) := fun name h =>
    hP.ofClass (hhost name h)
  have hoptional : P (Guess.optional .string) :=
    hP.union (List.forall_mem_cons.mpr ⟨hP.string, List.forall_mem_singleton.mpr hP.undefined⟩)
  have hnone : ∀ g ∈ ([] : List Guess), P g := List.forall_mem_nil _
  have hone : ∀ {g : Guess}, P g → ∀ g' ∈ [g], P g' := List.forall_mem_singleton.mpr
  simp only [Standard.entries, List.forall_mem_cons]
  exact ⟨⟨hnone, hclass _ rfl⟩, ⟨hone hP.number, hclass _ rfl⟩, ⟨hnone, hclass _ rfl⟩,
    ⟨hone hP.number, hclass _ rfl⟩, ⟨hone hP.number, hclass _ rfl⟩,
    ⟨hone hoptional, hclass _ rfl⟩, ⟨hnone, hclass _ rfl⟩, ⟨hone hP.string, hclass _ rfl⟩,
    List.forall_mem_nil _⟩

theorem holds_seeded {s : Schema} (h : s.Holds P) (hhost : ∀ p ∈ Standard.entries, p.2.Holds P) :
    s.seeded.Holds P := by
  refine List.foldlRecOn (motive := fun s : Schema => s.Holds P) _ _ h fun s hs p hp => ?_
  split
  · exact hs
  · exact hs.insert p.1 (hhost p hp)

/-- **What every way of making guesses keeps holds of every guess of a derived schema**, where an
instance may be asked to be one of a class that has an entry. -/
theorem holds_deriveStatements {ss : List Statement} {s : Schema}
    (h : deriveStatements ss = .ok s) (hP : Hereditary (fun name => s.has name = true) P) :
    s.Holds P := by
  obtain ⟨items, d, hitems, hrun, rfl⟩ := exists_run_of_deriveStatements h
  let w : World := ⟨Scopes.ofStatements ss, classNames items⟩
  -- The set of names is read off the end of the run.
  have hhost : ∀ name, Standard.isClass name = true → d.Named name := fun _ h => Or.inr h
  have hconv : Faithful w d.Named (convertFully w) := faithful_convertFully hhost
  have hdeclared := itemsDeclared_surface hitems
  obtain ⟨hgrows, hpending, -⟩ := emitAll_spec hconv hdeclared hrun
  have hP' : Hereditary d.Named P := hP.mono fun _ hn => hn.has hgrows
  have hwriting := writing_holds hP' (keeps_convertFully (w := w) hP' hhost)
  have hd := kept_all hwriting hconv hdeclared hrun (Deriver.within_named hpending)
    Schema.holds_empty
  exact holds_seeded hd (holds_hostEntries hP' hhost)

/-- **Every class that a guess of a derived schema lists has an entry**, however deep the guess is
nested in an argument or a result. -/
theorem has_of_listed {text : String} {s : Schema} (h : derive text = .ok s) {name : String}
    {e : Entry} (he : s.find? name = some e) {c : String} (hc : c ∈ e.listed) :
    s.has c = true := by
  unfold derive at h
  split at h
  · cases h
  · have hsound := holds_deriveStatements h hereditary_sound
    exact (hsound name e he).of_mem_listed c hc

/-- A class whose method refers to one that is not exported, which refers to another one. -/
def shelfText : String :=
  "export class Shelf extends Furniture \x7b " ++
    "books(): Array<\x7b book: Book; at?: number \x7d> \x7d " ++
    "declare class Furniture \x7b maker(): Maker | null \x7d " ++
    "declare class Book \x7b\x7d declare class Maker \x7b\x7d"

theorem has_of_listed_shelfText : ∃ s books maker, derive shelfText = .ok s ∧
    s.find? "Shelf.books" = some books ∧ s.find? "Shelf.maker" = some maker ∧
    books.listed = ["Shelf", "Book"] ∧ maker.listed = ["Shelf", "Maker"] ∧
    s.has "Book" = true ∧ s.has "Maker" = true := by
  have hderive : (derive shelfText).toOption.any (fun s =>
      (s.find? "Shelf.books").any (fun e => e.listed = ["Shelf", "Book"]) &&
        (s.find? "Shelf.maker").any (fun e => e.listed = ["Shelf", "Maker"])) = true := by
    decide +kernel
  obtain ⟨s, hs, hentries⟩ := exists_ok_of_any hderive
  obtain ⟨hbooks, hmaker⟩ := (Bool.and_eq_true _ _).mp hentries
  obtain ⟨books, hbooks, hlisted⟩ := (Option.any_eq_true _ _).mp hbooks
  obtain ⟨maker, hmaker, hlisted'⟩ := (Option.any_eq_true _ _).mp hmaker
  have hlisted := of_decide_eq_true hlisted
  have hlisted' := of_decide_eq_true hlisted'
  refine ⟨s, books, maker, hs, hbooks, hmaker, hlisted, hlisted', ?_, ?_⟩
  · exact has_of_listed hs hbooks (by rw [hlisted]; decide)
  · exact has_of_listed hs hmaker (by rw [hlisted']; decide)

end Declaration

end ApiSurface
