/-
# `ApiSurface.Proofs.Declaration.Turns` — the classes that a derivation turns to

A derivation emits the items of the surface one after the other and then the classes that are
referred to (`Comes`); whichever class it turns to, it turns to its parent first (`Turns`).  At a
turn a class is emitted unless its name is claimed already, and every name that is claimed in the
end was claimed at some turn (`exists_emitted_of_emitAll`).

In between, only those classes come to offer something whose names are claimed meanwhile
(`classRun`).  So a class offers nothing when the derivation turns to it (`Deriver.Orderly`), and
nothing while its parent is emitted: its name is claimed before that.
-/
import ApiSurface.Proofs.Declaration.MemberNames
import ApiSurface.Proofs.Declaration.OwnMethods

namespace ApiSurface.Declaration

open Conversion Relation

variable {w : World} {conv : Converter} {items : List SurfaceItem}

/-! ## Turns -/

/-- The deriver that a derivation starts from. -/
def Deriver.start : Deriver :=
  ⟨.empty, [], []⟩

/-- The derivation comes to the deriver with the given items left, and when none is left, each time
it looks for a class that is referred to. -/
inductive Comes (w : World) (conv : Converter) (items : List SurfaceItem) :
    List SurfaceItem → Deriver → Prop
  | start : Comes w conv items items .start
  | item {item : SurfaceItem} {rest : List SurfaceItem} {d d' : Deriver} {u : Unit}
      (before : Comes w conv items (item :: rest) d)
      (run : emitItem w conv item d = some (u, d')) : Comes w conv items rest d'
  | referred {c : ClassRef} {d d₁ d₂ : Deriver} {u : Unit} (before : Comes w conv items [] d)
      (next : nextPending w d = some (some c, d₁))
      (run : emitClass w conv (w.classCount + 1) c d₁ = some (u, d₂)) : Comes w conv items [] d₂

/-- The derivation turns to the class, with the given bound on how many parents may follow. -/
inductive Turns (w : World) (conv : Converter) (items : List SurfaceItem) :
    Nat → ClassRef → Deriver → Prop
  | exported {scope : Nat} {decl : ClassDecl} {name : String} {rest : List SurfaceItem}
      {d : Deriver} (h : Comes w conv items (.ofClass scope decl name :: rest) d) :
      Turns w conv items (w.classCount + 1) ⟨scope, decl⟩ d
  | referred {c : ClassRef} {d d₁ : Deriver} (h : Comes w conv items [] d)
      (next : nextPending w d = some (some c, d₁)) :
      Turns w conv items (w.classCount + 1) c d₁
  | parent {fuel : Nat} {c p : ClassRef} {d : Deriver} (h : Turns w conv items (fuel + 1) c d)
      (new : w.className c ∉ d.emitted) (hp : parentClass? w c = some p) :
      Turns w conv items fuel p (d.claimed (w.className c))

/-- The derivation emits the class, under a name that was not claimed before, and has come to the
deriver when that is done. -/
def Emitted (w : World) (conv : Converter) (items : List SurfaceItem) (c : ClassRef)
    (d' : Deriver) : Prop :=
  ∃ fuel d u, Turns w conv items fuel c d ∧ w.className c ∉ d.emitted ∧
    emitClass w conv fuel c d = some (u, d')

theorem comes_of_emitItems (part : List SurfaceItem) : ∀ {rest d d' u},
    Comes w conv items (part ++ rest) d → emitItems w conv part d = some (u, d') →
      Comes w conv items rest d' := by
  induction part with
  | nil =>
      intro rest d d' u h hrun
      cases hrun
      exact h
  | cons item part ih =>
      intro rest d d' u h hrun
      obtain ⟨u₁, d₁, hitem, hrest⟩ := Derive.bind_eq_some_iff.mp hrun
      exact ih (.item h hitem) hrest

/-- A whole derivation comes to its end in this way. -/
theorem exists_comes_of_emitPending (fuel : Nat) : ∀ {d d' u}, Comes w conv items [] d →
    emitPending w conv fuel d = some (u, d') →
      ∃ last, Comes w conv items [] last ∧ nextPending w last = some (none, d') := by
  induction fuel with
  | zero =>
      intro _ _ _ _ h
      cases h
  | succ fuel ih =>
      intro d d' u hcomes h
      rcases next_of_emitPending h with hnext | ⟨c, d₁, d₂, hnext, hclass, hrest⟩
      · exact ⟨d, hcomes, hnext⟩
      · exact ih (.referred hcomes hnext hclass) hrest

theorem exists_comes_of_emitAll {d : Deriver} {u : Unit}
    (h : emitAll w conv items .start = some (u, d)) :
    ∃ last, Comes w conv items [] last ∧ nextPending w last = some (none, d) := by
  obtain ⟨u₁, d₁, hitems, hpending⟩ := Derive.bind_eq_some_iff.mp h
  have hstart : Comes w conv items (items ++ []) .start := (List.append_nil items).symm ▸ .start
  exact exists_comes_of_emitPending _ (comes_of_emitItems items hstart hitems) hpending

/-! ## One emission -/

/-- Every name that is claimed while a class is emitted is claimed at a turn. -/
theorem exists_emitted_of_turns (fuel : Nat) : ∀ {c d d' u}, Turns w conv items fuel c d →
    emitClass w conv fuel c d = some (u, d') →
      ∀ n ∈ d'.emitted, n ∈ d.emitted ∨ ∃ x dx, Emitted w conv items x dx ∧ w.className x = n := by
  induction fuel with
  | zero =>
      intro _ _ _ _ _ h
      cases h
  | succ fuel ih =>
      intro c d d' u hturns h n hn
      by_cases hnew : w.className c ∈ d.emitted
      · cases (emitClass_of_mem hnew).symm.trans h
        exact Or.inl hn
      obtain ⟨d₂, hparent, hroot, hmembers⟩ := exists_members_of_emitClass hnew h
      have hemitted : d'.emitted = d₂.emitted := by
        rw [emitMembers_eq] at hmembers
        obtain ⟨_, _, _, hemitted, _⟩ := brings_eq_some hmembers
        exact hemitted
      rw [hemitted] at hn
      -- The class itself is claimed at this turn, everything else before it or for its parent.
      have hclaimed : n ∈ (d.claimed (w.className c)).emitted → n ∈ d.emitted ∨
          ∃ x dx, Emitted w conv items x dx ∧ w.className x = n := fun hn =>
        (List.mem_cons.mp hn).elim
          (fun heq => Or.inr ⟨c, d', ⟨_, d, u, hturns, hnew, h⟩, heq.symm⟩) Or.inl
      cases hp : parentClass? w c with
      | none => exact hclaimed (hroot hp ▸ hn)
      | some p => exact (ih (.parent hturns hnew hp) (hparent p hp) n hn).elim hclaimed Or.inr

theorem exists_emitted_of_comes {rest : List SurfaceItem} {d : Deriver}
    (h : Comes w conv items rest d) :
    ∀ n ∈ d.emitted, ∃ x dx, Emitted w conv items x dx ∧ w.className x = n := by
  induction h with
  | start => exact fun _ hn => absurd hn List.not_mem_nil
  | @item item rest d d' u before run ih =>
      intro n hn
      rcases class_or_brings_of_emitItem run with ⟨scope, decl, name, rfl, run⟩ | ⟨-, run⟩
      · exact (exists_emitted_of_turns _ (.exported before) run n hn).elim (ih n) id
      · obtain ⟨_, _, _, hemitted, _⟩ := brings_eq_some run
        exact ih n (hemitted ▸ hn)
  | referred before next run ih =>
      intro n hn
      rcases exists_emitted_of_turns _ (.referred before next) run n hn with hn | hn
      · exact ih n ((takes_of_nextPending next).emitted ▸ hn)
      · exact hn

/-- **Every name that a derivation claims is that of a class which it emits at some turn.** -/
theorem exists_emitted_of_emitAll {d : Deriver} {u : Unit}
    (h : emitAll w conv items .start = some (u, d)) :
    ∀ n ∈ d.emitted, ∃ x dx, Emitted w conv items x dx ∧ w.className x = n := by
  obtain ⟨last, hcomes, hnext⟩ := exists_comes_of_emitAll h
  rw [(takes_of_nextPending hnext).emitted]
  exact exists_emitted_of_comes hcomes

/-! ## What runs add -/

/-- What comes to be offered is offered by classes whose names are claimed meanwhile. -/
structure Deriver.Adds (d d' : Deriver) : Prop where
  emitted : ∀ n ∈ d.emitted, n ∈ d'.emitted
  gains : d.schema.Gains (fun owner slot e => owner ∉ d.emitted ∧ owner ∈ d'.emitted ∧
    (d.schema.Regular → slot.Fits owner e)) d'.schema

/-- Nothing is offered but by classes whose names are claimed, and all of it is fit for its slot. -/
structure Deriver.Orderly (d : Deriver) : Prop where
  held : ∀ owner slot e, slot.Plain → d.schema.Offers owner slot e → owner ∈ d.emitted
  regular : d.schema.Regular

namespace Deriver

variable {d d' d'' : Deriver}

theorem Adds.regular (h : d.Adds d') (hd : d.schema.Regular) : d'.schema.Regular :=
  hd.of_gains h.gains fun _ _ _ h => h.2.2 hd

theorem Adds.refl (d : Deriver) : d.Adds d :=
  ⟨fun _ hn => hn, .refl _⟩

theorem Adds.trans (h : d.Adds d') (h' : d'.Adds d'') : d.Adds d'' where
  emitted := fun n hn => h'.emitted n (h.emitted n hn)
  gains := (h.gains.imp fun owner _ _ hQ => ⟨hQ.1, h'.emitted owner hQ.2.1, hQ.2.2⟩).trans
    (h'.gains.imp fun owner _ _ hQ =>
      ⟨fun hn => hQ.1 (h.emitted owner hn), hQ.2.1, fun hd => hQ.2.2 (h.regular hd)⟩)

theorem Orderly.of_adds (hd : d.Orderly) (h : d.Adds d') : d'.Orderly where
  held := fun owner slot e hplain hoffers =>
    (h.gains owner slot e hplain hoffers).elim
      (fun hbefore => h.emitted owner (hd.held owner slot e hplain hbefore)) fun hnew => hnew.2.1
  regular := h.regular hd.regular

theorem orderly_start : start.Orderly where
  held := fun _ _ _ _ h => nomatch h.1
  regular := fun _ _ _ _ h => nomatch h.1

theorem adds_claimed (d : Deriver) (name : String) : d.Adds (d.claimed name) :=
  ⟨fun _ hn => List.mem_cons_of_mem _ hn, .refl _⟩

/-- A run that adds nothing to any class. -/
theorem adds_of_gains (hemitted : d'.emitted = d.emitted)
    (h : d.schema.Gains (fun _ _ _ => False) d'.schema) : d.Adds d' :=
  ⟨fun _ hn => hemitted ▸ hn, h.imp fun _ _ _ => False.elim⟩

theorem Takes.adds {c? : Option ClassRef} (h : d.Takes w c? d') : d.Adds d' :=
  adds_of_gains h.emitted (h.schema ▸ .refl _)

end Deriver

/-- No method of a class that is reached has a dot in its name. -/
def UndottedMethods (w : World) (conv : Converter) (items : List SurfaceItem) : Prop :=
  ∀ c es, Reached w conv items c → (classEntries w conv c).Gives es → ∀ m ∈ es.defined, Undotted m

/-- What the emission of a class does when it comes to an end. -/
structure ClassRun (w : World) (conv : Converter) (items : List SurfaceItem) (c : ClassRef)
    (d d' : Deriver) : Prop where
  adds : d.Adds d'
  claimed : w.className c ∈ d'.emitted
  /-- The names that are claimed are those of the class and its ancestors. -/
  ancestors : ∀ n ∈ d'.emitted, n ∈ d.emitted ∨
    ∃ x, Reached w conv items x ∧ ReflTransGen w.scopes.Extends c x ∧ w.className x = n

/-- How things stand when a class is claimed and its parent is emitted. -/
structure Prepared (w : World) (conv : Converter) (items : List SurfaceItem) (c : ClassRef)
    (d d₂ : Deriver) : Prop where
  adds : (d.claimed (w.className c)).Adds d₂
  parent : ∀ p, parentClass? w c = some p → w.className p ∈ d₂.emitted
  ancestors : ∀ n ∈ d₂.emitted, n ∈ (d.claimed (w.className c)).emitted ∨
    ∃ x, Reached w conv items x ∧ TransGen w.scopes.Extends c x ∧ w.className x = n

theorem prepared_of_parent {c : ClassRef} {d d₂ : Deriver}
    (hparent : ∀ p, parentClass? w c = some p →
      ClassRun w conv items p (d.claimed (w.className c)) d₂)
    (hroot : parentClass? w c = none → d₂ = d.claimed (w.className c)) :
    Prepared w conv items c d d₂ := by
  cases hp : parentClass? w c with
  | none =>
      rw [hroot hp]
      exact ⟨.refl _, fun p h => (nomatch hp.symm.trans h), fun _ hn => Or.inl hn⟩
  | some p =>
      have hrun := hparent p hp
      refine ⟨hrun.adds, fun q hq => ?_, fun n hn => (hrun.ancestors n hn).imp_right ?_⟩
      · cases hp.symm.trans hq
        exact hrun.claimed
      · rintro ⟨x, hx, hled, hname⟩
        exact ⟨x, hx, .head' (parentClass?_eq_some_iff.mp hp) hled, hname⟩

/-- A class whose name is new offers nothing when its members are written. -/
theorem Prepared.not_offers {c : ClassRef} {d d₂ : Deriver} (h : Prepared w conv items c d d₂)
    (hd : d.Orderly) (hnew : w.className c ∉ d.emitted) (slot : Slot) (e : Entry)
    (hplain : slot.Plain) : ¬ d₂.schema.Offers (w.className c) slot e := fun hoffers =>
  (h.adds.gains _ slot e hplain hoffers).elim
    (fun hbefore => hnew (hd.held _ slot e hplain hbefore)) fun hQ => hQ.1 List.mem_cons_self

/-- The entries of an item that is not a class are no class's. -/
theorem gains_item {item : SurfaceItem} {d d' : Deriver} {u : Unit}
    (h : Derive.brings w ((fun es s => s.writes es) <$> itemEntries w conv item) d =
      some (u, d')) :
    d'.emitted = d.emitted ∧ d.schema.Gains (fun _ _ _ => False) d'.schema := by
  obtain ⟨es, hes, hschema, hemitted, -⟩ := brings_eq_some h
  refine ⟨hemitted, ?_⟩
  rw [hschema]
  obtain ⟨groups, -, hes⟩ := gives_bind hes
  refine Schema.gains_writes (fun p hp => Schema.placed_of_free ?_) _
  obtain ⟨g, -, hg⟩ := (gives_named hes).2 p hp
  exact entryOf_convention hg

section Runs

variable (hplain : UndottedMethods w conv items)

include hplain

theorem gains_members {c : ClassRef} (hc : Reached w conv items c) {parent : Option String}
    {d d' : Deriver} {u : Unit} (h : emitMembers w conv c parent d = some (u, d')) :
    d'.emitted = d.emitted ∧ d.schema.Gains (fun owner slot e => owner = w.className c ∧
      (d.schema.Regular → slot.Fits (w.className c) e)) d'.schema := by
  rw [emitMembers_eq] at h
  obtain ⟨es, hes, hschema, hemitted, -⟩ := brings_eq_some h
  refine ⟨hemitted, ?_⟩
  rw [hschema]
  exact ClassEntries.gains_writesAll (formed_classEntries hes).1 (shaped_classEntries hes).1
    (hplain c es hc hes) parent _

/-- **The emission of a class adds to the class and its ancestors only**, and only to those whose
names it claims. -/
theorem classRun (fuel : Nat) : ∀ c, Reached w conv items c → ∀ d u d',
    emitClass w conv fuel c d = some (u, d') → ClassRun w conv items c d d' := by
  induction fuel with
  | zero =>
      intro _ _ _ _ _ h
      cases h
  | succ fuel ih =>
      intro c hc d u d' h
      by_cases hnew : w.className c ∈ d.emitted
      · cases (emitClass_of_mem hnew).symm.trans h
        exact ⟨.refl d, hnew, fun _ hn => Or.inl hn⟩
      obtain ⟨d₂, hparent, hroot, hmembers⟩ := exists_members_of_emitClass hnew h
      have hprep : Prepared w conv items c d d₂ := prepared_of_parent
        (fun p hp => ih p (.parent hc hp) _ _ _ (hparent p hp)) hroot
      obtain ⟨hemitted, hgains⟩ := gains_members hplain hc hmembers
      have hclaimed : w.className c ∈ d₂.emitted := hprep.adds.emitted _ List.mem_cons_self
      have hbefore := (d.adds_claimed (w.className c)).trans hprep.adds
      refine ⟨⟨fun n hn => hemitted ▸ hbefore.emitted n hn, ?_⟩, hemitted ▸ hclaimed, ?_⟩
      · refine (hbefore.gains.imp fun owner _ _ hQ => ⟨hQ.1, hemitted ▸ hQ.2.1, hQ.2.2⟩).trans
          (hgains.imp ?_)
        rintro _ slot e ⟨rfl, hfits⟩
        exact ⟨hnew, hemitted ▸ hclaimed, fun hd => hfits (hbefore.regular hd)⟩
      · intro n hn
        rcases hprep.ancestors n (hemitted ▸ hn) with hn | ⟨x, hx, hled, hname⟩
        · rcases List.mem_cons.mp hn with rfl | hn
          · exact Or.inr ⟨c, hc, .refl, rfl⟩
          · exact Or.inl hn
        · exact Or.inr ⟨x, hx, hled.to_reflTransGen, hname⟩

/-- **Wherever a derivation comes to**, what is offered is offered by classes whose names are
claimed. -/
theorem orderly_of_comes {rest : List SurfaceItem} {d : Deriver} (h : Comes w conv items rest d) :
    rest ⊆ items ∧ d.Orderly ∧ ∀ c ∈ d.pending, Reached w conv items c := by
  induction h with
  | start => exact ⟨List.Subset.refl _, Deriver.orderly_start, fun _ hc => nomatch hc⟩
  | @item item rest d d' u before run ih =>
      obtain ⟨hsub, hd, hpending⟩ := ih
      obtain ⟨hitem, hrest⟩ := List.cons_subset.mp hsub
      refine ⟨hrest, ?_, fun c hc =>
        ((covers_item hitem run).1.reached c hc).elim (hpending c) id⟩
      rcases class_or_brings_of_emitItem run with ⟨scope, decl, name, rfl, run⟩ | ⟨-, run⟩
      · exact hd.of_adds (classRun hplain _ _ (.exported hitem) _ _ _ run).adds
      · obtain ⟨hemitted, hgains⟩ := gains_item run
        exact hd.of_adds (Deriver.adds_of_gains hemitted hgains)
  | @referred c d d₁ d₂ u before next run ih =>
      obtain ⟨hsub, hd, hpending⟩ := ih
      have htakes := takes_of_nextPending next
      have hc : Reached w conv items c := hpending c (htakes.noted c rfl)
      have hd₁ : d₁.Orderly := hd.of_adds htakes.adds
      refine ⟨hsub, hd₁.of_adds (classRun hplain _ c hc _ _ _ run).adds, fun x hx => ?_⟩
      exact ((covers_class _ c hc _ _ _ run).1.reached x hx).elim
        (fun hx => hpending x (htakes.left hx)) id

theorem orderly_of_turns {fuel : Nat} {c : ClassRef} {d : Deriver}
    (h : Turns w conv items fuel c d) : Reached w conv items c ∧ d.Orderly := by
  induction h with
  | exported h =>
      obtain ⟨hsub, hd, -⟩ := orderly_of_comes hplain h
      exact ⟨.exported (hsub List.mem_cons_self), hd⟩
  | referred h next =>
      obtain ⟨-, hd, hpending⟩ := orderly_of_comes hplain h
      have htakes := takes_of_nextPending next
      exact ⟨hpending _ (htakes.noted _ rfl), hd.of_adds htakes.adds⟩
  | parent h new hp ih => exact ⟨.parent ih.1 hp, ih.2.of_adds (Deriver.adds_claimed _ _)⟩

end Runs

end ApiSurface.Declaration
