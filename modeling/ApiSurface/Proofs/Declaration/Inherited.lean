/-
# `ApiSurface.Proofs.Declaration.Inherited` — what a class has of its ancestors

When a class has been emitted it offers whatever its parent offers, with itself as the receiver, and
where nothing is declared anew with the same arguments and the same result
(`exists_offers_of_parent`).  Along a line of ancestors this goes on as long as each class in
between still offers what it took over (`offers_of_line`): between two classes the entries stay the
same (`Deriver.Kin`), for each is written when its class is emitted and never again.

A class in between may have lost an entry by then, to a function of a namespace that shares its
name.  What its child takes over is what is left of it, so the ancestor's method ends there
(`replacedMethod_not_inherited`).
-/
import ApiSurface.Proofs.Declaration.Permuted
import ApiSurface.Proofs.Declaration.Turns

namespace ApiSurface.Declaration

open Conversion Relation

variable {w : World} {conv : Converter} {items : List SurfaceItem}

/-! ## One link -/

section Links

variable (hplain : UndottedMethods w conv items) {c : ClassRef} (hc : Reached w conv items c)

include hplain hc

theorem exists_offers_members {p : String} {d d' : Deriver} {u : Unit}
    (h : emitMembers w conv c (some p) d = some (u, d')) (hregular : d.schema.Regular)
    (hnone : ∀ slot e, slot.Plain → ¬ d.schema.Offers (w.className c) slot e) {slot : Slot}
    (hslot : slot.Plain) {e : Entry} (he : d'.schema.Offers p slot e) :
    ∃ e', d'.schema.Offers (w.className c) slot e' ∧
      (¬ c.Declares w conv slot → slot.Same e e') := by
  rw [emitMembers_eq] at h
  obtain ⟨es, hes, hschema, -⟩ := brings_eq_some h
  obtain ⟨hshaped, hdeclares⟩ := shaped_classEntries hes
  rw [hschema] at he ⊢
  rw [← hdeclares slot]
  exact ClassEntries.exists_offers_writesAll (formed_classEntries hes).1 hshaped
    (hplain c es hc hes) hregular hnone hslot he

/-- **A class that has been emitted offers what its parent offers.** -/
theorem exists_offers_of_parent {fuel : Nat} {p : ClassRef} {d d' : Deriver} {u : Unit}
    (hd : d.Orderly) (hnew : w.className c ∉ d.emitted)
    (h : emitClass w conv fuel c d = some (u, d')) (hp : parentClass? w c = some p) {slot : Slot}
    (hslot : slot.Plain) {e : Entry} (he : d'.schema.Offers (w.className p) slot e) :
    ∃ e', d'.schema.Offers (w.className c) slot e' ∧ slot.Fits (w.className c) e' ∧
      (¬ c.Declares w conv slot → slot.Same e e') := by
  cases fuel with
  | zero => cases h
  | succ fuel =>
      have hregular : d'.schema.Regular := (classRun hplain _ c hc d u d' h).adds.regular hd.regular
      obtain ⟨d₂, hparent, hroot, hmembers⟩ := exists_members_of_emitClass hnew h
      have hprep : Prepared w conv items c d d₂ := prepared_of_parent
        (fun q hq => classRun hplain fuel q (.parent hc hq) _ _ _ (hparent q hq)) hroot
      rw [hp] at hmembers
      obtain ⟨e', he', hsame⟩ := exists_offers_members hplain hc hmembers
        (hprep.adds.regular hd.regular) (hprep.not_offers hd hnew) hslot he
      exact ⟨e', he', hregular _ slot e' hslot he', hsame⟩

end Links

/-! ## All links at once -/

/-- Between every class and its parent entries are the same where nothing is declared anew, and a
class that offers something has its parent claimed. -/
structure Deriver.Kin (w : World) (conv : Converter) (items : List SurfaceItem) (d : Deriver) :
    Prop where
  parents : ∀ x y, Reached w conv items x → parentClass? w x = some y → ∀ slot e, slot.Plain →
    d.schema.Offers (w.className x) slot e → w.className y ∈ d.emitted
  same : ∀ x y, Reached w conv items x → parentClass? w x = some y → ∀ slot, slot.Plain →
    ¬ x.Declares w conv slot → ∀ e e', d.schema.Offers (w.className y) slot e →
      d.schema.Offers (w.className x) slot e' → slot.Same e e'

namespace Deriver

variable {d d' : Deriver}

theorem kin_start : start.Kin w conv items where
  parents := fun _ _ _ _ _ _ _ h => nomatch h.1
  same := fun _ _ _ _ _ _ _ _ _ h => nomatch h.1

theorem Kin.of_gains (h : d.Kin w conv items) (hemitted : ∀ n ∈ d.emitted, n ∈ d'.emitted)
    (hgains : d.schema.Gains (fun _ _ _ => False) d'.schema) : d'.Kin w conv items := by
  have hback : ∀ {owner slot e}, slot.Plain → d'.schema.Offers owner slot e →
      d.schema.Offers owner slot e :=
    fun hslot he => (hgains _ _ _ hslot he).resolve_right id
  refine ⟨fun x y hx hy slot e hslot he => ?_, fun x y hx hy slot hslot hnew e e' he he' => ?_⟩
  · exact hemitted _ (h.parents x y hx hy slot e hslot (hback hslot he))
  · exact h.same x y hx hy slot hslot hnew e e' (hback hslot he) (hback hslot he')

theorem Kin.of_takes {c? : Option ClassRef} (h : d.Kin w conv items) (htakes : d.Takes w c? d') :
    d'.Kin w conv items :=
  h.of_gains (fun _ hn => htakes.emitted ▸ hn) (htakes.schema ▸ .refl _)

end Deriver

section Lines

variable (hplain : UndottedMethods w conv items) (hacyclic : ∀ c, ¬ TransGen w.scopes.Extends c c)
  (hnames : ∀ c c', Reached w conv items c → Reached w conv items c' →
    w.className c = w.className c' → c = c')

include hplain hacyclic hnames

/-- The members of a class are written when its parent's are there, and those of no class that
extends it. -/
theorem kin_members {c : ClassRef} (hc : Reached w conv items c) {d d₂ d' : Deriver} {u : Unit}
    (hd : d.Orderly) (hkin : d.Kin w conv items) (hnew : w.className c ∉ d.emitted)
    (hprep : Prepared w conv items c d d₂) (hkin₂ : d₂.Kin w conv items)
    (h : emitMembers w conv c ((parentClass? w c).map w.className) d₂ = some (u, d')) :
    d'.Kin w conv items := by
  obtain ⟨hemitted, hgains⟩ := gains_members hplain hc h
  have hback : ∀ x, Reached w conv items x → x ≠ c → ∀ slot e, slot.Plain →
      d'.schema.Offers (w.className x) slot e → d₂.schema.Offers (w.className x) slot e :=
    fun x hx hne slot e hslot he => (hgains _ slot e hslot he).resolve_right
      fun hQ => hne (hnames x c hx hc hQ.1)
  refine ⟨fun x y hx hy slot e hslot he => ?_, fun x y hx hy slot hslot hanew e e' he he' => ?_⟩
  · rw [hemitted]
    by_cases hxc : x = c
    · subst hxc
      exact hprep.parent y hy
    · exact hkin₂.parents x y hx hy slot e hslot (hback x hx hxc slot e hslot he)
  · by_cases hxc : x = c
    · subst hxc
      rw [hy] at h
      obtain ⟨e'', he'', hsame⟩ := exists_offers_members hplain hc h
        (hprep.adds.regular hd.regular) (hprep.not_offers hd hnew) hslot he
      exact he''.unique he' ▸ hsame hanew
    have hx₂ := hback x hx hxc slot e' hslot he'
    by_cases hyc : y = c
    · -- A class that extends this one and offers something would have been emitted before, or as
      -- one of its ancestors.
      subst hyc
      rcases hprep.adds.gains _ slot e' hslot hx₂ with hbefore | ⟨hunclaimed, hclaimed, -⟩
      · exact absurd (hkin.parents x y hx hy slot e' hslot hbefore) hnew
      · obtain ⟨x', hx', hled, hname⟩ := (hprep.ancestors _ hclaimed).resolve_left hunclaimed
        obtain rfl := hnames x' x hx' hx hname
        exact absurd (hled.tail (parentClass?_eq_some_iff.mp hy)) (hacyclic y)
    · exact hkin₂.same x y hx hy slot hslot hanew e e'
        (hback y (.parent hx hy) hyc slot e hslot he) hx₂

theorem kin_class (fuel : Nat) : ∀ c, Reached w conv items c → ∀ d u d', d.Orderly →
    d.Kin w conv items → emitClass w conv fuel c d = some (u, d') → d'.Kin w conv items := by
  induction fuel with
  | zero =>
      intro _ _ _ _ _ _ _ h
      cases h
  | succ fuel ih =>
      intro c hc d u d' hd hkin h
      by_cases hnew : w.className c ∈ d.emitted
      · cases (emitClass_of_mem hnew).symm.trans h
        exact hkin
      obtain ⟨d₂, hparent, hroot, hmembers⟩ := exists_members_of_emitClass hnew h
      have hprep : Prepared w conv items c d d₂ := prepared_of_parent
        (fun p hp => classRun hplain fuel p (.parent hc hp) _ _ _ (hparent p hp)) hroot
      have hkin₁ : (d.claimed (w.className c)).Kin w conv items :=
        hkin.of_gains (fun _ hn => List.mem_cons_of_mem _ hn) (.refl _)
      have hkin₂ : d₂.Kin w conv items := by
        cases hp : parentClass? w c with
        | none => exact hroot hp ▸ hkin₁
        | some p =>
            exact ih p (.parent hc hp) _ _ _ (hd.of_adds (d.adds_claimed _)) hkin₁ (hparent p hp)
      exact kin_members hplain hacyclic hnames hc hd hkin hnew hprep hkin₂ hmembers

theorem kin_of_comes {rest : List SurfaceItem} {d : Deriver} (h : Comes w conv items rest d) :
    d.Kin w conv items := by
  induction h with
  | start => exact Deriver.kin_start
  | @item item rest d d' u before run ih =>
      obtain ⟨hsub, hd, -⟩ := orderly_of_comes hplain before
      rcases class_or_brings_of_emitItem run with ⟨scope, decl, name, rfl, run⟩ | ⟨-, run⟩
      · exact kin_class hplain hacyclic hnames _ _ (.exported (hsub List.mem_cons_self)) _ _ _ hd ih
          run
      · obtain ⟨hemitted, hgains⟩ := gains_item run
        exact ih.of_gains (fun _ hn => hemitted ▸ hn) hgains
  | @referred c d d₁ d₂ u before next run ih =>
      obtain ⟨hc, hd₁⟩ := orderly_of_turns hplain (.referred before next)
      exact kin_class hplain hacyclic hnames _ c hc _ _ _ hd₁
        (ih.of_takes (takes_of_nextPending next)) run

theorem kin_of_turns {fuel : Nat} {c : ClassRef} {d : Deriver}
    (h : Turns w conv items fuel c d) : d.Kin w conv items := by
  induction h with
  | exported h => exact kin_of_comes hplain hacyclic hnames h
  | referred h next =>
      exact (kin_of_comes hplain hacyclic hnames h).of_takes (takes_of_nextPending next)
  | parent h new hp ih => exact ih.of_gains (fun _ hn => List.mem_cons_of_mem _ hn) (.refl _)

end Lines

/-! ## Lines of ancestors -/

/-- The line of ancestors from a class to one of them, with the classes in between. -/
inductive Line (w : World) : ClassRef → List ClassRef → ClassRef → Prop
  | parent {c p : ClassRef} (h : parentClass? w c = some p) : Line w c [] p
  | beyond {c p a : ClassRef} {l : List ClassRef} (h : parentClass? w c = some p)
      (rest : Line w p l a) : Line w c (p :: l) a

/-- Along a line on which nothing is declared anew the entries are the same. -/
theorem same_of_line {d : Deriver} (hkin : d.Kin w conv items) {slot : Slot} (hslot : slot.Plain)
    {c a : ClassRef} {l : List ClassRef} (h : Line w c l a) : Reached w conv items c →
      (∀ x ∈ l, ∃ e, d.schema.Offers (w.className x) slot e) →
      (∀ x ∈ c :: l, ¬ x.Declares w conv slot) → ∀ e e', d.schema.Offers (w.className a) slot e →
        d.schema.Offers (w.className c) slot e' → slot.Same e e' := by
  induction h with
  | parent hp =>
      intro hc _ hanew e e' he he'
      exact hkin.same _ _ hc hp slot hslot (hanew _ List.mem_cons_self) e e' he he'
  | beyond hp rest ih =>
      intro hc hoffers hanew e e' he he'
      obtain ⟨⟨ep, hep⟩, hoffers⟩ := List.forall_mem_cons.mp hoffers
      obtain ⟨hc', hanew⟩ := List.forall_mem_cons.mp hanew
      exact (ih (.parent hc hp) hoffers hanew e ep he hep).trans
        (hkin.same _ _ hc hp slot hslot hc' ep e' hep he')

/-! ## Sources -/

/-- The derivation from statements that lead to the items emits the class. -/
abbrev EmittedIn (ss : List Statement) (items : List SurfaceItem) : ClassRef → Deriver → Prop :=
  Emitted (worldOf ss items) (convertFully (worldOf ss items)) items

theorem declares_of_reached {ss : List Statement} {items : List SurfaceItem}
    (hitems : IsSurface ss items) {c : ClassRef} (hc : ReachedIn ss items c) :
    (worldOf ss items).scopes.Declares c := by
  have hconv : Keeps (worldOf ss items) (fun _ => True) (Guess.Sound fun _ => True)
      (convertFully (worldOf ss items)) := keeps_convertFully hereditary_sound fun _ _ => trivial
  cases hc with
  | exported hitem => exact itemsDeclared_surface hitems _ _ _ hitem
  | @ofItem item c hitem hrefers =>
      obtain ⟨es, refs, heq, hr⟩ := hrefers
      exact (keeps_itemEntries hereditary_sound hconv item es refs heq).1 c hr
  | parent hc hp => exact parentClass?_declares hp
  | @ofClass c _ hc hrefers =>
      obtain ⟨es, refs, heq, hr⟩ := hrefers
      exact (keeps_classEntries hereditary_sound hconv c es refs heq).1 _ hr

theorem undottedMethods_of_shows {ss : List Statement} {items : List SurfaceItem}
    (hitems : IsSurface ss items) (hmembers : (Scopes.ofStatements ss).Shows Member.Undotted) :
    UndottedMethods (worldOf ss items) (convertFully (worldOf ss items)) items :=
  fun _ _ hc hes => undotted_of_mem_defined (w := worldOf ss items) hmembers
    (declares_of_reached hitems hc) hes

/-- **A class offers what its ancestors offer.**  In the schema as it stands when a class has been
emitted, the class has an entry for the constructor and for each method of its parent, with the
class itself as the first argument of a method; and so for every ancestor whose line to the class is
one of classes that offer it.  Where none of these classes declares it anew, nor an interface that
they implement, the arguments are those of the ancestor's, the receiver apart, and the result is
that of the ancestor's method; for an ancestor beyond the parent, no two classes that are reached
may have one name. -/
theorem offers_of_line {ss : List Statement} {items : List SurfaceItem}
    (hitems : IsSurface ss items) (hmembers : (Scopes.ofStatements ss).Shows Member.Undotted)
    (hacyclic : ∀ c, ¬ TransGen (Scopes.ofStatements ss).Extends c c) {c a : ClassRef} {d : Deriver}
    (h : EmittedIn ss items c d) {l : List ClassRef} (hline : Line (worldOf ss items) c l a)
    {slot : Slot} (hslot : slot.Plain)
    (hbetween : ∀ x ∈ l, ∃ e, d.schema.Offers ((worldOf ss items).className x) slot e) {e : Entry}
    (he : d.schema.Offers ((worldOf ss items).className a) slot e) :
    let w := worldOf ss items
    ∃ e', d.schema.Offers (w.className c) slot e' ∧ slot.Fits (w.className c) e' ∧
      ((∀ x ∈ c :: l, ¬ x.Declares w (convertFully w) slot) → l = [] ∨ DistinctNames ss items →
        slot.Same e e') := by
  intro w
  obtain ⟨fuel, before, u, hturns, hnew, hrun⟩ := h
  have hplain := undottedMethods_of_shows hitems hmembers
  obtain ⟨hc, hd⟩ := orderly_of_turns hplain hturns
  cases hline with
  | parent hp =>
      obtain ⟨e', he', hfits, hsame⟩ :=
        exists_offers_of_parent hplain hc hd hnew hrun hp hslot he
      exact ⟨e', he', hfits, fun hanew _ => hsame (hanew c List.mem_cons_self)⟩
  | @beyond _ p _ l hp rest =>
      obtain ⟨ep, hep⟩ := hbetween p List.mem_cons_self
      obtain ⟨e', he', hfits, -⟩ := exists_offers_of_parent hplain hc hd hnew hrun hp hslot hep
      refine ⟨e', he', hfits, fun hanew hnames => ?_⟩
      have hnames : DistinctNames ss items := hnames.resolve_left (List.cons_ne_nil _ _)
      have hkin : d.Kin w (convertFully w) items := kin_class hplain hacyclic hnames fuel c hc
        before u d hd (kin_of_turns hplain hacyclic hnames hturns) hrun
      exact same_of_line hkin hslot (.beyond hp rest) hc hbetween hanew e e' he he'

/-! ## Texts -/

/-- Whether the line of parents of a class ends within a number of steps. -/
def endsWithin (w : World) : Nat → ClassRef → Bool
  | 0, _ => false
  | n + 1, c => (parentClass? w c).all (endsWithin w n)

theorem not_transGen_of_endsWithin (n : Nat) : ∀ c, endsWithin w n c = true →
    ¬ TransGen w.scopes.Extends c c := by
  induction n with
  | zero => exact nofun
  | succ n ih =>
      intro c h hcycle
      -- The circle goes through the parent, too.
      obtain ⟨p, hp, hrest⟩ := TransGen.head'_iff.mp hcycle
      rw [endsWithin, parentClass?_eq_some_iff.mpr hp] at h
      exact ih p h (.tail' hrest hp)

/-- Whether the lines of parents of all classes end. -/
def Scopes.linesEnd (s : Scopes) (n : Nat) : Bool :=
  s.all.zipIdx.all fun p => p.1.classes.all fun q => endsWithin ⟨s, []⟩ n ⟨p.2, q.2⟩

theorem acyclic_of_linesEnd {s : Scopes} {n : Nat} (h : s.linesEnd n = true) (c : ClassRef) :
    ¬ TransGen s.Extends c c := by
  intro hcycle
  obtain ⟨b, -, path, args, -, hname⟩ := TransGen.tail'_iff.mp hcycle
  obtain ⟨sc, name, hsc, hc⟩ := Scopes.typeNamed?_declares hname
  have hmem : (sc, c.scope) ∈ s.all.zipIdx := List.mem_zipIdx_iff_getElem?.mpr hsc
  have hends := List.all_eq_true.mp (List.all_eq_true.mp h _ hmem) _ (Table.mem_of_find? hc)
  exact not_transGen_of_endsWithin (w := ⟨s, []⟩) n c hends hcycle

/-- Whether no member that the scopes show has a dot in its name. -/
def Scopes.noDots (s : Scopes) : Bool :=
  s.all.all fun sc => sc.members.all fun m => m.name?.all fun n => !n.toList.contains '.'

theorem shows_undotted_of_noDots {s : Scopes} (h : s.noDots = true) : s.Shows Member.Undotted := by
  intro sc hsc m hm n hn
  have hall := List.all_eq_true.mp (List.all_eq_true.mp h sc hsc) m hm
  rw [hn] at hall
  simpa [Undotted] using hall

/-- Whether a class of the name offers something in the slot. -/
def offers (s : Schema) (owner : String) (slot : Slot) : Bool :=
  (s.find? (slot.entryName owner)).any fun e => e.convention == slot.convention

theorem offers_iff {s : Schema} {owner : String} {slot : Slot} :
    offers s owner slot = true ↔ ∃ e, s.Offers owner slot e := by
  rw [offers, Option.any_eq_true]
  exact exists_congr fun e => and_congr_right fun _ => beq_iff_eq

/-- Whether the last item is a class that is emitted under a new name, and class and schema pass the
test then. -/
def emitsLast (w : World) (items : List SurfaceItem) (test : ClassRef → Schema → Bool) : Bool :=
  items.getLast?.any fun item => item.classRef?.any fun c =>
    (emitItems w (convertFully w) items.dropLast .start).any fun before =>
      !before.2.emitted.contains (w.className c) &&
        (emitItem w (convertFully w) item before.2).any fun after => test c after.2.schema

theorem exists_emitted_of_emitsLast {test : ClassRef → Schema → Bool}
    (h : emitsLast w items test = true) :
    ∃ c d, Emitted w (convertFully w) items c d ∧ test c d.schema = true := by
  obtain ⟨item, hitem, h⟩ := (Option.any_eq_true _ _).mp h
  obtain ⟨c, hc, h⟩ := (Option.any_eq_true _ _).mp h
  obtain ⟨⟨u, d⟩, hbefore, h⟩ := (Option.any_eq_true _ _).mp h
  obtain ⟨hnew, h⟩ := Bool.and_eq_true_iff.mp h
  obtain ⟨⟨u', d'⟩, hrun, htest⟩ := (Option.any_eq_true _ _).mp h
  have hsplit : items.dropLast ++ [item] = items := List.dropLast_append_getLast? item hitem
  have hcomes : Comes w (convertFully w) items [item] d :=
    comes_of_emitItems items.dropLast (hsplit.symm ▸ .start) hbefore
  cases item with
  | ofFunction | ofVariable => cases hc
  | ofClass scope decl name =>
      cases hc
      exact ⟨_, d', ⟨_, d, u', .exported hcomes, by simpa using hnew, hrun⟩, htest⟩

/-- Classes that are exported next to one another have names of their own. -/
theorem distinctNames_of_exported {text : String} {ss : List Statement} (hss : parse text = .ok ss)
    (hexported : allExported ss = true)
    (hscopes : ((exportedDecls ss).all fun d => !d.opensScope) = true)
    (hnames : ((exportedDecls ss).map Decl.name).Nodup)
    (hacyclic : ∀ c, ¬ TransGen (Scopes.ofStatements ss).Extends c c) :
    IsSurface ss (itemsOf (exportedDecls ss)) ∧ DistinctNames ss (itemsOf (exportedDecls ss)) := by
  have hsame := exportedAll_exportedDecls hexported
  have hscopes : ∀ d ∈ exportedDecls ss, d.opensScope = false := fun d hd => by
    simpa using List.all_eq_true.mp hscopes d hd
  have hundotted : ∀ d ∈ exportedDecls ss, Undotted d.name := fun d hd =>
    undotted_of_parse (hsame.symm ▸ hss)
      (List.mem_map_of_mem (f := fun d => Statement.decl d true) hd) (hscopes d hd)
  have hitems := isSurface_itemsOf hscopes hnames hundotted
  have hflat := flat_worldOfDecls hscopes hnames hundotted (hsame.symm ▸ hacyclic)
  rw [worldOfDecls, hsame] at hflat
  rw [hsame] at hitems
  exact ⟨hitems, fun r r' hr hr' => hflat.tidy.distinct r r' (declares_of_reached hitems hr)
    (declares_of_reached hitems hr')⟩

/-- A class without the method that implements nothing does not declare it. -/
theorem not_declares_of_silent {c : ClassRef} {m : String} (hm : (!c.hasMethod m) = true)
    (hinterfaces : c.decl.interfaces.isEmpty = true) : ¬ c.Declares w conv (.method m) := by
  rintro (⟨member, hmember, sig, hsig⟩ | ⟨env, -, ty, hty, -⟩)
  · have hhas : c.hasMethod m = true :=
      List.any_eq_true.mpr ⟨member, hmember, by rw [hsig]; exact beq_self_eq_true m⟩
    rw [hhas] at hm
    cases hm
  · rw [List.isEmpty_iff.mp hinterfaces] at hty
    cases hty

/-- Three classes in a line; the first one has a constructor and a method. -/
def puppyText : String :=
  "export declare class Animal \x7b constructor(name: string); speak(n: number): string \x7d " ++
    "export declare class Dog extends Animal \x7b fetch(): void \x7d " ++
    "export declare class Puppy extends Dog \x7b\x7d"

/-- The method comes down the whole line. -/
theorem puppy_speaks : ∃ ss items c b a d e, parse puppyText = .ok ss ∧ IsSurface ss items ∧
    (Scopes.ofStatements ss).Shows Member.Undotted ∧
    (∀ c, ¬ TransGen (Scopes.ofStatements ss).Extends c c) ∧ DistinctNames ss items ∧
    EmittedIn ss items c d ∧ Line (worldOf ss items) c [b] a ∧ (Slot.method "speak").Plain ∧
    (∃ e, d.schema.Offers ((worldOf ss items).className b) (.method "speak") e) ∧
    d.schema.Offers ((worldOf ss items).className a) (.method "speak") e ∧
    ∃ e', d.schema.Offers ((worldOf ss items).className c) (.method "speak") e' ∧
      (Slot.method "speak").Fits ((worldOf ss items).className c) e' ∧
      (Slot.method "speak").Same e e' := by
  have hcheck : (parse puppyText).toOption.any (fun ss => allExported ss &&
      ((exportedDecls ss).all fun d => !d.opensScope) &&
      decide ((exportedDecls ss).map Decl.name).Nodup && (Scopes.ofStatements ss).noDots &&
      (Scopes.ofStatements ss).linesEnd 3 &&
      let items := itemsOf (exportedDecls ss)
      let w := worldOf ss items
      emitsLast w items fun c s => (parentClass? w c).any fun b => (parentClass? w b).any fun a =>
        offers s (w.className b) (.method "speak") && offers s (w.className a) (.method "speak") &&
          [c, b].all fun x => !x.hasMethod "speak" && x.decl.interfaces.isEmpty) = true := by
    decide +kernel
  obtain ⟨ss, hss, hcheck⟩ := exists_ok_of_any hcheck
  simp only [Bool.and_eq_true, decide_eq_true_eq] at hcheck
  obtain ⟨⟨⟨⟨⟨hexported, hscopes⟩, hnames⟩, hdots⟩, hends⟩, hemits⟩ := hcheck
  obtain ⟨c, d, hd, htest⟩ := exists_emitted_of_emitsLast hemits
  obtain ⟨b, hb, htest⟩ := (Option.any_eq_true _ _).mp htest
  obtain ⟨a, ha, htest⟩ := (Option.any_eq_true _ _).mp htest
  simp only [Bool.and_eq_true, List.all_eq_true] at htest
  obtain ⟨⟨hoffersB, hoffersA⟩, hsilent⟩ := htest
  obtain ⟨e, he⟩ := offers_iff.mp hoffersA
  have hacyclic := acyclic_of_linesEnd hends
  obtain ⟨hitems, hdistinct⟩ := distinctNames_of_exported hss hexported hscopes hnames hacyclic
  have hline : Line (worldOf ss (itemsOf (exportedDecls ss))) c [b] a := .beyond hb (.parent ha)
  have hbetween := offers_iff.mp hoffersB
  have hmembers := shows_undotted_of_noDots hdots
  have hslot : (Slot.method "speak").Plain := show '.' ∉ "speak".toList by decide
  obtain ⟨e', he', hfits, hsame⟩ := offers_of_line hitems hmembers hacyclic hd hline hslot
    (List.forall_mem_singleton.mpr hbetween) he
  refine ⟨ss, _, c, b, a, d, e, hss, hitems, hmembers, hacyclic, hdistinct, hd, hline, hslot,
    hbetween, he, e', he', hfits, hsame (fun x hx => ?_) (Or.inr hdistinct)⟩
  exact not_declares_of_silent (hsilent x hx).1 (hsilent x hx).2

/-- Three classes in a line, and a namespace that shares the name of the second one and has a
function under the name of a method of the first one. -/
def replacedMethodText : String :=
  "export declare class A \x7b m(): void \x7d export declare class B extends A \x7b\x7d " ++
    "export declare namespace B \x7b function m(): string \x7d " ++
    "export declare class C extends B \x7b\x7d"

/-- **A method does not come down a line on which a function has taken its place.** -/
theorem replacedMethod_not_inherited : ∃ ss items c b a d, parse replacedMethodText = .ok ss ∧
    IsSurface ss items ∧ (Scopes.ofStatements ss).Shows Member.Undotted ∧
    (∀ c, ¬ TransGen (Scopes.ofStatements ss).Extends c c) ∧ EmittedIn ss items c d ∧
    Line (worldOf ss items) c [b] a ∧
    (∃ e, d.schema.Offers ((worldOf ss items).className a) (.method "m") e) ∧
    ∀ e, ¬ d.schema.Offers ((worldOf ss items).className c) (.method "m") e := by
  have hcheck : (parse replacedMethodText).toOption.any (fun ss =>
      (Scopes.ofStatements ss).noDots && (Scopes.ofStatements ss).linesEnd 3 &&
      (surface (Scopes.ofStatements ss) ((Scopes.ofStatements ss).all.length + 1)).toOption.any
        fun items =>
          let w := worldOf ss items
          emitsLast w items fun c s => (parentClass? w c).any fun b =>
            (parentClass? w b).any fun a => offers s (w.className a) (.method "m") &&
              !offers s (w.className c) (.method "m")) = true := by
    decide +kernel
  obtain ⟨ss, hss, hcheck⟩ := exists_ok_of_any hcheck
  simp only [Bool.and_eq_true] at hcheck
  obtain ⟨⟨hdots, hends⟩, hsurface⟩ := hcheck
  obtain ⟨items, hitems, hemits⟩ := exists_ok_of_any hsurface
  obtain ⟨c, d, hd, htest⟩ := exists_emitted_of_emitsLast hemits
  obtain ⟨b, hb, htest⟩ := (Option.any_eq_true _ _).mp htest
  obtain ⟨a, ha, htest⟩ := (Option.any_eq_true _ _).mp htest
  obtain ⟨hoffers, hlost⟩ := Bool.and_eq_true_iff.mp htest
  refine ⟨ss, items, c, b, a, d, hss, hitems, shows_undotted_of_noDots hdots,
    acyclic_of_linesEnd hends, hd, .beyond hb (.parent ha), offers_iff.mp hoffers, fun e he => ?_⟩
  rw [offers_iff.mpr ⟨e, he⟩] at hlost
  cases hlost

end ApiSurface.Declaration
