/-
# `ApiSurface.Proofs.Declaration.Reached` — the classes that a surface reaches, and their entries

A surface reaches the classes that it exports, those that the signatures of its entries refer to,
and from each of these its parent and the classes that its own signatures refer to (`Reached`).  A
derivation keeps a list of names and a list of classes that are noted, and passes over a class whose
name is on the list of names.  What is shown of a run is `Deriver.Covers`: every name that it claims
is the name of a reached class that is settled when the run ends, that is, the entries of its
methods are there, its parent's name is claimed and the classes it refers to are claimed or noted.

A method may lose its entry to another one of the same name.  That happens only if an item or
another class of the surface brings an entry under that very name (`BroughtElsewhere`): methods that
a class takes over from its parent give way to one that is there.
-/
import ApiSurface.Proofs.Declaration.Brought
import ApiSurface.Proofs.Declaration.Emission

namespace ApiSurface

namespace Schema

theorem find?_writes_of_not_mem {n : String} {es : List (String × Entry)}
    (h : n ∉ es.map Prod.fst) (s : Schema) : (s.writes es).find? n = s.find? n := by
  refine List.foldlRecOn (motive := fun t : Schema => t.find? n = s.find? n) _ _ rfl
    fun t ht p hp => ?_
  rw [find?_insert, if_neg, ht]
  rintro rfl
  exact h (List.mem_map_of_mem hp)

theorem find?_writes_of_mem {p : String × Entry} {es : List (String × Entry)}
    (hnodup : (es.map Prod.fst).Nodup) (hp : p ∈ es) (s : Schema) :
    (s.writes es).find? p.1 = some p.2 := by
  induction es generalizing s with
  | nil => cases hp
  | cons q es ih =>
      obtain ⟨hq, hnodup⟩ := List.nodup_cons.mp hnodup
      rcases List.mem_cons.mp hp with rfl | hp
      · exact (find?_writes_of_not_mem hq _).trans ((find?_insert ..).trans (if_pos rfl))
      · exact ih hnodup hp _

end Schema

namespace Declaration

/-! ## What writing keeps -/

theorem find?_inherit_of_ne {name n : String} {m : String × Entry} (hn : n ≠ name ++ "." ++ m.1)
    (receiver : Guess) (s : Schema) : (inherit name receiver s m).find? n = s.find? n := by
  obtain heq | heq := inherit_eq_or name receiver s m <;> rw [heq]
  rw [Schema.find?_insert, if_neg hn]

/-- A method that is there is not replaced by one of the parent. -/
theorem find?_inherit {s : Schema} {n : String} {e : Entry} (h : s.find? n = some e)
    (hmethod : e.convention = .method) (name : String) (receiver : Guess) (m : String × Entry) :
    (inherit name receiver s m).find? n = some e := by
  by_cases hn : n = name ++ "." ++ m.1
  · unfold inherit
    simp only
    rw [← hn, h]
    simp only [hmethod, BEq.rfl, if_true]
    exact h
  · rw [find?_inherit_of_ne hn, h]

namespace ClassEntries

variable {es : ClassEntries} {name : String}

theorem find?_writesAll_of_own {n : String} {e : Entry} {parent : Option String} {s : Schema}
    (h : (es.writesOwn name parent s).find? n = some e) (hmethod : e.convention = .method) :
    (es.writesAll name parent s).find? n = some e := by
  unfold writesAll
  cases parent with
  | none => exact h
  | some p =>
      exact List.foldlRecOn (motive := fun t : Schema => t.find? n = some e) _ _ h
        fun t ht m _ => find?_inherit ht hmethod name _ m

/-- The names of the entries that a class of the name brings of its own. -/
def names (es : ClassEntries) (name : String) : List String :=
  name :: es.methods.map Prod.fst ++ es.statics.map Prod.fst

theorem find?_writesAll_of_not_mem {n : String} {e : Entry} {s : Schema}
    (hn : n ∉ es.names name) (h : s.find? n = some e) (hmethod : e.convention = .method)
    (parent : Option String) : (es.writesAll name parent s).find? n = some e := by
  obtain ⟨hmethods, hstatics⟩ := not_or.mp (mt List.mem_append.mpr hn)
  obtain ⟨hname, hmethods⟩ := not_or.mp (mt List.mem_cons.mpr hmethods)
  refine find?_writesAll_of_own ?_ hmethod
  rw [writesOwn, Schema.find?_writes_of_not_mem hstatics, Schema.find?_writes_of_not_mem hmethods,
    Schema.find?_insert, if_neg hname, h]

/-- A class leaves its own methods in the schema, whatever was there before. -/
theorem find?_writesAll_of_mem (hes : es.Formed name) {p : String × Entry} (hp : p ∈ es.methods)
    (parent : Option String) (s : Schema) :
    (es.writesAll name parent s).find? p.1 = some p.2 := by
  have hinj : Function.Injective fun m => name ++ "." ++ m := fun a b hab =>
    String.toList_injective (by simpa using congrArg String.toList hab)
  have hnodup : (es.methods.map Prod.fst).Nodup := by
    rw [hes.methods]
    exact (hes.nodup.filter _).map hinj
  refine find?_writesAll_of_own ?_ (hes.methodConvention p hp)
  rw [writesOwn, Schema.find?_writes_of_not_mem, Schema.find?_writes_of_mem hnodup hp]
  intro hstatic
  obtain ⟨q, hq, heq⟩ := List.mem_map.mp hstatic
  obtain ⟨m, hm, hname⟩ := hes.statics q hq
  have hp := List.mem_map_of_mem (f := Prod.fst) hp
  rw [hes.methods] at hp
  obtain ⟨m', hm', hname'⟩ := List.mem_map.mp hp
  obtain rfl : m = m' := hinj (hname.symm.trans (heq.trans hname'.symm))
  exact hm (List.mem_filter.mp hm').1

end ClassEntries

/-! ## What is reached -/

/-- The classes that the items of a surface reach. -/
inductive Reached (w : World) (conv : Converter) (items : List SurfaceItem) : ClassRef → Prop
  | exported {scope : Nat} {decl : ClassDecl} {name : String}
      (hitem : .ofClass scope decl name ∈ items) : Reached w conv items ⟨scope, decl⟩
  | ofItem {item : SurfaceItem} {c : ClassRef} (hitem : item ∈ items)
      (hrefers : (itemEntries w conv item).Refers c) : Reached w conv items c
  | parent {c p : ClassRef} (hc : Reached w conv items c) (hparent : parentClass? w c = some p) :
      Reached w conv items p
  | ofClass {c r : ClassRef} (hc : Reached w conv items c)
      (hrefers : (classEntries w conv c).Refers r) : Reached w conv items r

/-- An item, or a reached class other than the given one, brings an entry under the name. -/
inductive BroughtElsewhere (w : World) (conv : Converter) (items : List SurfaceItem) (c : ClassRef)
    (n : String) : Prop
  | byItem {item : SurfaceItem} {es : List (String × Entry)} (hitem : item ∈ items)
      (hes : (itemEntries w conv item).Gives es) (hn : n ∈ es.map Prod.fst) :
      BroughtElsewhere w conv items c n
  | byClass {c' : ClassRef} {es : ClassEntries} (hreached : Reached w conv items c') (hne : c' ≠ c)
      (hes : (classEntries w conv c').Gives es) (hn : n ∈ es.names (w.className c')) :
      BroughtElsewhere w conv items c n

/-- The entry is that of a method that the class brings. -/
def Owns (w : World) (conv : Converter) (c : ClassRef) (p : String × Entry) : Prop :=
  ∃ es, (classEntries w conv c).Gives es ∧ p ∈ es.methods

/-- The name of the class is claimed, or the class is noted. -/
def Deriver.Knows (w : World) (d : Deriver) (c : ClassRef) : Prop :=
  w.className c ∈ d.emitted ∨ c ∈ d.pending

/-- The entries of a class are there, and what it leads to is known. -/
structure Deriver.Settled (w : World) (conv : Converter) (items : List SurfaceItem) (d : Deriver)
    (c : ClassRef) : Prop where
  gives : ∃ es, (classEntries w conv c).Gives es
  methods : ∀ p, Owns w conv c p →
    d.schema.find? p.1 = some p.2 ∨ BroughtElsewhere w conv items c p.1
  parent : ∀ p, parentClass? w c = some p → w.className p ∈ d.emitted
  refers : ∀ r, (classEntries w conv c).Refers r → d.Knows w r

/-- What a run over reached classes keeps, and what it makes of the names that it claims. -/
structure Deriver.Covers (w : World) (conv : Converter) (items : List SurfaceItem)
    (d d' : Deriver) : Prop where
  emitted : ∀ n ∈ d.emitted, n ∈ d'.emitted
  known : ∀ c, d.Knows w c → d'.Knows w c
  reached : ∀ c ∈ d'.pending, c ∈ d.pending ∨ Reached w conv items c
  kept : ∀ c p, Owns w conv c p → d.schema.find? p.1 = some p.2 →
    d'.schema.find? p.1 = some p.2 ∨ BroughtElsewhere w conv items c p.1
  settled : ∀ n ∈ d'.emitted, n ∈ d.emitted ∨
    ∃ c, Reached w conv items c ∧ w.className c = n ∧ d'.Settled w conv items c

variable {w : World} {conv : Converter} {items : List SurfaceItem}

namespace Deriver

variable {d d' d'' : Deriver}

theorem Covers.refl (d : Deriver) : d.Covers w conv items d :=
  ⟨fun _ h => h, fun _ h => h, fun _ h => Or.inl h, fun _ _ _ h => Or.inl h, fun _ h => Or.inl h⟩

theorem Settled.of_covers {c : ClassRef} (h : d.Settled w conv items c)
    (hcovers : d.Covers w conv items d') : d'.Settled w conv items c where
  gives := h.gives
  methods := fun p hp => (h.methods p hp).elim (hcovers.kept c p hp) Or.inr
  parent := fun p hp => hcovers.emitted _ (h.parent p hp)
  refers := fun r hr => hcovers.known r (h.refers r hr)

theorem Covers.trans (h : d.Covers w conv items d') (h' : d'.Covers w conv items d'') :
    d.Covers w conv items d'' where
  emitted := fun n hn => h'.emitted n (h.emitted n hn)
  known := fun c hc => h'.known c (h.known c hc)
  reached := fun c hc => (h'.reached c hc).elim (h.reached c) Or.inr
  kept := fun c p hp hd => (h.kept c p hp hd).elim (h'.kept c p hp) Or.inr
  settled := by
    intro n hn
    rcases h'.settled n hn with hn | hn
    · rcases h.settled n hn with hn | ⟨c, hc, hname, hsettled⟩
      · exact Or.inl hn
      · exact Or.inr ⟨c, hc, hname, hsettled.of_covers h'⟩
    · exact Or.inr hn

end Deriver

theorem Owns.convention {c : ClassRef} {p : String × Entry} (h : Owns w conv c p) :
    p.2.convention = .method := by
  obtain ⟨es, hes, hp⟩ := h
  exact (formed_classEntries hes).1.methodConvention p hp

/-- What a run does that converts first and then writes. -/
theorem brings_eq_some {α : Type} {x : Conversion α} {change : α → Schema → Schema}
    {d d' : Deriver} {u : Unit} (h : Derive.brings w (change <$> x) d = some (u, d')) :
    ∃ a, x.Gives a ∧ d'.schema = change a d.schema ∧ d'.emitted = d.emitted ∧
      (∀ r, x.Refers r → d'.Knows w r) ∧ (∀ c ∈ d.pending, c ∈ d'.pending) ∧
      ∀ c ∈ d'.pending, c ∈ d.pending ∨ x.Refers c := by
  cases hx : x with
  | none =>
      rw [hx] at h
      cases h
  | some p =>
      obtain ⟨a, refs⟩ := p
      rw [hx] at h
      cases h
      refine ⟨a, ⟨refs, rfl⟩, rfl, rfl, ?_, fun c hc => List.mem_append_right _ hc,
        fun c hc => ?_⟩
      · rintro r ⟨_, _, heq, hr⟩
        cases heq
        by_cases hemitted : w.className r ∈ d.emitted
        · exact Or.inl hemitted
        · refine Or.inr (List.mem_append_left _
            (List.mem_reverse.mpr (List.mem_filter.mpr ⟨?_, ?_⟩)))
          · rw [List.append_nil]
            exact hr
          · simpa using hemitted
      · rcases List.mem_append.mp hc with hc | hc
        · have hc := (List.mem_filter.mp (List.mem_reverse.mp hc)).1
          rw [List.append_nil] at hc
          exact Or.inr ⟨a, refs, rfl, hc⟩
        · exact Or.inl hc

/-! ## Classes -/

/-- A run that neither claims a name nor touches the schema but by writing. -/
theorem covers_of_brings {α : Type} {x : Conversion α} {change : α → Schema → Schema}
    {d d' : Deriver} {u : Unit} (hreached : ∀ c, x.Refers c → Reached w conv items c)
    (hkept : ∀ a, x.Gives a → ∀ c p, Owns w conv c p → d.schema.find? p.1 = some p.2 →
      (change a d.schema).find? p.1 = some p.2 ∨ BroughtElsewhere w conv items c p.1)
    (h : Derive.brings w (change <$> x) d = some (u, d')) : d.Covers w conv items d' := by
  obtain ⟨a, ha, hschema, hemitted, -, hpending, hnew⟩ := brings_eq_some h
  refine ⟨fun n hn => hemitted ▸ hn, fun c hc => ?_, fun c hc => (hnew c hc).imp_right (hreached c),
    fun c p hp hd => hschema ▸ hkept a ha c p hp hd, fun n hn => Or.inl (hemitted ▸ hn)⟩
  exact hc.imp (fun hn => hemitted ▸ hn) (hpending c)

theorem covers_members {c : ClassRef} (hc : Reached w conv items c) {parent : Option String}
    {d d' : Deriver} {u : Unit} (h : emitMembers w conv c parent d = some (u, d')) :
    d.Covers w conv items d' ∧ d'.emitted = d.emitted ∧
      (∃ es, (classEntries w conv c).Gives es) ∧
      (∀ p, Owns w conv c p → d'.schema.find? p.1 = some p.2) ∧
      ∀ r, (classEntries w conv c).Refers r → d'.Knows w r := by
  rw [emitMembers_eq] at h
  obtain ⟨es, hes, hschema, hemitted, hknows, -⟩ := brings_eq_some h
  have hown : ∀ p, Owns w conv c p → ∀ s,
      (es.writesAll (w.className c) parent s).find? p.1 = some p.2 := by
    rintro p ⟨es', hes', hp⟩ s
    obtain rfl := hes.unique hes'
    exact ClassEntries.find?_writesAll_of_mem (formed_classEntries hes).1 hp parent s
  refine ⟨covers_of_brings (fun r hr => .ofClass hc hr) ?_ h, hemitted, ⟨es, hes⟩,
    fun p hp => hschema ▸ hown p hp _, hknows⟩
  intro es' hes' c' p hp hd
  obtain rfl := hes.unique hes'
  by_cases hsame : c' = c
  · subst hsame
    exact Or.inl (hown p hp _)
  · by_cases hn : p.1 ∈ es.names (w.className c)
    · exact Or.inr (.byClass hc (fun h => hsame h.symm) hes hn)
    · exact Or.inl (ClassEntries.find?_writesAll_of_not_mem hn hd hp.convention parent)

/-- A class is settled when its emission ends, unless its name was claimed before. -/
theorem covers_class (fuel : Nat) : ∀ c, Reached w conv items c → ∀ d u d',
    emitClass w conv fuel c d = some (u, d') →
      d.Covers w conv items d' ∧ w.className c ∈ d'.emitted := by
  induction fuel with
  | zero =>
      intro _ _ _ _ _ h
      cases h
  | succ fuel ih =>
      intro c hc d u d' h
      by_cases hnew : w.className c ∈ d.emitted
      · cases (emitClass_of_mem hnew).symm.trans h
        exact ⟨.refl d, hnew⟩
      obtain ⟨d₂, hparent, hroot, hmembers⟩ := exists_members_of_emitClass hnew h
      have hbefore : (d.claimed (w.className c)).Covers w conv items d₂ := by
        cases hp : parentClass? w c with
        | none => exact hroot hp ▸ .refl _
        | some p => exact (ih p (.parent hc hp) _ _ _ (hparent p hp)).1
      obtain ⟨hafter, hemitted, hgives, hown, hknows⟩ := covers_members hc hmembers
      have hcovers := hbefore.trans hafter
      have hsettled : d'.Settled w conv items c :=
        ⟨hgives, fun p hp => Or.inl (hown p hp),
          fun p hp => hafter.emitted _ (ih p (.parent hc hp) _ _ _ (hparent p hp)).2, hknows⟩
      refine ⟨⟨fun n hn => hcovers.emitted n (List.mem_cons_of_mem _ hn), fun c' hc' => ?_,
        hcovers.reached, hcovers.kept, fun n hn => ?_⟩, hcovers.emitted _ List.mem_cons_self⟩
      · exact hcovers.known c' (hc'.imp_left fun hn => List.mem_cons_of_mem _ hn)
      · rcases hcovers.settled n hn with hn | hn
        · rcases List.mem_cons.mp hn with rfl | hn
          · exact Or.inr ⟨c, hc, rfl, hsettled⟩
          · exact Or.inl hn
        · exact Or.inr hn

/-! ## Items and what they lead to -/

/-- What an item leads to is known. -/
def Deriver.Done (w : World) (conv : Converter) (d : Deriver) (item : SurfaceItem) : Prop :=
  (∀ scope decl name, item = .ofClass scope decl name → w.className ⟨scope, decl⟩ ∈ d.emitted) ∧
    ∀ r, (itemEntries w conv item).Refers r → d.Knows w r

theorem covers_item {item : SurfaceItem} (hitem : item ∈ items) {d d' : Deriver} {u : Unit}
    (h : emitItem w conv item d = some (u, d')) :
    d.Covers w conv items d' ∧ d'.Done w conv item := by
  rcases class_or_brings_of_emitItem h with ⟨scope, decl, name, rfl, h⟩ | ⟨hother, h⟩
  · obtain ⟨hcovers, hmem⟩ := covers_class _ ⟨scope, decl⟩ (.exported hitem) d u d' h
    refine ⟨hcovers, ?_, ?_⟩
    · rintro _ _ _ ⟨rfl⟩
      exact hmem
    · rintro r ⟨_, _, heq, hr⟩
      cases heq
      cases hr
  · obtain ⟨es, hes, -, -, hknows, -⟩ := brings_eq_some h
    refine ⟨covers_of_brings (fun r hr => .ofItem hitem hr) ?_ h,
      fun scope decl name heq => absurd heq (hother scope decl name), hknows⟩
    intro es' hes' c p hp hd
    by_cases hn : p.1 ∈ es'.map Prod.fst
    · exact Or.inr (.byItem hitem hes' hn)
    · exact Or.inl ((Schema.find?_writes_of_not_mem hn _).trans hd)

theorem Deriver.Done.of_covers {d d' : Deriver} {item : SurfaceItem} (h : d.Done w conv item)
    (hcovers : d.Covers w conv items d') : d'.Done w conv item :=
  ⟨fun scope decl name heq => hcovers.emitted _ (h.1 scope decl name heq),
    fun r hr => hcovers.known r (h.2 r hr)⟩

theorem covers_items (part : List SurfaceItem) : part ⊆ items → ∀ d u d',
    emitItems w conv part d = some (u, d') →
      d.Covers w conv items d' ∧ ∀ item ∈ part, d'.Done w conv item := by
  induction part with
  | nil =>
      intro _ d u d' h
      cases h
      exact ⟨.refl d, nofun⟩
  | cons item rest ih =>
      intro hsub d u d' h
      obtain ⟨u₁, d₁, hitem, hrest⟩ := Derive.bind_eq_some_iff.mp h
      obtain ⟨hfirst, hdone⟩ := covers_item (hsub List.mem_cons_self) hitem
      obtain ⟨hothers, hall⟩ :=
        ih (fun x hx => hsub (List.mem_cons_of_mem _ hx)) d₁ u d' hrest
      exact ⟨hfirst.trans hothers,
        List.forall_mem_cons.mpr ⟨hdone.of_covers hothers, hall⟩⟩

/-- What the emission of the class that is taken covers, taking and emitting it covers. -/
theorem Deriver.Takes.covers {c? : Option ClassRef} {d d₁ d₂ : Deriver} (h : d.Takes w c? d₁)
    (hcovers : d₁.Covers w conv items d₂)
    (hclaimed : ∀ c, c? = some c → w.className c ∈ d₂.emitted) : d.Covers w conv items d₂ where
  emitted n hn := hcovers.emitted n (h.emitted ▸ hn)
  known x hx := by
    rcases hx with hx | hx
    · exact hcovers.known x (Or.inl (h.emitted ▸ hx))
    · rcases h.passed x hx with hx | hx | hx
      · exact hcovers.known x (Or.inl (h.emitted ▸ hx))
      · exact Or.inl (hclaimed x hx)
      · exact hcovers.known x (Or.inr hx)
  reached x hx := (hcovers.reached x hx).imp_left fun hx => h.left hx
  kept c p hp hd := hcovers.kept c p hp (h.schema ▸ hd)
  settled n hn := h.emitted ▸ hcovers.settled n hn

/-- In the end every class that is noted has been dealt with. -/
theorem covers_pending (fuel : Nat) : ∀ d u d', (∀ c ∈ d.pending, Reached w conv items c) →
    emitPending w conv fuel d = some (u, d') → d.Covers w conv items d' ∧ d'.pending = [] := by
  induction fuel with
  | zero =>
      intro _ _ _ _ h
      cases h
  | succ fuel ih =>
      intro d u d' hreached h
      rcases next_of_emitPending h with hnext | ⟨c, d₁, d₂, hnext, hclass, hrest⟩
      · have htakes := takes_of_nextPending hnext
        exact ⟨htakes.covers (.refl d') nofun, htakes.last rfl⟩
      · have htakes := takes_of_nextPending hnext
        obtain ⟨hcovers, hclaimed⟩ :=
          covers_class _ c (hreached c (htakes.noted c rfl)) d₁ () d₂ hclass
        have hfirst : d.Covers w conv items d₂ :=
          htakes.covers hcovers fun _ heq => Option.some.inj heq ▸ hclaimed
        obtain ⟨hrest, hempty⟩ :=
          ih d₂ u d' (fun x hx => (hfirst.reached x hx).elim (hreached x) id) hrest
        exact ⟨hfirst.trans hrest, hempty⟩

/-! ## Whole runs -/

/-- **Every class that a surface reaches is settled in the end**, as long as no two of them have one
name: then a class is never passed over for another one. -/
theorem settled_of_emitAll {d : Deriver} {u : Unit}
    (h : emitAll w conv items ⟨.empty, [], []⟩ = some (u, d))
    (hnames : ∀ c c', Reached w conv items c → Reached w conv items c' →
      w.className c = w.className c' → c = c') {c : ClassRef} (hc : Reached w conv items c) :
    d.Settled w conv items c := by
  obtain ⟨u₁, d₁, hitems, hpending⟩ := Derive.bind_eq_some_iff.mp h
  obtain ⟨hfirst, hdone⟩ := covers_items items (fun _ h => h) _ u₁ d₁ hitems
  have hreached : ∀ c ∈ d₁.pending, Reached w conv items c := fun c hc =>
    (hfirst.reached c hc).resolve_left (nomatch ·)
  obtain ⟨hlast, hempty⟩ := covers_pending _ d₁ u d hreached hpending
  have hsettled : ∀ c, Reached w conv items c → w.className c ∈ d.emitted →
      d.Settled w conv items c := by
    intro c hc hmem
    obtain ⟨c', hc', hname, hsettled⟩ :=
      ((hfirst.trans hlast).settled _ hmem).resolve_left (nomatch ·)
    exact hnames c' c hc' hc hname ▸ hsettled
  have hknown : ∀ c, d.Knows w c → w.className c ∈ d.emitted := fun c hc =>
    hc.resolve_right (by rw [hempty]; exact nofun)
  refine hsettled c hc ?_
  induction hc with
  | exported hitem => exact hlast.emitted _ ((hdone _ hitem).1 _ _ _ rfl)
  | ofItem hitem hrefers => exact hknown _ (hlast.known _ ((hdone _ hitem).2 _ hrefers))
  | parent hc hparent ih => exact (hsettled _ hc ih).parent _ hparent
  | ofClass hc hrefers ih => exact hknown _ ((hsettled _ hc ih).refers _ hrefers)

end Declaration

end ApiSurface
