/-
# `ApiSurface.Proofs.Declaration.Described` — the schema that items describe

On a flat surface every item has a region of its own, classes and others alike.  A run over the
items ends with a schema that says of every item what the item brings and nothing else
(`describes_of_emitAll`).  No order of the items comes into that description, and it fits one schema
only (`Describes.unique`); and if it fits any, each order of the items has a run that ends with it
(`exists_run_of_describes`).
-/
import ApiSurface.Proofs.Declaration.Regions

namespace ApiSurface.Declaration

open Conversion Relation

variable {w : World} {conv : Converter}

/-! ## Flat surfaces -/

/-- The name of an item. -/
def SurfaceItem.name : SurfaceItem → String
  | .ofClass _ _ name => name
  | .ofFunction _ _ name => name
  | .ofVariable _ _ name _ => name

/-- Whether an item is a class. -/
def SurfaceItem.isClass : SurfaceItem → Bool
  | .ofClass .. => true
  | _ => false

theorem SurfaceItem.ne_ofClass {item : SurfaceItem} (h : item.isClass = false) (scope : Nat)
    (decl : ClassDecl) (name : String) : item ≠ .ofClass scope decl name := by
  rintro rfl
  cases h

/-- Items have names without a dot, each its own; the members of a variable are under its name; and
the classes among them are all that there are, each under its name, and none its own ancestor. -/
structure Flat (w : World) (items : List SurfaceItem) : Prop where
  undotted : ∀ item ∈ items, Undotted item.name
  nodup : (items.map SurfaceItem.name).Nodup
  members : ∀ scope type name memberPrefix,
    .ofVariable scope type name memberPrefix ∈ items → memberPrefix = name ++ "."
  declared : ItemsDeclared w.scopes items
  named : ∀ scope decl name, .ofClass scope decl name ∈ items → w.className ⟨scope, decl⟩ = name
  complete : ∀ c, w.scopes.Declares c → .ofClass c.scope c.decl (w.className c) ∈ items
  acyclic : ∀ c, ¬ TransGen w.scopes.Extends c c

section Items

variable {items : List SurfaceItem}

namespace Flat

variable (hflat : Flat w items)

include hflat

theorem eq_of_under {item item' : SurfaceItem} (h : item ∈ items) (h' : item' ∈ items) {n : String}
    (hn : Under item.name n) (hn' : Under item'.name n) : item = item' :=
  List.inj_on_of_nodup_map hflat.nodup h h'
    (hn.unique (hflat.undotted _ h) (hflat.undotted _ h') hn')

theorem tidy : w.Tidy where
  undotted := fun c hc => hflat.undotted _ (hflat.complete c hc)
  distinct := by
    intro c c' hc hc' hname
    have hsame : SurfaceItem.ofClass c.scope c.decl (w.className c) =
        .ofClass c'.scope c'.decl (w.className c') :=
      List.inj_on_of_nodup_map hflat.nodup (hflat.complete c hc) (hflat.complete c' hc') hname
    obtain ⟨scope, decl⟩ := c
    obtain ⟨scope', decl'⟩ := c'
    obtain ⟨rfl, rfl, -⟩ := SurfaceItem.ofClass.inj hsame
    rfl
  acyclic := hflat.acyclic

/-- What is under an item that is not a class is under no class. -/
theorem not_under_class {item : SurfaceItem} (h : item ∈ items) (hclass : item.isClass = false)
    {c : ClassRef} (hc : w.scopes.Declares c) {n : String} (hn : Under item.name n) :
    ¬ Under (w.className c) n := by
  intro hn'
  rw [hflat.eq_of_under h (hflat.complete c hc) hn hn'] at hclass
  cases hclass

end Flat

/-- Whatever an item brings that is not a class is under its name. -/
theorem under_of_mem_itemEntries (hflat : Flat w items) {item : SurfaceItem} (hitem : item ∈ items)
    {es : List (String × Entry)} (hes : (itemEntries w conv item).Gives es) {p : String × Entry}
    (hp : p ∈ es) : Under item.name p.1 := by
  obtain ⟨groups, hgroups, hes⟩ := gives_bind hes
  suffices ∀ g ∈ groups, Under item.name g.1 by
    have hname := List.mem_map_of_mem (f := Prod.fst) hp
    rw [(gives_named hes).1] at hname
    obtain ⟨g, hg, hname⟩ := List.mem_map.mp hname
    exact hname ▸ this g hg
  have hgroup : ∀ {scope sigs name}, ∀ g ∈ functionGroup scope sigs name, Under name g.1 := by
    intro scope sigs name g hg
    rw [List.mem_singleton.mp hg]
    exact .self name
  cases item with
  | ofClass scope decl name =>
      rw [gives_pure hgroups]
      exact List.forall_mem_nil _
  | ofFunction scope sigs name =>
      rw [gives_pure hgroups]
      exact hgroup
  | ofVariable scope type name memberPrefix =>
      obtain rfl := hflat.members _ _ _ _ hitem
      rw [itemFunctions] at hgroups
      unfold variableFunctions at hgroups
      split at hgroups
      · rw [gives_pure hgroups]
        exact hgroup
      · split at hgroups
        · rw [gives_pure hgroups]
          split
          · exact hgroup
          · exact List.forall_mem_nil _
        · rw [gives_pure hgroups]
          exact List.forall_mem_nil _
      · obtain ⟨members, -, hgroups⟩ := gives_bind hgroups
        rw [gives_pure hgroups]
        cases members with
        | none => exact List.forall_mem_nil _
        | some members =>
            intro g hg
            rcases List.mem_append.mp hg with hg | hg
            · obtain ⟨g, -, rfl⟩ := List.mem_map.mp hg
              exact .member name g.1
            · split at hg
              · rw [List.mem_singleton.mp hg]
                exact .self name
              · cases hg

/-- Under the name of the item the schema has what the item brings and nothing else. -/
def Brings (w : World) (conv : Converter) (s : Schema) : SurfaceItem → Prop
  | .ofClass scope decl _ => Region w conv ⟨scope, decl⟩ s
  | item => ∃ es, (itemEntries w conv item).Gives es ∧
      s.SameUnder item.name (Schema.empty.writes es)

/-- The schema has what the items bring, and nothing else. -/
structure Describes (w : World) (conv : Converter) (items : List SurfaceItem) (s : Schema) :
    Prop where
  brings : ∀ item ∈ items, Brings w conv s item
  elsewhere : ∀ n, (∀ item ∈ items, ¬ Under item.name n) → s.find? n = none

theorem Describes.perm {items' : List SurfaceItem} {s : Schema} (h : Describes w conv items s)
    (hperm : items.Perm items') : Describes w conv items' s :=
  ⟨fun item hitem => h.brings item (hperm.mem_iff.mpr hitem),
    fun n hn => h.elsewhere n fun item hitem => hn item (hperm.mem_iff.mp hitem)⟩

/-- **Items describe one schema.** -/
theorem Describes.unique (hflat : Flat w items) {s t : Schema} (h : Describes w conv items s)
    (h' : Describes w conv items t) : s = t := by
  refine Schema.ext_find? fun n => ?_
  by_cases hn : ∃ item ∈ items, Under item.name n
  · obtain ⟨item, hitem, hn⟩ := hn
    have hs := h.brings item hitem
    have ht := h'.brings item hitem
    cases item with
    | ofClass scope decl name =>
        obtain rfl := hflat.named _ _ _ hitem
        exact Region.unique hs ht n hn
    | ofFunction | ofVariable =>
        obtain ⟨es, hes, hs⟩ := hs
        obtain ⟨es', hes', ht⟩ := ht
        obtain rfl := hes.unique hes'
        exact (hs.trans ht.symm) n hn
  · have hn : ∀ item ∈ items, ¬ Under item.name n := fun item hitem hunder =>
      hn ⟨item, hitem, hunder⟩
    rw [h.elsewhere n hn, h'.elsewhere n hn]

/-! ## Runs over items -/

/-- What holds when the items in the list are done. -/
structure Deriver.Partway (w : World) (conv : Converter) (done : List SurfaceItem) (d : Deriver) :
    Prop where
  regional : d.Regional w conv fun _ => False
  claimed : ∀ scope decl name, .ofClass scope decl name ∈ done →
    w.className ⟨scope, decl⟩ ∈ d.emitted
  brings : ∀ item ∈ done, item.isClass = false → Brings w conv d.schema item
  elsewhere : ∀ n, (∀ c, w.scopes.Declares c → ¬ Under (w.className c) n) →
    (∀ item ∈ done, ¬ Under item.name n) → d.schema.find? n = none

theorem Brings.congr {item : SurfaceItem} (hclass : item.isClass = false) {s t : Schema}
    (h : Brings w conv s item) (hst : t.SameUnder item.name s) : Brings w conv t item := by
  cases item with
  | ofClass => cases hclass
  | ofFunction | ofVariable =>
      obtain ⟨es, hes, hs⟩ := h
      exact ⟨es, hes, hst.trans hs⟩

theorem partway_class (hflat : Flat w items) {done : List SurfaceItem} (hdone : done ⊆ items)
    {scope : Nat} {decl : ClassDecl} {name : String} (hitem : .ofClass scope decl name ∈ items)
    {d d' : Deriver} {u : Unit} (hd : d.Partway w conv done)
    (h : emitItem w conv (.ofClass scope decl name) d = some (u, d')) :
    d'.Partway w conv (done ++ [.ofClass scope decl name]) := by
  have hc : w.scopes.Declares ⟨scope, decl⟩ := hflat.declared _ _ _ hitem
  obtain ⟨hregional, hwrites, hclaimed⟩ := regional_class hflat.tidy _ _ hc (fun _ => False)
    (fun _ h => h.elim) d u d' hd.regional h
  refine ⟨hregional, fun scope' decl' name' hmem => ?_, fun item hmem hclass => ?_,
    fun n hn hn' => ?_⟩
  · rcases List.mem_append.mp hmem with hmem | hmem
    · exact hwrites.emitted _ (hd.claimed _ _ _ hmem)
    · cases List.mem_singleton.mp hmem
      exact hclaimed
  · rcases List.mem_append.mp hmem with hmem | hmem
    · refine (hd.brings item hmem hclass).congr hclass fun n hn => ?_
      exact hwrites.elsewhere n fun c hc => hflat.not_under_class (hdone hmem) hclass hc hn
    · cases List.mem_singleton.mp hmem
      cases hclass
  · rw [hwrites.elsewhere n hn]
    exact hd.elsewhere n hn fun item hmem => hn' item (List.mem_append_left _ hmem)

theorem partway_other (hflat : Flat w items) {done : List SurfaceItem} (hdone : done ⊆ items)
    {item : SurfaceItem} (hitem : item ∈ items) (hclass : item.isClass = false)
    (hnew : item ∉ done) {d d' : Deriver} {u : Unit} (hd : d.Partway w conv done)
    (h : emitItem w conv item d = some (u, d')) : d'.Partway w conv (done ++ [item]) := by
  rw [emitItem_eq (SurfaceItem.ne_ofClass hclass)] at h
  obtain ⟨es, hes, hschema, hemitted, -⟩ := brings_eq_some h
  have hframe : ∀ n, ¬ Under item.name n → d'.schema.find? n = d.schema.find? n := by
    intro n hn
    rw [hschema]
    refine Schema.find?_writes_of_not_mem (fun hmem => hn ?_) _
    obtain ⟨p, hp, rfl⟩ := List.mem_map.mp hmem
    exact under_of_mem_itemEntries hflat hitem hes hp
  have hregion : ∀ c, w.scopes.Declares c →
      d'.schema.SameUnder (w.className c) d.schema := fun c hc n hn =>
    hframe n fun hn' => hflat.not_under_class hitem hclass hc hn' hn
  have hempty : d.schema.SameUnder item.name .empty := fun n hn =>
    hd.elsewhere n (fun c hc => hflat.not_under_class hitem hclass hc hn) fun item' hmem hn' =>
      hnew (hflat.eq_of_under (hdone hmem) hitem hn' hn ▸ hmem)
  refine ⟨⟨fun c hc hclaimed hclosed => ?_, fun c hc hclaimed => ?_⟩,
    fun scope decl name hmem => ?_, fun item' hmem hclass' => ?_, fun n hn hn' => ?_⟩
  · exact (hd.regional.closed c hc (hemitted ▸ hclaimed) hclosed).congr (hregion c hc).symm
  · exact (hregion c hc).trans (hd.regional.empty c hc fun hn => hclaimed (hemitted ▸ hn))
  · rcases List.mem_append.mp hmem with hmem | hmem
    · exact hemitted ▸ hd.claimed _ _ _ hmem
    · exact absurd (List.mem_singleton.mp hmem).symm (SurfaceItem.ne_ofClass hclass _ _ _)
  · rcases List.mem_append.mp hmem with hmem | hmem
    · refine (hd.brings item' hmem hclass').congr hclass' fun n hn => hframe n fun hn' => ?_
      exact hnew (hflat.eq_of_under (hdone hmem) hitem hn hn' ▸ hmem)
    · cases List.mem_singleton.mp hmem
      have hbrings : d'.schema.SameUnder item.name (Schema.empty.writes es) := by
        rw [hschema]
        exact hempty.writes es
      cases item with
      | ofClass => cases hclass
      | ofFunction | ofVariable => exact ⟨es, hes, hbrings⟩
  · rw [hframe n (hn' item (List.mem_append_right _ List.mem_cons_self))]
    exact hd.elsewhere n hn fun item hmem => hn' item (List.mem_append_left _ hmem)

theorem partway_items (hflat : Flat w items) (part : List SurfaceItem) : ∀ done d u d',
    items = done ++ part → d.Partway w conv done → emitItems w conv part d = some (u, d') →
      d'.Partway w conv items := by
  induction part with
  | nil =>
      intro done d u d' hitems hd h
      cases h
      rw [hitems, List.append_nil]
      exact hd
  | cons item part ih =>
      intro done d u d' hitems hd h
      rw [emitItems] at h
      obtain ⟨u₁, d₁, hrun, hrest⟩ := Derive.bind_eq_some_iff.mp h
      have hdone : done ⊆ items := hitems ▸ List.subset_append_left _ _
      have hitem : item ∈ items := hitems ▸ List.mem_append_right _ List.mem_cons_self
      refine ih (done ++ [item]) d₁ u d' (by rw [hitems, List.append_assoc]; rfl) ?_ hrest
      cases hclass : item.isClass with
      | true =>
          cases item with
          | ofClass scope decl name => exact partway_class hflat hdone hitem hd hrun
          | ofFunction | ofVariable => cases hclass
      | false =>
          refine partway_other hflat hdone hitem hclass (fun hmem => ?_) hd hrun
          have hnodup : (done ++ item :: part).Nodup := hitems ▸ List.Nodup.of_map _ hflat.nodup
          exact (List.nodup_append.mp hnodup).2.2 item hmem item List.mem_cons_self rfl

/-- When no class is left whose name is not claimed, the rest of a derivation changes nothing. -/
theorem emitPending_of_claimed (fuel : Nat) {d : Deriver}
    (h : ∀ c ∈ d.pending, w.className c ∈ d.emitted) :
    emitPending w conv (fuel + 1) d = some ((), { d with pending := [] }) := by
  have hnone : (d.pending.dropWhile fun c => d.emitted.contains (w.className c)) = [] :=
    List.dropWhile_eq_nil_iff.mpr fun c hc => List.contains_iff_mem.mpr (h c hc)
  have hnext : nextPending w d = some (none, { d with pending := [] }) := by
    rw [nextPending, hnone]
  rw [emitPending, Derive.bind_of_eq_some hnext]
  rfl

section Faithfully

variable (hflat : Flat w items) (hfaithful : Faithful w (fun _ => True) conv)

include hflat hfaithful

/-- After the items no class is left whose name is not claimed. -/
theorem partway_emitItems {d : Deriver} {u : Unit}
    (h : emitItems w conv items ⟨.empty, [], []⟩ = some (u, d)) :
    d.Partway w conv items ∧ ∀ c ∈ d.pending, w.className c ∈ d.emitted := by
  have hstart : Deriver.Partway w conv [] ⟨.empty, [], []⟩ :=
    ⟨⟨nofun, fun _ _ _ _ _ => rfl⟩, nofun, nofun, fun _ _ _ => rfl⟩
  have hpartway := partway_items hflat items [] _ u d rfl hstart h
  have hgrows := (emits_items hfaithful items hflat.declared _ u d h).1
  refine ⟨hpartway, fun c hc => ?_⟩
  have hdeclared := (hgrows.declared c hc).resolve_left List.not_mem_nil
  exact hpartway.claimed _ _ _ (hflat.complete c hdeclared)

/-- **A derivation ends with what its items describe.** -/
theorem describes_of_emitAll {d : Deriver} {u : Unit}
    (h : emitAll w conv items ⟨.empty, [], []⟩ = some (u, d)) :
    Describes w conv items d.schema := by
  obtain ⟨u₁, d₁, hitems, hpending⟩ := Derive.bind_eq_some_iff.mp h
  obtain ⟨hpartway, hclaimed⟩ := partway_emitItems hflat hfaithful hitems
  cases (emitPending_of_claimed w.classCount hclaimed).symm.trans hpending
  refine ⟨fun item hitem => ?_, fun n hn => ?_⟩
  · cases hclass : item.isClass with
    | false => exact hpartway.brings item hitem hclass
    | true =>
        cases item with
        | ofClass scope decl name =>
            exact hpartway.regional.closed _ (hflat.declared _ _ _ hitem)
              (hpartway.claimed _ _ _ hitem) id
        | ofFunction | ofVariable => cases hclass
  · exact hpartway.elsewhere n (fun c hc => hn _ (hflat.complete c hc)) hn

omit hfaithful in
theorem exists_emitItem {item : SurfaceItem} {s : Schema} (hitem : item ∈ items)
    (hbrings : Brings w conv s item) {d : Deriver} (hd : d.Claims w) :
    ∃ d', emitItem w conv item d = some ((), d') := by
  cases item with
  | ofClass scope decl name =>
      exact Region.exists_run hbrings (hflat.declared _ _ _ hitem) _ d hd.visited
  | ofFunction | ofVariable =>
      obtain ⟨es, ⟨refs, hes⟩, -⟩ := hbrings
      rw [emitItem_eq (SurfaceItem.ne_ofClass rfl), hes]
      exact ⟨_, rfl⟩

theorem exists_emitItems {s : Schema} (h : Describes w conv items s) (part : List SurfaceItem) :
    part ⊆ items → ∀ d, d.Claims w → ∃ d', emitItems w conv part d = some ((), d') := by
  induction part with
  | nil => exact fun _ d _ => ⟨d, rfl⟩
  | cons item part ih =>
      intro hsub d hd
      obtain ⟨hitem, hsub⟩ := List.cons_subset.mp hsub
      obtain ⟨d₁, hrun⟩ := exists_emitItem hflat hitem (h.brings item hitem) hd
      have hdeclared : ItemsDeclared w.scopes [item] := fun scope decl name hmem =>
        hflat.declared scope decl name (List.mem_singleton.mp hmem ▸ hitem)
      have hd₁ := hd.of_grows (emits_item hfaithful hdeclared d () d₁ hrun).1
      obtain ⟨d', hrest⟩ := ih hsub d₁ hd₁
      exact ⟨d', Derive.bind_eq_some_iff.mpr ⟨(), d₁, hrun, hrest⟩⟩

/-- **Items that describe a schema have a derivation that ends with it.** -/
theorem exists_run_of_describes {s : Schema} (h : Describes w conv items s) :
    ∃ d, emitAll w conv items ⟨.empty, [], []⟩ = some ((), d) ∧ d.schema = s := by
  obtain ⟨d₁, hitems⟩ := exists_emitItems hflat hfaithful h items (fun _ h => h) ⟨.empty, [], []⟩
    ⟨List.nodup_nil, nofun, nofun⟩
  have hpending := @emitPending_of_claimed w conv w.classCount _
    (partway_emitItems hflat hfaithful hitems).2
  have hrun : emitAll w conv items ⟨.empty, [], []⟩ = some ((), { d₁ with pending := [] }) :=
    Derive.bind_eq_some_iff.mpr ⟨(), d₁, hitems, hpending⟩
  exact ⟨_, hrun, (describes_of_emitAll hflat hfaithful hrun).unique hflat h⟩

end Faithfully

end Items

end ApiSurface.Declaration
