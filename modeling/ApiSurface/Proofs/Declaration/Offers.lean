/-
# `ApiSurface.Proofs.Declaration.Offers` — what a class offers, and who writes it

A class offers its constructor and its methods.  As long as no member's name has a dot in it, the
name of an entry and its convention say which class offers it and in which slot (`Slot.unique`);
entries of functions, of variables and of statics have the other convention and are no class's.

So who may write such an entry is known.  What a class writes is its own (`offers_writesAll`), and
what it takes over from its parent there becomes its own by the change of the receiver
(`exists_offers_writesAll`); items that are not classes write nothing of the kind.
-/
import ApiSurface.Proofs.Declaration.Regions

namespace ApiSurface

/-! ## Slots -/

/-- What a class offers and a class that extends it takes over. -/
inductive Slot where
  | constructor
  | method (m : String)

namespace Slot

/-- The name of the entry in the slot of a class of the name. -/
def entryName (owner : String) : Slot → String
  | constructor => owner
  | method m => owner ++ "." ++ m

/-- The convention of the entries in the slot. -/
def convention : Slot → Convention
  | constructor => .constructor
  | method _ => .method

/-- The slot is not that of a method with a dot in its name. -/
def Plain : Slot → Prop
  | constructor => True
  | method m => Undotted m

/-- The entry is fit for the slot of the class: a method has the class itself as its first argument
and is none of those that every object has. -/
def Fits (owner : String) : Slot → Entry → Prop
  | constructor, _ => True
  | method m, e => Standard.isMember m = false ∧ e.args.head? = some (.ofClass owner)

/-- The two entries are called with the same arguments, the receiver of a method apart, and a method
gives the same result. -/
def Same : Slot → Entry → Entry → Prop
  | constructor, e, e' => e'.args = e.args
  | method _, e, e' => e'.args.tail = e.args.tail ∧ e'.ret = e.ret

theorem Same.refl (slot : Slot) (e : Entry) : slot.Same e e := by
  cases slot with
  | constructor => rfl
  | method => exact ⟨rfl, rfl⟩

theorem Same.trans {slot : Slot} {e e' e'' : Entry} (h : slot.Same e e') (h' : slot.Same e' e'') :
    slot.Same e e'' := by
  cases slot with
  | constructor => exact Eq.trans h' h
  | method => exact ⟨h'.1.trans h.1, h'.2.trans h.2⟩

theorem convention_ne_free (slot : Slot) : slot.convention ≠ .free := by
  cases slot <;> exact nofun

theorem eq_of_member_eq {n n' m m' : String} (hm : Undotted m) (hm' : Undotted m')
    (h : n ++ "." ++ m = n' ++ "." ++ m') : n = n' ∧ m = m' := by
  have howner := (Schema.owner?_eq_iff n m).mpr hm
  rw [h, (Schema.owner?_eq_iff n' m').mpr hm'] at howner
  obtain rfl := Option.some.inj howner
  exact ⟨rfl, String.toList_injective (by simpa using congrArg String.toList h)⟩

/-- **An entry is in one slot of one class only.** -/
theorem unique {slot slot' : Slot} {n n' : String} (h : slot.Plain) (h' : slot'.Plain)
    (hname : slot.entryName n = slot'.entryName n') (hconv : slot.convention = slot'.convention) :
    n = n' ∧ slot = slot' := by
  cases slot with
  | constructor =>
      cases slot' with
      | constructor => exact ⟨hname, rfl⟩
      | method => cases hconv
  | method m =>
      cases slot' with
      | constructor => cases hconv
      | method m' =>
          obtain ⟨rfl, rfl⟩ := eq_of_member_eq h h' hname
          exact ⟨rfl, rfl⟩

end Slot

namespace Schema

/-- The schema has the entry in the slot of the class of the name. -/
def Offers (s : Schema) (owner : String) (slot : Slot) (e : Entry) : Prop :=
  s.find? (slot.entryName owner) = some e ∧ e.convention = slot.convention

/-- Every entry in a slot is fit for it. -/
def Regular (s : Schema) : Prop :=
  ∀ owner slot e, slot.Plain → s.Offers owner slot e → slot.Fits owner e

/-- What the second schema offers the first one offers, too, or it is as said. -/
def Gains (Q : String → Slot → Entry → Prop) (s t : Schema) : Prop :=
  ∀ owner slot e, slot.Plain → t.Offers owner slot e → s.Offers owner slot e ∨ Q owner slot e

/-- In whichever slot the entry is, what is said holds there. -/
def Placed (Q : String → Slot → Entry → Prop) (p : String × Entry) : Prop :=
  ∀ owner slot, slot.Plain → slot.entryName owner = p.1 → p.2.convention = slot.convention →
    Q owner slot p.2

variable {Q : String → Slot → Entry → Prop} {s t u : Schema}

theorem Offers.unique {owner : String} {slot : Slot} {e e' : Entry} (h : s.Offers owner slot e)
    (h' : s.Offers owner slot e') : e = e' :=
  Option.some.inj (h.1.symm.trans h'.1)

theorem Gains.refl (s : Schema) : s.Gains Q s :=
  fun _ _ _ _ h => Or.inl h

theorem Gains.trans (h : s.Gains Q t) (h' : t.Gains Q u) : s.Gains Q u :=
  fun owner slot e hplain hu =>
    (h' owner slot e hplain hu).elim (h owner slot e hplain) Or.inr

theorem Gains.imp {Q' : String → Slot → Entry → Prop} (h : s.Gains Q t)
    (hQ : ∀ owner slot e, Q owner slot e → Q' owner slot e) : s.Gains Q' t :=
  fun owner slot e hplain ht => (h owner slot e hplain ht).imp_right (hQ owner slot e)

theorem Regular.of_gains (hs : s.Regular) (h : s.Gains Q t)
    (hQ : ∀ owner slot e, Q owner slot e → slot.Fits owner e) : t.Regular :=
  fun owner slot e hplain ht =>
    (h owner slot e hplain ht).elim (hs owner slot e hplain) (hQ owner slot e)

theorem gains_insert {key : String} {e : Entry} (h : Placed Q (key, e)) (s : Schema) :
    s.Gains Q (s.insert key e) := by
  rintro owner slot e' hplain ⟨hfind, hconv⟩
  rw [find?_insert] at hfind
  split at hfind
  next hkey =>
    cases hfind
    exact Or.inr (h owner slot hplain hkey hconv)
  · exact Or.inl ⟨hfind, hconv⟩

theorem gains_writes {es : List (String × Entry)} (h : ∀ p ∈ es, Placed Q p) (s : Schema) :
    s.Gains Q (s.writes es) :=
  List.foldlRecOn (motive := fun t : Schema => s.Gains Q t) _ _ (.refl s)
    fun t ht p hp => ht.trans (gains_insert (h p hp) t)

theorem placed_of_free {p : String × Entry} (h : p.2.convention = .free) : Placed Q p :=
  fun _ slot _ _ hconv => absurd (hconv.symm.trans h) slot.convention_ne_free

/-- An entry that is made for a slot is in that one. -/
theorem placed_of_slot {owner : String} (slot : Slot) {e : Entry} (hplain : slot.Plain)
    (hconv : e.convention = slot.convention) (h : Q owner slot e) :
    Placed Q (slot.entryName owner, e) := by
  intro owner' slot' hplain' hname hconv'
  obtain ⟨rfl, rfl⟩ := Slot.unique hplain' hplain hname (hconv'.symm.trans hconv)
  exact h

end Schema

namespace Declaration

open Conversion

variable {w : World} {conv : Converter}

/-! ## What a class declares -/

/-- The class declares what is in the slot, or an interface that it implements does. -/
def ClassRef.Declares (w : World) (conv : Converter) (c : ClassRef) : Slot → Prop
  | .constructor => ∃ sig, .constructor sig ∈ c.decl.members
  | .method m =>
    (∃ member ∈ c.decl.members, ∃ sig, methodSig? false member = some (m, sig)) ∨
      ∃ env, (classEnv w conv c).Gives env ∧ ∃ ty ∈ c.decl.interfaces, ∃ members,
        (membersOf w conv env ty).Gives (some members) ∧
          ∃ member ∈ members, ∃ sig, methodSig? false member.1 = some (m, sig)

namespace ClassEntries

/-- What a class brings has an entry of its own for the slot, or passes it over. -/
def Declares (es : ClassEntries) : Slot → Prop
  | .constructor => es.constructor ≠ none
  | .method m => m ∈ es.defined

/-- What holds of the entries that a class of the name brings, apart from their names. -/
structure Shaped (name : String) (es : ClassEntries) : Prop where
  constructor : ∀ e, es.constructor = some e → e.convention = .constructor
  receiver : ∀ p ∈ es.methods, p.2.args.head? = some (.ofClass name)
  statics : ∀ p ∈ es.statics, p.2.convention = .free

end ClassEntries

theorem entryOf_receiver {sigs : List PlacedSig} {receiver : Guess} {convention : Convention}
    {ret? : Option Guess} {e : Entry}
    (h : (entryOf w conv sigs (some receiver) convention ret?).Gives e) :
    e.args.head? = some receiver := by
  obtain ⟨sigs', -, h⟩ := gives_bind h
  rw [gives_pure h]
  rfl

theorem gives_declaredConstructor {name : String} {sigs : List PlacedSig} {e? : Option Entry}
    (h : (declaredConstructor w conv name sigs).Gives e?) :
    (e? = none ↔ sigs = []) ∧ ∀ e, e? = some e → e.convention = .constructor := by
  unfold declaredConstructor at h
  split at h
  next hnil =>
    rw [gives_pure h]
    exact ⟨iff_of_true rfl (List.isEmpty_iff.mp hnil), nofun⟩
  next hne =>
    obtain ⟨e, he, h⟩ := gives_bind h
    rw [gives_pure h]
    refine ⟨iff_of_false nofun fun hnil => hne (List.isEmpty_iff.mpr hnil), ?_⟩
    rintro _ ⟨rfl⟩
    exact entryOf_convention he

theorem constructorSigs_eq_nil_iff {members : List Member} {env : Env} :
    constructorSigs (placed members env) = [] ↔ ¬ ∃ sig, .constructor sig ∈ members := by
  rw [constructorSigs, List.filterMap_eq_nil_iff]
  constructor
  · rintro h ⟨sig, hsig⟩
    cases h (.constructor sig, env) (List.mem_map_of_mem hsig)
  · intro h m hm
    obtain ⟨member, hmember, rfl⟩ := List.mem_map.mp hm
    cases member with
    | constructor sig => exact absurd ⟨sig, hmember⟩ h
    | property | method | call | index => rfl

/-- The methods of a class and of its interfaces are those that one of them has. -/
theorem mem_instanceMethods_iff {env : Env} {n : String} (tys : List TypeExpr) :
    ∀ {methods all : List (String × List PlacedSig)},
      (instanceMethods w conv env methods tys).Gives all →
        (n ∈ all.map Prod.fst ↔ n ∈ methods.map Prod.fst ∨ ∃ ty ∈ tys, ∃ members,
          (membersOf w conv env ty).Gives (some members) ∧
            n ∈ (methodGroups members false).map Prod.fst) := by
  induction tys with
  | nil =>
      intro methods all h
      rw [instanceMethods] at h
      rw [gives_pure h]
      simp
  | cons ty tys ih =>
      intro methods all h
      rw [instanceMethods] at h
      obtain ⟨members?, hmembers, h⟩ := gives_bind h
      simp only [List.mem_cons, or_and_right, exists_or, exists_eq_left]
      cases members? with
      | none =>
          have hnone : ∀ members, ¬ (membersOf w conv env ty).Gives (some members) := by
            intro members h
            cases h.unique hmembers
          rw [ih h]
          simp [hnone]
      | some members =>
          have hsome : ∀ members', (membersOf w conv env ty).Gives (some members') ↔
              members' = members := fun members' =>
            ⟨fun h => Option.some.inj (h.unique hmembers), fun h => h ▸ hmembers⟩
          rw [ih h]
          simp only [hsome, exists_eq_left, addImplemented, List.map_append, List.mem_append,
            ← or_assoc]
          refine or_congr ?_ Iff.rfl
          -- A method of the interface that is there already is not added a second time.
          by_cases hn : n ∈ methods.map Prod.fst
          · simp only [hn, true_or]
          · simp only [hn, false_or, List.mem_map, List.mem_filter]
            refine exists_congr fun g => and_congr_left ?_
            rintro rfl
            simp [hn]

/-- **What a class brings is made for what it declares.** -/
theorem shaped_classEntries {c : ClassRef} {es : ClassEntries}
    (h : (classEntries w conv c).Gives es) : es.Shaped (w.className c) ∧
      ∀ slot, es.Declares slot ↔ c.Declares w conv slot := by
  obtain ⟨env, henv, h⟩ := gives_bind h
  obtain ⟨constructor, hconstructor, h⟩ := gives_bind h
  obtain ⟨methods, hmethods, h⟩ := gives_bind h
  obtain ⟨entries, hentries, h⟩ := gives_bind h
  obtain ⟨statics, hstatics, h⟩ := gives_bind h
  obtain rfl := gives_pure h
  obtain ⟨hnone, hconvention⟩ := gives_declaredConstructor hconstructor
  refine ⟨⟨hconvention, fun p hp => ?_, fun p hp => ?_⟩, fun slot => ?_⟩
  · obtain ⟨g, -, hg⟩ := (gives_named hentries).2 p hp
    exact entryOf_receiver hg
  · obtain ⟨g, -, hg⟩ := (gives_named hstatics).2 p hp
    exact entryOf_convention hg
  · cases slot with
    | constructor => exact (not_congr (hnone.trans constructorSigs_eq_nil_iff)).trans not_not
    | method m =>
        refine (mem_instanceMethods_iff c.decl.interfaces hmethods).trans (or_congr ?_ ?_)
        · rw [(methodGroups_spec _ false).2]
          constructor
          · rintro ⟨pm, hpm, sig, hsig⟩
            obtain ⟨member, hmember, rfl⟩ := List.mem_map.mp hpm
            exact ⟨member, hmember, sig, hsig⟩
          · rintro ⟨member, hmember, sig, hsig⟩
            exact ⟨(member, env), List.mem_map_of_mem hmember, sig, hsig⟩
        · have hsame : ∀ env', (classEnv w conv c).Gives env' ↔ env' = env := fun env' =>
            ⟨fun h => h.unique henv, fun h => h ▸ henv⟩
          simp only [hsame, exists_eq_left, (methodGroups_spec _ false).2]

/-! ## Inheritance -/

theorem memberUnder?_eq_some_iff {owner n m : String} :
    memberUnder? owner n = some m ↔ n = owner ++ "." ++ m ∧ Undotted m := by
  unfold memberUnder?
  rw [Option.bind_eq_some_iff]
  constructor
  · rintro ⟨rest, hrest, hdot⟩
    unfold Text.after? at hrest
    split at hrest
    next hstart =>
      obtain ⟨tail, htail⟩ := List.isPrefixOf_iff_prefix.mp hstart
      rw [← htail, List.drop_left] at hrest
      split at hdot
      · cases hdot
      next hplain =>
        cases hdot
        cases hrest
        refine ⟨String.toList_injective (by simp [← htail]), ?_⟩
        simpa [Undotted] using hplain
    · cases hrest
  · rintro ⟨rfl, hm⟩
    refine ⟨m, ?_, if_neg (by simpa [Undotted] using hm)⟩
    have hlist : (owner ++ "." ++ m).toList = (owner ++ ".").toList ++ m.toList :=
      String.toList_append
    rw [Text.after?, if_pos, hlist, List.drop_left, String.ofList_toList]
    rw [Text.startsWith, hlist]
    exact List.isPrefixOf_iff_prefix.mpr (List.prefix_append ..)

/-- What there is to inherit: the methods that the parent offers and the class does not define. -/
theorem mem_inheritedMethods_iff {s : Schema} {parent m : String} {defined : List String}
    {e : Entry} : (m, e) ∈ inheritedMethods s parent defined ↔
      Undotted m ∧ s.Offers parent (.method m) e ∧ m ∉ defined := by
  rw [inheritedMethods, List.mem_filterMap]
  constructor
  · rintro ⟨p, hp, heq⟩
    split at heq
    next hmethod =>
      split at heq
      next member hmember =>
        split at heq
        · cases heq
        next hnew =>
          cases heq
          obtain ⟨hname, hplain⟩ := memberUnder?_eq_some_iff.mp hmember
          refine ⟨hplain, ⟨?_, beq_iff_eq.mp hmethod⟩, by simpa using hnew⟩
          have hfind := Schema.find?_eq_some_iff.mpr hp
          rw [hname] at hfind
          exact hfind
      · cases heq
    · cases heq
  · rintro ⟨hplain, ⟨hfind, hmethod⟩, hnew⟩
    refine ⟨(parent ++ "." ++ m, e), Schema.find?_eq_some_iff.mp hfind, ?_⟩
    have hmethod : e.convention = .method := hmethod
    simp [hmethod, memberUnder?_eq_some_iff.mpr ⟨rfl, hplain⟩, hnew]

theorem convention_withReceiver (receiver : Guess) (e : Entry) :
    (withReceiver receiver e).convention = e.convention := by
  unfold withReceiver
  split <;> rfl

theorem same_withReceiver (receiver : Guess) (m : String) (e : Entry) :
    (Slot.method m).Same e (withReceiver receiver e) := by
  unfold withReceiver
  split
  · exact .refl _ _
  next hargs => exact ⟨by rw [hargs]; rfl, rfl⟩

theorem fits_withReceiver {owner name m : String} {e : Entry}
    (h : (Slot.method m).Fits owner e) :
    (Slot.method m).Fits name (withReceiver (.ofClass name) e) := by
  refine ⟨h.1, ?_⟩
  unfold withReceiver
  split
  next hargs =>
    have hhead := h.2
    rw [hargs] at hhead
    cases hhead
  · rfl

theorem gains_inherit {Q : String → Slot → Entry → Prop} {name : String} {receiver : Guess}
    {m : String × Entry} (h : Schema.Placed Q (name ++ "." ++ m.1, withReceiver receiver m.2))
    (s : Schema) : s.Gains Q (inherit name receiver s m) := by
  obtain heq | heq := inherit_eq_or name receiver s m <;> rw [heq]
  · exact .refl s
  · exact Schema.gains_insert h s

/-- A method that the class does not offer by now is taken over with the receiver changed. -/
theorem find?_foldl_inherit {name m : String} {receiver : Guess} {e : Entry}
    (hmethod : e.convention = .method) (ms : List (String × Entry)) :
    ∀ s : Schema, (∀ e', (m, e') ∈ ms → e' = e) → (m, e) ∈ ms →
      (∀ e', ¬ s.Offers name (.method m) e') →
        (ms.foldl (inherit name receiver) s).find? (name ++ "." ++ m) =
          some (withReceiver receiver e) := by
  induction ms with
  | nil => exact fun _ _ hm _ => absurd hm List.not_mem_nil
  | cons q ms ih =>
      obtain ⟨m', e'⟩ := q
      intro s hone hm hnone
      rw [List.foldl_cons]
      by_cases hq : m' = m
      · subst hq
        obtain rfl := hone e' List.mem_cons_self
        have hfirst : (inherit name receiver s (m', e')).find? (name ++ "." ++ m') =
            some (withReceiver receiver e') := by
          unfold inherit
          simp only
          split
          next e₀ he₀ =>
            have hother : e₀.convention ≠ .method := fun hc => hnone e₀ ⟨he₀, hc⟩
            rw [if_neg (by simpa using hother), Schema.find?_insert, if_pos rfl]
          · rw [Schema.find?_insert, if_pos rfl]
        refine List.foldlRecOn (motive := fun t : Schema => t.find? _ = some _) _ _ hfirst
          fun t ht q _ => find?_inherit ht ?_ name receiver q
        rw [convention_withReceiver, hmethod]
      · have hother : (inherit name receiver s (m', e')).find? (name ++ "." ++ m) =
            s.find? (name ++ "." ++ m) := by
          refine find?_inherit_of_ne (fun heq => hq ?_) receiver s
          exact String.toList_injective (by simpa using (congrArg String.toList heq).symm)
        refine ih _ (fun e' he' => hone e' (List.mem_cons_of_mem _ he')) ?_ fun e' he' => ?_
        · exact (List.mem_cons.mp hm).resolve_left fun heq => hq (Prod.mk.inj heq).1.symm
        · exact hnone e' ⟨hother ▸ he'.1, he'.2⟩

/-! ## What a class writes -/

namespace ClassEntries

variable {es : ClassEntries} {name : String}

/-- The entry of the constructor stands when a class is written. -/
theorem find?_writesAll_self (hes : es.Formed name) (parent : Option String) (s : Schema) :
    (es.writesAll name parent s).find? name = some (es.constructorIn name parent s) := by
  have hlonger : ∀ m, name ≠ name ++ "." ++ m := fun m h => by
    have hlength := congrArg (fun n : String => n.toList.length) h
    simp at hlength
  have hown : (es.writesOwn name parent s).find? name = some (es.constructorIn name parent s) := by
    rw [writesOwn, Schema.find?_writes_of_not_mem, Schema.find?_writes_of_not_mem,
      Schema.find?_insert, if_pos rfl]
    · rw [hes.methods]
      intro h
      obtain ⟨m, -, hm⟩ := List.mem_map.mp h
      exact hlonger m hm.symm
    · intro h
      obtain ⟨p, hp, hname⟩ := List.mem_map.mp h
      obtain ⟨m, -, hm⟩ := hes.statics p hp
      exact hlonger m (hname.symm.trans hm)
  cases parent with
  | none => exact hown
  | some p =>
      refine List.foldlRecOn (motive := fun t : Schema => t.find? name = some _) _ _ hown
        fun t ht m _ => ?_
      rw [find?_inherit_of_ne (hlonger m.1), ht]

theorem Shaped.constructorIn (hshaped : es.Shaped name) (parent : Option String) (s : Schema) :
    (es.constructorIn name parent s).convention = .constructor := by
  unfold ClassEntries.constructorIn
  cases hdeclared : es.constructor with
  | none => rfl
  | some e => exact hshaped.constructor e hdeclared

/-- What a class takes over is its own. -/
theorem gains_inherited (name parent : String) (defined : List String) (own : Schema) :
    own.Gains (fun owner slot e => owner = name ∧ (own.Regular → slot.Fits name e))
      ((inheritedMethods own parent defined).foldl (inherit name (.ofClass name)) own) := by
  refine List.foldlRecOn (motive := fun t : Schema => own.Gains _ t) _ _ (.refl own)
    fun t ht m hm => ht.trans (gains_inherit ?_ t)
  obtain ⟨m, e⟩ := m
  obtain ⟨hdot, hoffers, -⟩ := mem_inheritedMethods_iff.mp hm
  refine Schema.placed_of_slot (.method m) hdot ?_ ⟨rfl, fun hregular => ?_⟩
  · rw [convention_withReceiver, hoffers.2]
  · exact fits_withReceiver (hregular parent (.method m) e hdot hoffers)

section Writing

variable (hes : es.Formed name) (hshaped : es.Shaped name) (hplain : ∀ m ∈ es.defined, Undotted m)

include hes hshaped hplain

/-- What a class writes of its own is in slots that it declares, or its constructor. -/
theorem gains_writesOwn (parent : Option String) (s : Schema) :
    s.Gains (fun owner slot e => owner = name ∧ slot.Fits name e ∧
      (slot = .constructor ∨ es.Declares slot)) (es.writesOwn name parent s) := by
  have hconstructor := hshaped.constructorIn parent s
  refine (Schema.gains_insert ?_ s).trans ((Schema.gains_writes (fun p hp => ?_) _).trans
    (Schema.gains_writes (fun p hp => Schema.placed_of_free (hshaped.statics p hp)) _))
  · exact Schema.placed_of_slot .constructor trivial hconstructor
      ⟨rfl, trivial, Or.inl rfl⟩
  · have hname := List.mem_map_of_mem (f := Prod.fst) hp
    rw [hes.methods] at hname
    obtain ⟨m, hm, hname⟩ := List.mem_map.mp hname
    obtain ⟨hm, hmember⟩ := List.mem_filter.mp hm
    obtain ⟨key, e⟩ := p
    obtain rfl : name ++ "." ++ m = key := hname
    refine Schema.placed_of_slot (.method m) (hplain m hm) (hes.methodConvention _ hp) ?_
    exact ⟨rfl, ⟨by simpa using hmember, hshaped.receiver _ hp⟩, Or.inr hm⟩

/-- **What a class writes is its own.** -/
theorem gains_writesAll (parent : Option String) (s : Schema) :
    s.Gains (fun owner slot e => owner = name ∧ (s.Regular → slot.Fits name e))
      (es.writesAll name parent s) := by
  have hown := gains_writesOwn hes hshaped hplain parent s
  have hfirst : s.Gains (fun owner slot e => owner = name ∧ (s.Regular → slot.Fits name e))
      (es.writesOwn name parent s) := hown.imp fun _ _ _ h => ⟨h.1, fun _ => h.2.1⟩
  cases parent with
  | none => exact hfirst
  | some p =>
      refine hfirst.trans ((gains_inherited name p es.defined _).imp fun owner slot e h =>
        ⟨h.1, fun hs => h.2 (hs.of_gains hown ?_)⟩)
      rintro _ slot e ⟨rfl, hfits, -⟩
      exact hfits

/-- **A class takes over what its parent offers**, as long as it offered nothing before: where it
declares nothing of its own, its entries are those of the parent but for the receiver. -/
theorem exists_offers_writesAll {p : String} {s : Schema} (hs : s.Regular)
    (hnone : ∀ slot e, slot.Plain → ¬ s.Offers name slot e) {slot : Slot} (hslot : slot.Plain)
    {e : Entry} (h : (es.writesAll name (some p) s).Offers p slot e) :
    ∃ e', (es.writesAll name (some p) s).Offers name slot e' ∧
      (¬ es.Declares slot → slot.Same e e') := by
  by_cases hp : p = name
  · subst hp
    exact ⟨e, h, fun _ => .refl slot e⟩
  have hbefore : s.Offers p slot e :=
    (gains_writesAll hes hshaped hplain _ s p slot e hslot h).resolve_right fun h => hp h.1
  cases slot with
  | constructor =>
      refine ⟨_, ⟨find?_writesAll_self hes _ s, hshaped.constructorIn _ s⟩, fun hdeclared => ?_⟩
      have hfind : s.find? p = some e := hbefore.1
      have hconv : e.convention = .constructor := hbefore.2
      rw [constructorIn, not_not.mp hdeclared]
      simp [Slot.Same, constructorArgs, hfind, hconv]
  | method m =>
      by_cases hm : m ∈ es.defined
      · have hmember : Standard.isMember m = false := (hs p (.method m) e hslot hbefore).1
        have hname : name ++ "." ++ m ∈ es.methods.map Prod.fst := by
          rw [hes.methods]
          refine List.mem_map_of_mem (f := fun m => name ++ "." ++ m) ?_
          exact List.mem_filter.mpr ⟨hm, by rw [hmember]; rfl⟩
        obtain ⟨q, hq, hname⟩ := List.mem_map.mp hname
        have hfind := find?_writesAll_of_mem hes hq (some p) s
        rw [hname] at hfind
        exact ⟨q.2, ⟨hfind, hes.methodConvention q hq⟩, fun hnew => absurd hm hnew⟩
      · have hown : (es.writesOwn name (some p) s).Offers p (.method m) e :=
          (gains_inherited name p es.defined _ p (.method m) e hslot h).resolve_right
            fun h => hp h.1
        have hnew : ∀ e', ¬ (es.writesOwn name (some p) s).Offers name (.method m) e' := by
          intro e' he'
          rcases gains_writesOwn hes hshaped hplain _ s name (.method m) e' hslot he' with
            hbefore | ⟨-, -, hslot | hdeclared⟩
          · exact hnone (.method m) e' hslot hbefore
          · cases hslot
          · exact hm hdeclared
        refine ⟨withReceiver (.ofClass name) e, ⟨?_, ?_⟩, fun _ => same_withReceiver _ m e⟩
        · refine find?_foldl_inherit h.2 _ _ (fun e' he' => ?_)
            (mem_inheritedMethods_iff.mpr ⟨hslot, hown, hm⟩) hnew
          exact (mem_inheritedMethods_iff.mp he').2.1.unique hown
        · rw [convention_withReceiver, h.2]

end Writing

end ClassEntries

end Declaration

end ApiSurface
