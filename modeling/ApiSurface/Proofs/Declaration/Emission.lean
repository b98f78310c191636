/-
# `ApiSurface.Proofs.Declaration.Emission` — what a derivation adds step by step

A derivation adds entries to a schema, notes the classes that these refer to, and claims the name of
a class before it adds the entries of the class.  What every step keeps is `Deriver.Grows`: no name
is lost, a class that is noted stays noted until its name is claimed, and every name claimed on the
way has an entry in the end.

A class is emitted after its parent (`exists_members_of_emitClass`), and the classes that are noted
are taken off the list one by one (`next_of_emitPending`, `Deriver.Takes`).

Soundness is proved over one fixed set of names, the one that the derivation ends with, and a step
may assume that the set has all names claimed or noted by its end (`Deriver.Within`).  So a guess
that refers to a class for which there is no entry yet needs no treatment of its own.
-/
import ApiSurface.Proofs.Declaration.Signatures
import Mathlib.Data.List.TakeWhile

namespace ApiSurface.Declaration

open Guess

/-- What a step of a derivation keeps. -/
structure Deriver.Grows (w : World) (d d' : Deriver) : Prop where
  emitted : ∀ n ∈ d.emitted, n ∈ d'.emitted
  names : ∀ n, d.schema.has n = true → d'.schema.has n = true
  noted : ∀ c ∈ d.pending, w.className c ∈ d'.emitted ∨ c ∈ d'.pending
  declared : ∀ c ∈ d'.pending, c ∈ d.pending ∨ w.scopes.Declares c
  entered : ∀ n ∈ d'.emitted, n ∈ d.emitted ∨ d'.schema.has n = true
  claimed : ∀ n ∈ d'.emitted, n ∈ d.emitted ∨ ∃ c, w.scopes.Declares c ∧ w.className c = n
  nodup : d.emitted.Nodup → d'.emitted.Nodup

/-- The set has every name that is claimed and the names of the classes that are noted. -/
structure Deriver.Within (w : World) (S : String → Prop) (d : Deriver) : Prop where
  emitted : ∀ n ∈ d.emitted, S n
  pending : ∀ c ∈ d.pending, S (w.className c)

variable {w : World} {S : String → Prop}

namespace Deriver

theorem Grows.refl (d : Deriver) : d.Grows w d :=
  ⟨fun _ h => h, fun _ h => h, fun _ h => Or.inr h, fun _ h => Or.inl h, fun _ h => Or.inl h,
    fun _ h => Or.inl h, id⟩

theorem Grows.trans {d d' d'' : Deriver} (h : d.Grows w d') (h' : d'.Grows w d'') :
    d.Grows w d'' where
  emitted := fun n hn => h'.emitted n (h.emitted n hn)
  names := fun n hn => h'.names n (h.names n hn)
  noted := fun c hc => (h.noted c hc).elim (fun hn => Or.inl (h'.emitted _ hn)) (h'.noted c)
  declared := fun c hc => (h'.declared c hc).elim (h.declared c) Or.inr
  entered := fun n hn => (h'.entered n hn).elim
    (fun hn => (h.entered n hn).imp_right (h'.names n)) Or.inr
  claimed := fun n hn => (h'.claimed n hn).elim (h.claimed n) Or.inr
  nodup := fun hn => h'.nodup (h.nodup hn)

/-- A set that has the names at the end of a step has those at its beginning. -/
theorem Within.of_grows {d d' : Deriver} (h : d'.Within w S) (hg : d.Grows w d') : d.Within w S :=
  ⟨fun n hn => h.emitted n (hg.emitted n hn), fun c hc => (hg.noted c hc).elim (h.emitted _)
    (h.pending c)⟩

end Deriver

/-- The computation grows the deriver and keeps the schema sound, and what it gives has the property
`P`, if `Q` holds to begin with. -/
def Emits {α : Type} (w : World) (S : String → Prop) (Q : Prop) (m : Derive α) (P : α → Prop) :
    Prop :=
  ∀ d a d', m d = some (a, d') → d.Grows w d' ∧
    (Q → d'.Within w S → d.schema.Sound S → d'.schema.Sound S ∧ P a)

namespace Derive

theorem bind_eq_some_iff {α β : Type} {x : Derive α} {f : α → Derive β} {d d' : Deriver} {b : β} :
    (x >>= f) d = some (b, d') ↔ ∃ a d₁, x d = some (a, d₁) ∧ f a d₁ = some (b, d') := by
  show (x d).bind (fun p => f p.1 p.2) = _ ↔ _
  rw [Option.bind_eq_some_iff]
  constructor
  · rintro ⟨⟨a, d₁⟩, hx, hf⟩
    exact ⟨a, d₁, hx, hf⟩
  · rintro ⟨a, d₁, hx, hf⟩
    exact ⟨(a, d₁), hx, hf⟩

theorem bind_of_eq_some {α β : Type} {x : Derive α} {a : α} {d d' : Deriver}
    (h : x d = some (a, d')) (f : α → Derive β) : (x >>= f) d = f a d' :=
  congrArg (·.bind fun p => f p.1 p.2) h

end Derive

namespace Emits

variable {α β : Type} {Q : Prop}

theorem pure {a : α} {P : α → Prop} (h : Q → P a) : Emits w S Q (pure a) P := by
  intro d b d' heq
  cases heq
  exact ⟨.refl d, fun hQ _ hd => ⟨hd, h hQ⟩⟩

theorem bind {x : Derive α} {f : α → Derive β} {P : α → Prop} {R : β → Prop}
    (hx : Emits w S Q x P) (hf : ∀ a, Emits w S (Q ∧ P a) (f a) R) : Emits w S Q (x >>= f) R := by
  intro d b d' heq
  obtain ⟨a, d₁, hxa, hfb⟩ := Derive.bind_eq_some_iff.mp heq
  obtain ⟨hgrows, hsound⟩ := hx d a d₁ hxa
  obtain ⟨hgrows', hsound'⟩ := hf a d₁ b d' hfb
  refine ⟨hgrows.trans hgrows', fun hQ hwithin hd => ?_⟩
  obtain ⟨hd₁, ha⟩ := hsound hQ (hwithin.of_grows hgrows') hd
  exact hsound' ⟨hQ, ha⟩ hwithin hd₁

theorem imp {Q' : Prop} {m : Derive α} {P P' : α → Prop} (hm : Emits w S Q m P) (hQ : Q' → Q)
    (hP : ∀ a, P a → P' a) : Emits w S Q' m P' :=
  fun d a d' heq => ⟨(hm d a d' heq).1, fun hQ' hwithin hd =>
    ((hm d a d' heq).2 (hQ hQ') hwithin hd).imp_right (hP a)⟩

/-- A conversion is made, and the classes it refers to are noted. -/
theorem converted {c : Conversion α} {P : α → Prop} (hc : Yields w S c fun a => Q → P a) :
    Emits w S Q (Derive.converted w c) P := by
  intro d a d' heq
  unfold Derive.converted at heq
  split at heq
  · cases heq
  next a refs =>
    cases heq
    obtain ⟨hdeclared, hP⟩ := hc a refs rfl
    refine ⟨⟨fun _ hn => hn, fun _ hn => hn, fun c hc => Or.inr (List.mem_append_right _ hc),
      fun c hc => ?_, fun _ hn => Or.inl hn, fun _ hn => Or.inl hn, id⟩,
      fun hQ hwithin hd => ⟨hd, hP (fun r hr => ?_) hQ⟩⟩
    · rcases List.mem_append.mp hc with hc | hc
      · exact Or.inr (hdeclared c (List.mem_filter.mp (List.mem_reverse.mp hc)).1)
      · exact Or.inl hc
    · by_cases hemitted : w.className r ∈ d.emitted
      · exact hwithin.emitted _ hemitted
      · refine hwithin.pending r (List.mem_append_left _ (List.mem_reverse.mpr ?_))
        exact List.mem_filter.mpr ⟨hr, by simpa using hemitted⟩

end Emits

/-! ## Adding entries -/

theorem grows_of_schema {d : Deriver} {s : Schema}
    (h : ∀ n, d.schema.has n = true → s.has n = true) : d.Grows w { d with schema := s } :=
  ⟨fun _ hn => hn, h, fun _ hc => Or.inr hc, fun _ hc => Or.inl hc, fun _ hn => Or.inl hn,
    fun _ hn => Or.inl hn, id⟩

theorem emits_insert {name : String} {e : Entry} {Q : Prop} (h : Q → e.Sound S name) :
    Emits w S Q (Derive.insert name e) fun _ => True := by
  intro d a d' heq
  cases heq
  exact ⟨grows_of_schema fun n hn => Schema.has_insert hn name e, fun hQ _ hd =>
    ⟨hd.insert (h hQ), trivial⟩⟩

section Converting

variable {conv : Converter} (hconv : Faithful w S conv) {Q : Prop}

include hconv

theorem emits_methods {name : String} (hname : Q → S name)
    (groups : List (String × List PlacedSig)) : (Q → GroupsSound S groups) →
      Emits w S Q (emitMethods w conv name (.ofClass name) groups) fun _ => True := by
  induction groups with
  | nil =>
      intro _
      rw [emitMethods]
      exact .pure fun _ => trivial
  | cons g groups ih =>
      intro hgroups
      obtain ⟨member, sigs⟩ := g
      have hrest := ih fun hQ => (List.forall_mem_cons.mp (hgroups hQ)).2
      rw [emitMethods]
      split
      · refine .bind (.converted ((yields_methodEntry hconv name member sigs).imp
          fun e he hQ => he (hname hQ) (List.forall_mem_cons.mp (hgroups hQ)).1)) fun e => ?_
        exact .bind (emits_insert And.right) fun _ => hrest.imp (fun h => h.1.1) fun _ h => h
      · exact hrest

theorem emits_functions (memberPrefix : String) (groups : List (String × List PlacedSig)) :
    (Q → GroupsSound S groups) →
      Emits w S Q (emitFunctions w conv memberPrefix groups) fun _ => True := by
  induction groups with
  | nil =>
      intro _
      rw [emitFunctions]
      exact .pure fun _ => trivial
  | cons g groups ih =>
      intro hgroups
      obtain ⟨member, sigs⟩ := g
      have hrest := ih fun hQ => (List.forall_mem_cons.mp (hgroups hQ)).2
      rw [emitFunctions]
      refine .bind (.converted ((yields_freeEntry hconv (memberPrefix ++ member) sigs).imp
        fun e he hQ => he (List.forall_mem_cons.mp (hgroups hQ)).1)) fun e => ?_
      exact .bind (emits_insert And.right) fun _ => hrest.imp (fun h => h.1.1) fun _ h => h

theorem emits_constructorEntry {name : String} (parent : Option String) {sigs : List PlacedSig}
    (hname : Q → S name) (hsigs : Q → PlacedSound S sigs) (hsmall : Q → sigs.length < 2 ^ 53) :
    Emits w S Q (constructorEntry w conv (.ofClass name) parent sigs) fun e => e.Sound S name := by
  unfold constructorEntry
  split
  next =>
    refine .bind (P := fun s => s.Sound S) (fun d s d' heq => ?_) fun s => .pure ?_
    · cases heq
      exact ⟨.refl d, fun _ _ hd => ⟨hd, hd⟩⟩
    · rintro ⟨hQ, hs⟩
      refine ⟨?_, sound_ofClass (hname hQ), fun _ => certainlyOf_ofClass name, nofun⟩
      cases parent with
      | none =>
          intro _ hg
          cases hg
      | some p => exact sound_constructorArgs hs p
  next hne =>
    have hpos : 0 < sigs.length := List.length_pos_iff.mpr (by simpa using hne)
    exact .converted ((yields_constructorEntry hconv name hpos).imp
      fun e he hQ => he (hsmall hQ) (hname hQ) (hsigs hQ))

end Converting

/-! ## Inheritance -/

theorem mem_inheritedMethods {s : Schema} {parent : String} {defined : List String}
    {m : String × Entry} (h : m ∈ inheritedMethods s parent defined) :
    m.2.convention = .method ∧ ∃ name, s.find? name = some m.2 := by
  obtain ⟨p, hp, heq⟩ := List.mem_filterMap.mp h
  split at heq
  next hmethod =>
    split at heq
    · split at heq
      · cases heq
      · cases heq
        exact ⟨by simpa using hmethod, p.1, Schema.find?_eq_some_iff.mpr hp⟩
    · cases heq
  · cases heq

/-- A method with another receiver is one of the class of that receiver. -/
theorem sound_withReceiver {owner name : String} (howner : S owner) {e : Entry}
    (h : e.Sound S name) (hmethod : e.convention = .method) (member : String) :
    (withReceiver (.ofClass owner) e).Sound S (owner ++ "." ++ member) := by
  obtain ⟨args, ret, convention, builtin⟩ := e
  obtain ⟨_, _, -, hhead⟩ := h.receiver hmethod
  cases args with
  | nil => cases hhead
  | cons g args =>
      refine ⟨?_, h.ret, fun hc => ?_, fun _ => ⟨owner, member, rfl, rfl⟩⟩
      · exact List.forall_mem_cons.mpr
          ⟨sound_ofClass howner, fun g hg => h.args g (List.mem_cons_of_mem _ hg)⟩
      · cases hmethod.symm.trans hc

/-- A method of the parent is left out or taken over under the name of the class. -/
theorem inherit_eq_or (name : String) (receiver : Guess) (s : Schema) (m : String × Entry) :
    inherit name receiver s m = s ∨
      inherit name receiver s m =
        s.insert (name ++ "." ++ m.1) (withReceiver receiver m.2) := by
  unfold inherit
  simp only
  split
  · split
    · exact .inl rfl
    · exact .inr rfl
  · exact .inr rfl

theorem has_inherit {s : Schema} {n : String} (h : s.has n = true) (name : String)
    (receiver : Guess) (m : String × Entry) : (inherit name receiver s m).has n = true := by
  obtain heq | heq := inherit_eq_or name receiver s m <;> rw [heq]
  · exact h
  · exact Schema.has_insert h _ _

theorem sound_inherit {s : Schema} (h : s.Sound S) {name : String} {m : String × Entry}
    (he : (withReceiver (.ofClass name) m.2).Sound S (name ++ "." ++ m.1)) :
    (inherit name (.ofClass name) s m).Sound S := by
  obtain heq | heq := inherit_eq_or name (.ofClass name) s m <;> rw [heq]
  · exact h
  · exact h.insert he

theorem emits_inherited {name : String} {Q : Prop} (hname : Q → S name) (defined : List String)
    (parent : String) :
    Emits w S Q (emitInherited name (.ofClass name) defined parent) fun _ => True := by
  intro d a d' heq
  cases heq
  constructor
  · refine grows_of_schema fun n hn => ?_
    exact List.foldlRecOn (motive := fun s : Schema => s.has n = true) _ _ hn
      fun s hs m _ => has_inherit hs name _ m
  · intro hQ _ hd
    refine ⟨?_, trivial⟩
    refine List.foldlRecOn (motive := fun s : Schema => s.Sound S) _ _ hd fun s hs m hm => ?_
    obtain ⟨hmethod, n, hfind⟩ := mem_inheritedMethods hm
    exact sound_inherit hs (sound_withReceiver (hname hQ) (hd n m.2 hfind) hmethod m.1)

/-! ## Classes -/

/-- How many constructors a class declares. -/
def ClassDecl.constructorCount (c : ClassDecl) : Nat :=
  (c.members.filter fun m => m matches .constructor _).length

/-- Every class has fewer constructors than ones that can be added without rounding. -/
def ConstructorsSmall (w : World) : Prop :=
  ∀ c, w.scopes.Declares c → c.decl.constructorCount < 2 ^ 53

theorem length_constructorSigs (members : List Member) (env : Env) :
    (constructorSigs (placed members env)).length =
      (members.filter fun m => m matches .constructor _).length := by
  induction members with
  | nil => rfl
  | cons m members ih =>
      cases m with
      | constructor sig => exact congrArg (· + 1) ih
      | property | method | call | index => exact ih

theorem parentClass?_declares {c p : ClassRef} (h : parentClass? w c = some p) :
    w.scopes.Declares p := by
  unfold parentClass? at h
  split at h
  · split at h
    next hname =>
      cases h
      exact Scopes.typeNamed?_declares hname
    · cases h
  · cases h

/-- The computation ends with an entry under the name. -/
def Enters {α : Type} (name : String) (m : Derive α) : Prop :=
  ∀ d a d', m d = some (a, d') → d'.schema.has name = true

theorem Enters.bind {α β : Type} {name : String} {x : Derive α} {f : α → Derive β}
    (hf : ∀ a, Enters name (f a)) : Enters name (x >>= f) := by
  intro d b d' heq
  obtain ⟨a, d₁, -, hfb⟩ := Derive.bind_eq_some_iff.mp heq
  exact hf a d₁ b d' hfb

theorem enters_insert {α : Type} {name : String} {e : Entry} {Q : Prop} {rest : Unit → Derive α}
    {P : α → Prop} (hrest : ∀ u, Emits w S Q (rest u) P) :
    Enters name (Derive.insert name e >>= rest) := by
  intro d a d' heq
  obtain ⟨u, d₁, hinsert, hr⟩ := Derive.bind_eq_some_iff.mp heq
  cases hinsert
  exact (hrest () _ a d' hr).1.names name (Schema.has_insert_self ..)

section Steps

variable {conv : Converter} {fuel : Nat} {c : ClassRef} {d d' : Deriver} {u : Unit}

/-- The name of a class is claimed. -/
def Deriver.claimed (d : Deriver) (name : String) : Deriver :=
  { d with emitted := name :: d.emitted }

/-- A run that begins by claiming the name of a class keeps what every step keeps, if the name has an
entry in the end. -/
theorem Deriver.Grows.of_claimed (h : (d.claimed (w.className c)).Grows w d')
    (hc : w.scopes.Declares c) (hnew : w.className c ∉ d.emitted)
    (hentered : d'.schema.has (w.className c) = true) : d.Grows w d' where
  emitted n hn := h.emitted n (List.mem_cons_of_mem _ hn)
  names := h.names
  noted := h.noted
  declared := h.declared
  entered n hn := by
    rcases h.entered n hn with hn | hn
    · rcases List.mem_cons.mp hn with rfl | hn
      · exact Or.inr hentered
      · exact Or.inl hn
    · exact Or.inr hn
  claimed n hn := by
    rcases h.claimed n hn with hn | hn
    · rcases List.mem_cons.mp hn with rfl | hn
      · exact Or.inr ⟨c, hc, rfl⟩
      · exact Or.inl hn
    · exact Or.inr hn
  nodup hd := h.nodup (List.nodup_cons.mpr ⟨hnew, hd⟩)

theorem claim_of_mem {name : String} (h : name ∈ d.emitted) : claim name d = some (false, d) :=
  if_pos (List.contains_iff_mem.mpr h)

theorem claim_of_not_mem {name : String} (h : name ∉ d.emitted) :
    claim name d = some (true, d.claimed name) :=
  if_neg (by simpa using h)

theorem emitClass_of_mem (h : w.className c ∈ d.emitted) :
    emitClass w conv (fuel + 1) c d = some ((), d) := by
  rw [emitClass, Derive.bind_of_eq_some (claim_of_mem h)]
  rfl

theorem emitClass_of_not_mem (h : w.className c ∉ d.emitted) :
    emitClass w conv (fuel + 1) c d =
      (match parentClass? w c with
        | some p => do
          emitClass w conv fuel p
          emitMembers w conv c (some (w.className p))
        | none => emitMembers w conv c none) (d.claimed (w.className c)) := by
  rw [emitClass, Derive.bind_of_eq_some (claim_of_not_mem h)]
  rfl

/-- A class whose name is new is claimed, then its parent is emitted, and then its members are. -/
theorem exists_members_of_emitClass (hnew : w.className c ∉ d.emitted)
    (h : emitClass w conv (fuel + 1) c d = some (u, d')) :
    ∃ d₂, (∀ p, parentClass? w c = some p →
        emitClass w conv fuel p (d.claimed (w.className c)) = some ((), d₂)) ∧
      (parentClass? w c = none → d₂ = d.claimed (w.className c)) ∧
      emitMembers w conv c ((parentClass? w c).map w.className) d₂ = some (u, d') := by
  rw [emitClass_of_not_mem hnew] at h
  cases hp : parentClass? w c with
  | none =>
      simp only [hp] at h
      exact ⟨_, nofun, fun _ => rfl, h⟩
  | some p =>
      simp only [hp] at h
      obtain ⟨u₂, d₂, hclass, hmembers⟩ := Derive.bind_eq_some_iff.mp h
      refine ⟨d₂, ?_, nofun, hmembers⟩
      rintro _ ⟨rfl⟩
      exact hclass

/-! ### Classes that are referred to -/

/-- What it means that a class is taken off the list of those that are referred to, or that none is
left to be taken. -/
structure Deriver.Takes (w : World) (d : Deriver) (c? : Option ClassRef) (d' : Deriver) :
    Prop where
  schema : d'.schema = d.schema
  emitted : d'.emitted = d.emitted
  noted : ∀ c, c? = some c → c ∈ d.pending
  new : ∀ c, c? = some c → w.className c ∉ d.emitted
  left : d'.pending ⊆ d.pending
  passed : ∀ x ∈ d.pending, w.className x ∈ d.emitted ∨ c? = some x ∨ x ∈ d'.pending
  last : c? = none → d'.pending = []

theorem exists_nextPending (w : World) (d : Deriver) :
    ∃ c? d', nextPending w d = some (c?, d') := by
  unfold nextPending
  split <;> exact ⟨_, _, rfl⟩

theorem takes_of_nextPending {c? : Option ClassRef} (h : nextPending w d = some (c?, d')) :
    d.Takes w c? d' := by
  have hsplit := List.takeWhile_append_dropWhile
    (p := fun c => d.emitted.contains (w.className c)) (l := d.pending)
  have hpassed : ∀ x ∈ d.pending.takeWhile fun c => d.emitted.contains (w.className c),
      w.className x ∈ d.emitted := by
    intro x hx
    have hx := List.mem_takeWhile_imp hx
    exact List.contains_iff_mem.mp hx
  have hhead := List.head?_dropWhile_not (fun c => d.emitted.contains (w.className c)) d.pending
  unfold nextPending at h
  split at h
  next hnone =>
    cases h
    rw [hnone, List.append_nil] at hsplit
    rw [hsplit] at hpassed
    exact ⟨rfl, rfl, nofun, nofun, List.nil_subset _, fun x hx => Or.inl (hpassed x hx),
      fun _ => rfl⟩
  next c rest hsome =>
    cases h
    rw [hsome] at hsplit hhead
    have hmem : ∀ x ∈ c :: rest, x ∈ d.pending := fun x hx =>
      hsplit ▸ List.mem_append_right _ hx
    refine ⟨rfl, rfl, ?_, ?_, fun x hx => hmem x (List.mem_cons_of_mem _ hx), fun x hx => ?_, nofun⟩
    · rintro _ ⟨rfl⟩
      exact hmem c List.mem_cons_self
    · rintro _ ⟨rfl⟩
      simpa using hhead
    · rw [← hsplit] at hx
      rcases List.mem_append.mp hx with hx | hx
      · exact Or.inl (hpassed x hx)
      · exact Or.inr ((List.mem_cons.mp hx).imp (congrArg some ·.symm) id)

/-- A derivation takes classes off the list and emits them until none is left. -/
theorem next_of_emitPending (h : emitPending w conv (fuel + 1) d = some (u, d')) :
    nextPending w d = some (none, d') ∨ ∃ c d₁ d₂, nextPending w d = some (some c, d₁) ∧
      emitClass w conv (w.classCount + 1) c d₁ = some ((), d₂) ∧
      emitPending w conv fuel d₂ = some (u, d') := by
  rw [emitPending] at h
  obtain ⟨next?, d₁, hnext, hrest⟩ := Derive.bind_eq_some_iff.mp h
  cases next? with
  | none =>
      cases hrest
      exact Or.inl hnext
  | some c =>
      obtain ⟨u₂, d₂, hclass, hrest⟩ := Derive.bind_eq_some_iff.mp hrest
      exact Or.inr ⟨c, d₁, d₂, hnext, hclass, hrest⟩

/-- What the emission of the class that is taken keeps, taking and emitting it keeps. -/
theorem Deriver.Takes.grows {c? : Option ClassRef} {d₁ d₂ : Deriver} (h : d.Takes w c? d₁)
    (hgrows : d₁.Grows w d₂) (hclaimed : ∀ c, c? = some c → w.className c ∈ d₂.emitted) :
    d.Grows w d₂ where
  emitted n hn := hgrows.emitted n (h.emitted ▸ hn)
  names n hn := hgrows.names n (h.schema ▸ hn)
  noted x hx := by
    rcases h.passed x hx with hx | hx | hx
    · exact Or.inl (hgrows.emitted _ (h.emitted ▸ hx))
    · exact Or.inl (hclaimed x hx)
    · exact hgrows.noted x hx
  declared x hx := (hgrows.declared x hx).imp_left fun hx => h.left hx
  entered n hn := h.emitted ▸ hgrows.entered n hn
  claimed n hn := h.emitted ▸ hgrows.claimed n hn
  nodup hd := hgrows.nodup (h.emitted ▸ hd)

end Steps

section Converting

variable {conv : Converter} (hconv : Faithful w S conv)

include hconv

/-- The entries of the members of a class, after the entry of its constructor. -/
theorem emits_membersAfter {c : ClassRef} {env : Env} (parent : Option String) {Q : Prop}
    (hname : Q → S (w.className c)) (henv : Q → env.Sound S) :
    Emits w S Q (do
      let methods ← Derive.converted w
        (instanceMethods w conv env (methodGroups (placed c.decl.members env) false)
          c.decl.interfaces)
      let defined := methods.map Prod.fst
      emitMethods w conv (w.className c) (.ofClass (w.className c)) methods
      let statics := (methodGroups (placed c.decl.members env) true).filter fun g =>
        g.1 != "prototype" && !defined.contains g.1
      emitFunctions w conv (w.className c ++ ".") statics
      match parent with
      | some p => emitInherited (w.className c) (.ofClass (w.className c)) defined p
      | none => pure ()) fun _ => True := by
  refine .bind (.converted ((yields_instanceMethods hconv env c.decl.interfaces _).imp
    fun groups h hQ => h (henv hQ) (sound_methodGroups (sound_placed (henv hQ) _) false)))
    fun methods => ?_
  refine .bind (emits_methods hconv (fun h => hname h.1) methods And.right) fun _ => ?_
  refine .bind (emits_functions hconv _ _ fun h g hg => ?_) fun _ => ?_
  · exact sound_methodGroups (sound_placed (henv h.1.1) _) true g (List.mem_filter.mp hg).1
  · cases parent with
    | none => exact .pure fun _ => trivial
    | some p => exact emits_inherited (fun h => hname h.1.1.1) _ p

theorem emits_members (c : ClassRef) (parent : Option String) :
    Emits w S (S (w.className c) ∧ c.decl.constructorCount < 2 ^ 53) (emitMembers w conv c parent)
      fun _ => True := by
  unfold emitMembers
  refine .bind (.converted ((yields_classEnv hconv c).imp fun env h hQ => h hQ.1)) fun env => ?_
  refine .bind (emits_constructorEntry hconv parent (fun h => h.1.1)
    (fun h => sound_constructorSigs (sound_placed h.2 _)) fun h => ?_) fun e => ?_
  · rw [length_constructorSigs]
    exact h.1.2
  · refine .bind (emits_insert And.right) fun _ => ?_
    exact emits_membersAfter hconv parent (fun h => h.1.1.1.1) fun h => h.1.1.2

theorem enters_members (c : ClassRef) (parent : Option String) :
    Enters (w.className c) (emitMembers w conv c parent) := by
  unfold emitMembers
  refine .bind fun env => .bind fun e => ?_
  refine enters_insert (w := w) (S := S) (Q := False) (P := fun _ => True) fun _ => ?_
  exact emits_membersAfter hconv parent False.elim False.elim

/-- A class is claimed and gets its entries, unless it was claimed before. -/
theorem emitClass_spec (fuel : Nat) : ∀ c, w.scopes.Declares c → ∀ d a d',
    emitClass w conv fuel c d = some (a, d') → d.Grows w d' ∧ w.className c ∈ d'.emitted ∧
      (ConstructorsSmall w → d'.Within w S → d.schema.Sound S → d'.schema.Sound S) := by
  induction fuel with
  | zero =>
      intro _ _ _ _ _ heq
      cases heq
  | succ fuel ih =>
      intro c hc d a d' heq
      by_cases hnew : w.className c ∈ d.emitted
      · cases (emitClass_of_mem hnew).symm.trans heq
        exact ⟨.refl d, hnew, fun _ _ hd => hd⟩
      obtain ⟨d₂, hparent, hroot, hmembers⟩ := exists_members_of_emitClass hnew heq
      -- What follows the claim: the parent, and then the class itself.
      have hbefore : (d.claimed (w.className c)).Grows w d₂ ∧
          (ConstructorsSmall w → d₂.Within w S → d.schema.Sound S → d₂.schema.Sound S) := by
        cases hp : parentClass? w c with
        | none =>
            rw [hroot hp]
            exact ⟨.refl _, fun _ _ hd => hd⟩
        | some p =>
            obtain ⟨hgrows, -, hsound⟩ := ih p (parentClass?_declares hp) _ _ d₂ (hparent p hp)
            exact ⟨hgrows, hsound⟩
      obtain ⟨hgrows₁, hsound₁⟩ := hbefore
      obtain ⟨hgrows₂, hsound₂⟩ := emits_members hconv c _ d₂ a d' hmembers
      have hentered := enters_members hconv c _ d₂ a d' hmembers
      have hgrows := hgrows₁.trans hgrows₂
      have hclaimed := hgrows.emitted _ List.mem_cons_self
      refine ⟨hgrows.of_claimed hc hnew hentered, hclaimed, fun hsmall hwithin hd => ?_⟩
      have hd₂ := hsound₁ hsmall (hwithin.of_grows hgrows₂) hd
      exact (hsound₂ ⟨hwithin.emitted _ hclaimed, hsmall c hc⟩ hwithin hd₂).1

end Converting

end ApiSurface.Declaration
