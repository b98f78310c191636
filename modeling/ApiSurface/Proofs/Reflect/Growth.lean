/-
# `ApiSurface.Proofs.Reflect.Growth` — how a schema and its endpoints grow while a module is bound

All that a walk over the exports ever does to the schema and the endpoints is one of three steps
(`Binding.Step`): a name that the schema has is bound, an entry of the host is put into the schema
and bound, or an entry is admitted and bound.  What a whole run does is a chain of such steps
(`Growth`), so that a fact about the result is one induction over the chain and no function of the
walk is looked at again.

**Main result** (`growth_of_reflect`): the schema and the endpoints of every run that succeeds have
grown in this way from the schema that was given.

The values of the endpoints are found while the walk goes on and are to be values that can be
invoked when it is over.  So a computation is said to grow (`Grows`) relative to a heap that came
before: values that could be invoked then can be still.
-/
import ApiSurface.Proofs.Live.Hosting
import ApiSurface.Proofs.Reflect.Walking
import ApiSurface.Proofs.Schema.Names
import Mathlib.Logic.Relation

namespace ApiSurface

/-- Whether an entry of the host has the name. -/
def Standard.has (name : String) : Bool :=
  (entries.map Prod.fst).contains name

namespace Reflect

open Live

variable {β σ : Type}

/-! ## Steps -/

/-- One step in which a schema and its endpoints grow, by a value of which `live` holds. -/
inductive Binding.Step (live : Value → Prop) (s : Settings) (b : Binding) : Binding → Prop
  /-- A name that the schema has is bound. -/
  | bind {name : String} {v : Value} (known : b.schema.has name = true)
      (allowed : name ∉ s.skipped) (bindable : live v) :
      Step live s b { b with endpoints := Table.insert b.endpoints name v }
  /-- An entry of the host is added and bound. -/
  | host {name : String} {e : Entry} {v : Value} (unknown : b.schema.has name = false)
      (named : Standard.has name = true) (allowed : name ∉ s.skipped) (bindable : live v) :
      Step live s b { b with
        schema := b.schema.insert name e
        endpoints := Table.insert b.endpoints name v }
  /-- An entry is admitted and bound. -/
  | add {name : String} {e : Entry} {v : Value} (unknown : b.schema.has name = false)
      (others : Standard.has name = false) (wanted : s.onlyKnown = false)
      (allowed : name ∉ s.skipped) (bindable : live v) :
      Step live s b
        { schema := b.schema.insert name e
          endpoints := Table.insert b.endpoints name v
          admitted := b.admitted + 1 }

/-- A chain of steps in which a schema and its endpoints grow. -/
abbrev Binding.Growth (live : Value → Prop) (s : Settings) : Binding → Binding → Prop :=
  Relation.ReflTransGen (Binding.Step live s)

/-- Every entry of the host that may be bound is in the schema. -/
def Binding.Hosts (s : Settings) (b : Binding) : Prop :=
  ∀ name, Standard.has name = true → name ∈ s.skipped ∨ b.schema.has name = true

namespace Binding

variable {live live' : Value → Prop} {s : Settings} {b b' : Binding}

theorem Step.mono (hlive : ∀ v, live v → live' v) (h : Step live s b b') : Step live' s b b' := by
  cases h with
  | bind known allowed bindable => exact .bind known allowed (hlive _ bindable)
  | host unknown named allowed bindable => exact .host unknown named allowed (hlive _ bindable)
  | add unknown others wanted allowed bindable =>
      exact .add unknown others wanted allowed (hlive _ bindable)

theorem Growth.mono (hlive : ∀ v, live v → live' v) (h : Growth live s b b') :
    Growth live' s b b' :=
  h.lift id fun _ _ step => step.mono hlive

theorem Step.has (h : Step live s b b') {name : String} (hname : b.schema.has name = true) :
    b'.schema.has name = true := by
  cases h with
  | bind => exact hname
  | host => exact Schema.has_insert hname _ _
  | add => exact Schema.has_insert hname _ _

theorem Growth.has (h : Growth live s b b') {name : String} (hname : b.schema.has name = true) :
    b'.schema.has name = true := by
  induction h with
  | refl => exact hname
  | tail _ step ih => exact step.has ih

theorem Hosts.of_growth (hb : b.Hosts s) (h : Growth live s b b') : b'.Hosts s :=
  fun name hname => (hb name hname).imp_right h.has

end Binding

/-! ## Computations that grow -/

/-- What can be invoked on a heap can be invoked on a later one, if the library keeps it. -/
def Later (lib : Library β σ) (h h' : Heap (Code β)) : Prop :=
  lib.Keeps → h.Keeps h'

/-- A value can be invoked, if the library keeps what can be. -/
def Bindable (lib : Library β σ) (h : Heap (Code β)) (v : Value) : Prop :=
  lib.Keeps → h.isCallable v = true

variable {lib : Library β σ} {s : Settings} {α γ : Type} {h h' h'' : Heap (Code β)}

theorem Later.refl (h : Heap (Code β)) : Later lib h h :=
  fun _ => .refl h

theorem Later.trans (first : Later lib h h') (second : Later lib h' h'') : Later lib h h'' :=
  fun hlib => (first hlib).trans (second hlib)

theorem Bindable.later {v : Value} (hv : Bindable lib h v) (hh : Later lib h h') :
    Bindable lib h' v :=
  fun hlib => hh hlib v (hv hlib)

theorem bindable_of_isCallable {v : Value} (hv : h.isCallable v = true) : Bindable lib h v :=
  fun _ => hv

/-- Whenever a computation that starts with a binding and after a heap succeeds, the binding has
grown by values that can be invoked when it is over. -/
def Grows (lib : Library β σ) (s : Settings) (h : Heap (Code β)) (b : Binding)
    (m : Mapping β σ α) : Prop :=
  ∀ w a b' w', b.Hosts s → Later lib h w.heap → m b w = (.ok (a, b'), w') →
    Later lib w.heap w'.heap ∧ Binding.Growth (Bindable lib w'.heap) s b b'

theorem mapping_bind_eq (m : Mapping β σ α) (f : α → Mapping β σ γ) (b : Binding)
    (w : World β σ) :
    (m >>= f) b w = match m b w with
      | (.ok (a, b'), w') => f a b' w'
      | (.error c, w') => (.error c, w') := by
  show (m b >>= fun p => f p.1 p.2) w = _
  rw [Run.action_bind_eq]
  rcases m b w with ⟨c | ⟨a, b'⟩, w'⟩ <;> rfl

namespace Grows

variable {b : Binding} {m : Mapping β σ α}

theorem pure (a : α) : Grows lib s h b (pure a) := by
  intro w a' b' w' _ _ hr
  cases hr
  exact ⟨.refl _, .refl⟩

theorem throw (c : Clash) : Grows lib s h b (throw c : Mapping β σ α) := by
  intro w a b' w' _ _ hr
  cases hr

theorem bind {f : α → Mapping β σ γ} (hm : Grows lib s h b m)
    (hf : ∀ a b', Grows lib s h b' (f a)) : Grows lib s h b (m >>= f) := by
  intro w c b'' w'' hb hw hr
  rw [mapping_bind_eq] at hr
  split at hr
  next a b' w' hfirst =>
    obtain ⟨hlater, hgrowth⟩ := hm w a b' w' hb hw hfirst
    obtain ⟨hlater', hgrowth'⟩ :=
      hf a b' w' c b'' w'' (hb.of_growth hgrowth) (hw.trans hlater) hr
    -- The first part bound values that can be invoked where it ended, so where the rest ends too.
    have hkept := hgrowth.mono fun v hv => Bindable.later hv hlater'
    exact ⟨hlater.trans hlater', hkept.trans hgrowth'⟩
  next => cases hr

/-- The heap is read, and what follows grows after it. -/
theorem bind_heap {f : Heap (Code β) → Mapping β σ α} (hf : ∀ h', Grows lib s h' b (f h')) :
    Grows lib s h b (Mapping.heap >>= f) :=
  fun w a b' w' hb _ hr => hf w.heap w a b' w' hb (.refl w.heap) hr

/-- A computation that does the same grows too. -/
theorem congr {m' : Mapping β σ α} (hrun : ∀ w, m b w = m' b w) (hm' : Grows lib s h b m') :
    Grows lib s h b m :=
  fun w a b' w' hb hw hr => hm' w a b' w' hb hw (hrun w ▸ hr)


/-- A computation that takes a step first and then goes on like one that grows. -/
theorem of_step {next : World β σ → Binding} {m' : Mapping β σ α}
    (step : b.Hosts s → ∀ w, b.Step (Bindable lib h) s (next w))
    (hrun : ∀ w, m b w = m' (next w) w) (hm' : ∀ w, Grows lib s h (next w) m') :
    Grows lib s h b m := by
  intro w a b'' w' hb hw hr
  have hfirst := step hb w
  have hb' : (next w).Hosts s := hb.of_growth (.single hfirst)
  obtain ⟨hlater, hgrowth⟩ := hm' w w a b'' w' hb' hw (hrun w ▸ hr)
  refine ⟨hlater, hgrowth.head (hfirst.mono fun v hv => ?_)⟩
  exact Bindable.later hv (hw.trans hlater)

end Grows

/-! ## Probing -/

/-- A step that does not stop early keeps what can be invoked. -/
def Preserves (m : StateM (World β σ) α) : Prop :=
  ∀ w : World β σ, w.heap.Keeps (m w).2.heap

theorem Preserves.bind {m : StateM (World β σ) α} {f : α → StateM (World β σ) γ}
    (hm : Preserves m) (hf : ∀ a, Preserves (f a)) : Preserves (m >>= f) :=
  fun w => (hm w).trans (hf _ _)

theorem preserves_pure (a : α) : Preserves (pure a : StateM (World β σ) α) :=
  fun w => .refl w.heap

theorem preserves_get : Preserves (get : StateM (World β σ) (World β σ)) :=
  fun w => .refl w.heap

theorem preserves_initializes (hlib : lib.Keeps) (f : Value) : Preserves (initializes lib f) := by
  intro w
  let fresh := w.heap.alloc { kind := .ordinary }
  have hfresh : w.heap.Keeps fresh.2 := w.heap.keeps_alloc _
  exact hfresh.trans (keeps_call hlib f (.object fresh.1) [] { w with heap := fresh.2 })

theorem preserves_classify (hlib : lib.Keeps) (f : Value) : Preserves (classify lib f) := by
  unfold classify
  refine Preserves.bind (keeps_call hlib f .undefined []) fun called => ?_
  refine preserves_get.bind fun w₁ => ?_
  split
  · exact preserves_pure _
  refine Preserves.bind (keeps_construct hlib f []) fun constructed => ?_
  refine preserves_get.bind fun w₂ => ?_
  dsimp only
  split
  · exact preserves_pure _
  split
  · exact preserves_pure _
  split
  · exact preserves_pure _
  split
  · exact preserves_pure _
  refine (preserves_initializes hlib f).bind fun initialized => ?_
  split
  · exact preserves_pure _
  · exact preserves_pure _

/-- Whether a function is a constructor is found out without a step of binding. -/
theorem Grows.bind_isConstructor {b : Binding} (v : Value) {f : Bool → Mapping β σ α}
    (hf : ∀ constructs, Grows lib s h b (f constructs)) :
    Grows lib s h b (Mapping.isConstructor lib v >>= f) := by
  intro w a b' w' hb hw hr
  have hprobe : Later lib w.heap (classify lib v w).2.heap := fun hlib =>
    preserves_classify hlib v w
  obtain ⟨hlater, hgrowth⟩ := hf _ _ a b' w' hb (hw.trans hprobe) hr
  exact ⟨hprobe.trans hlater, hgrowth⟩

/-! ## The walk -/

/-- What a walk does at one place is a step, since the host was bound before. -/
theorem Binding.Moves.step {A : String → Entry → Prop} {live : Value → Prop} {b b' : Binding}
    (h : b.Moves A live s b') (hb : b.Hosts s) : b.Step live s b' := by
  cases h with
  | bind known allowed bindable => exact .bind known allowed bindable
  | @add name e v unknown wanted allowed among bindable =>
      have hunknown : b.schema.has name = false := by rw [Schema.has, unknown, Option.isSome_none]
      -- An entry of the host would be in the schema by now.
      have hothers : Standard.has name = false := by
        by_contra hhost
        rcases hb name (Bool.eq_true_of_not_eq_false hhost) with hskip | hhas
        · exact allowed hskip
        · rw [hunknown] at hhas
          cases hhas
      exact .add hunknown hothers wanted allowed bindable

theorem walkClosed_grows : WalkClosed lib s Admissible (Bindable lib) (Grows lib s) where
  found := bindable_of_isCallable
  pure := .pure
  throw := .throw
  bind := .bind
  heap := .bind_heap
  probe := .bind_isConstructor
  read := .congr
  move hmoves := .of_step fun hb w => (hmoves w).step hb

/-! ## The host -/

theorem lookup_isSome_of_has {name : String} (h : Standard.has name = true) :
    ∃ e, Standard.entries.lookup name = some e := by
  cases hfind : Standard.entries.lookup name with
  | some e => exact ⟨e, rfl⟩
  | none =>
      obtain ⟨p, hp, hname⟩ := List.mem_map.mp (List.contains_iff_mem.mp h)
      have hne := List.lookup_eq_none_iff.mp hfind p hp
      simp [hname] at hne

variable {live : Value → Prop}

theorem mapHostValue_eq {p : String × Value} (allowed : ¬ s.skipped.contains p.1 = true)
    (b : Binding) (w : World β σ) :
    let bound : Binding := { b with endpoints := Table.insert b.endpoints p.1 p.2 }
    mapHostValue s p b w = (.ok ((),
      if b.schema.has p.1 then bound
      else match Standard.entries.lookup p.1 with
        | some e => { bound with schema := b.schema.insert p.1 e }
        | none => bound), w) := by
  rw [mapHostValue, if_neg allowed]
  rfl

theorem growth_mapHostValue {p : String × Value} (hnamed : Standard.has p.1 = true)
    (hlive : live p.2) (b : Binding) (w : World β σ) :
    ∃ b', mapHostValue s p b w = (.ok ((), b'), w) ∧ b.Growth live s b' ∧
      (p.1 ∈ s.skipped ∨ b'.schema.has p.1 = true) := by
  by_cases hskip : s.skipped.contains p.1 = true
  · refine ⟨b, ?_, .refl, .inl (List.contains_iff_mem.mp hskip)⟩
    rw [mapHostValue, if_pos hskip]
    rfl
  · rw [mapHostValue_eq hskip]
    have hallowed : p.1 ∉ s.skipped := fun hmem => hskip (List.contains_iff_mem.mpr hmem)
    cases hhas : b.schema.has p.1 with
    | true => exact ⟨_, rfl, .single (.bind hhas hallowed hlive), .inr hhas⟩
    | false =>
        obtain ⟨e, he⟩ := lookup_isSome_of_has hnamed
        rw [he]
        exact ⟨_, rfl, .single (.host hhas hnamed hallowed hlive),
          .inr (Schema.has_insert_self _ _ e)⟩

theorem growth_hostValues (live : Value → Prop) {l : List (String × Value)} (w : World β σ)
    (hl : ∀ p ∈ l, Standard.has p.1 = true ∧ live p.2) :
    ∀ b : Binding, ∃ b', l.forM (mapHostValue s) b w = (.ok ((), b'), w) ∧ b.Growth live s b' ∧
      ∀ p ∈ l, p.1 ∈ s.skipped ∨ b'.schema.has p.1 = true := by
  induction l with
  | nil => exact fun b => ⟨b, rfl, .refl, nofun⟩
  | cons p l ih =>
      intro b
      obtain ⟨hnamed, hlive⟩ := hl p List.mem_cons_self
      obtain ⟨b₁, hfirst, hgrowth, hp⟩ := growth_mapHostValue (s := s) hnamed hlive b w
      obtain ⟨b₂, hrest, hgrowth', hl'⟩ := ih (fun q hq => hl q (List.mem_cons_of_mem _ hq)) b₁
      refine ⟨b₂, ?_, hgrowth.trans hgrowth', ?_⟩
      · show (mapHostValue s p >>= fun _ => l.forM (mapHostValue s)) b w = _
        rw [mapping_bind_eq, hfirst]
        exact hrest
      · intro q hq
        rcases List.mem_cons.mp hq with rfl | hq
        · exact hp.imp_right hgrowth'.has
        · exact hl' q hq

/-- The host is bound first, and then all of it that may be is in the schema. -/
theorem growth_mapHost (b : Binding) (w : World β σ) :
    ∃ b' w', mapHost s b w = (.ok ((), b'), w') ∧
      b.Growth (fun v => w'.heap.isCallable v = true) s b' ∧ b'.Hosts s := by
  let made := Building.host w.heap
  let w' : World β σ := { w with heap := made.2 }
  have hnames : made.1.map Prod.fst = Standard.entries.map Prod.fst := Building.names_host w.heap
  have hvalues : ∀ p ∈ made.1, Standard.has p.1 = true ∧ w'.heap.isCallable p.2 = true := by
    intro p hp
    refine ⟨List.contains_iff_mem.mpr (hnames ▸ List.mem_map_of_mem hp), ?_⟩
    exact Building.supplies_host w.heap nofun p hp
  obtain ⟨b', hrun, hgrowth, hall⟩ :=
    growth_hostValues (s := s) (fun v => w'.heap.isCallable v = true) w' hvalues b
  refine ⟨b', w', hrun, hgrowth, fun name hname => ?_⟩
  have hmem : name ∈ made.1.map Prod.fst := by
    rw [hnames]
    exact List.contains_iff_mem.mp hname
  obtain ⟨p, hp, rfl⟩ := List.mem_map.mp hmem
  exact hall p hp

/-! ## The whole run -/

theorem reflect_eq (lib : Library β σ) (s : Settings) (given : Schema) (exports : Value)
    (w : World β σ) :
    reflect lib s given exports w =
      match (mapHost s >>= fun _ => mapExports lib s exports) { schema := given } w with
      | (.ok (_, b), w') => (.ok b.finish, w')
      | (.error c, w') => (.error c, w') := by
  rw [reflect, Run.action_bind_eq]
  rcases (mapHost s >>= fun _ => mapExports lib s exports) { schema := given } w with
    ⟨c | ⟨u, b⟩, w'⟩ <;> rfl

/-- The binding that a run ends with has grown from the schema that was given. -/
theorem growth_of_run {given : Schema} {exports : Value} {u : Unit} {b : Binding} {w w' : World β σ}
    (h : (mapHost s >>= fun _ => mapExports lib s exports) { schema := given } w =
      (.ok (u, b), w')) :
    Binding.Growth (Bindable lib w'.heap) s { schema := given } b := by
  obtain ⟨b₁, w₁, hhost, hgrowth, hhosts⟩ := growth_mapHost (s := s) { schema := given } w
  rw [mapping_bind_eq, hhost] at h
  have hgrows : Grows lib s w₁.heap b₁ (mapExports lib s exports) :=
    walkClosed_grows.mapExports members_admissible admissible_admittedEntry w₁.heap exports b₁
  obtain ⟨hlater, hgrowth'⟩ := hgrows w₁ u b w' hhosts (.refl w₁.heap) h
  have hkept := hgrowth.mono fun v hv => Bindable.later (bindable_of_isCallable hv) hlater
  exact hkept.trans hgrowth'

/-- **What a run returns has grown from the schema that was given**, by values that can be invoked
when the run is over. -/
theorem growth_of_reflect {given : Schema} {exports : Value} {loaded : Loaded} {w w' : World β σ}
    (h : reflect lib s given exports w = (.ok loaded, w')) :
    ∃ b, loaded = Binding.finish b ∧
      Binding.Growth (Bindable lib w'.heap) s { schema := given } b := by
  rw [reflect_eq] at h
  split at h
  next u b w₁ hrun =>
    cases h
    exact ⟨b, rfl, growth_of_run hrun⟩
  next => cases h

end Reflect

end ApiSurface
