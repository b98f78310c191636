/-
# `ApiSurface.Proofs.Reflect.Repeats` — a second run that goes along with the first

Two runs start from different schemas: the first one admits entries on its way, the second one has
all of them from the start.  They do not take the same branches, but where the first run ends, the
second one has bound the same names (`Binding.Abreast`).  `Repeats` says this of two computations,
step by step, and has one rule for each way in which computations are put together.

What the second run finds at a name is known before the first run is over, since an entry is never
replaced: whatever the first run finds or admits there is what there will be in the end
(`Schema.Extends`).  So a rule for a name that the first run does not know (`Repeats.step`) may take
it that the second one knows the entry that is admitted.
-/
import ApiSurface.Proofs.Reflect.Maintained
import ApiSurface.Proofs.Reflect.Probing

namespace ApiSurface

/-- Every entry of a schema is in another one as it is. -/
def Schema.Extends (s s' : Schema) : Prop :=
  ∀ n e, s.find? n = some e → s'.find? n = some e

namespace Schema.Extends

variable {s s' s'' : Schema}

theorem refl (s : Schema) : s.Extends s :=
  fun _ _ h => h

theorem trans (first : s.Extends s') (second : s'.Extends s'') : s.Extends s'' :=
  fun n e h => second n e (first n e h)

theorem insert (ext : s.Extends s') {name : String} (hnone : s'.find? name = none) (e : Entry) :
    s.Extends (s'.insert name e) := by
  intro n e' hn
  have hne : n ≠ name := by
    rintro rfl
    cases hnone.symm.trans (ext n e' hn)
  exact (Table.find?_insert_of_ne hne _ _).trans (ext n e' hn)

theorem has (ext : s.Extends s') {n : String} (hn : s.has n = true) : s'.has n = true := by
  obtain ⟨e, he⟩ := Option.isSome_iff_exists.mp hn
  rw [Schema.has, ext n e he, Option.isSome_some]

end Schema.Extends

namespace Reflect

open Live

variable {β σ α γ : Type} {h : Heap (Code β)} {S : Schema} {b : Binding}

/-! ## Two runs side by side -/

/-- A binding with one more endpoint. -/
def Binding.bind (b : Binding) (name : String) (v : Value) : Binding :=
  { b with endpoints := Table.insert b.endpoints name v }

/-- A binding with one more entry, which is admitted and bound. -/
def Binding.enter (b : Binding) (name : String) (e : Entry) (v : Value) : Binding :=
  { schema := b.schema.insert name e
    endpoints := Table.insert b.endpoints name v
    admitted := b.admitted + 1 }

/-- A second run is where a first one is: it has had the whole schema from the start, and has bound
the same names. -/
structure Binding.Abreast (S : Schema) (b c : Binding) : Prop where
  schema : c.schema = S
  bound : ∀ n, Table.has c.endpoints n = Table.has b.endpoints n

theorem Binding.Abreast.bind {c : Binding} (hc : b.Abreast S c) {b' : Binding} {name : String}
    {v : Value} (hb : b'.endpoints = Table.insert b.endpoints name v) (v' : Value) :
    b'.Abreast S (c.bind name v') where
  schema := hc.schema
  bound n := by
    rw [hb, Binding.bind, Table.has_insert, Table.has_insert, hc.bound]

/-- Whenever a computation that starts with a binding succeeds, entries have been added and the
objects of the heap are as they were. -/
def Advances (h : Heap (Code β)) (b : Binding) (m : Mapping β σ α) : Prop :=
  ∀ w a b' w', h.Extends w.heap → m b w = (.ok (a, b'), w') →
    h.Extends w'.heap ∧ b.schema.Extends b'.schema

/-- A computation that starts with a binding advances.  Whenever it ends with entries of the schema
only, a second computation that starts abreast succeeds, too, and ends abreast. -/
structure Repeats (h : Heap (Code β)) (S : Schema) (b : Binding) (m m' : Mapping β σ α) :
    Prop where
  advances : Advances h b m
  follows : ∀ w a b' w', h.Extends w.heap → m b w = (.ok (a, b'), w') → b'.schema.Extends S →
    ∀ c u, b.Abreast S c → h.Extends u.heap →
      ∃ c' u', m' c u = (.ok (a, c'), u') ∧ h.Extends u'.heap ∧ b'.Abreast S c'

namespace Repeats

variable {m m' : Mapping β σ α}

theorem pure (a : α) : Repeats h S b (pure a : Mapping β σ α) (pure a) where
  advances := by
    intro w a' b' w' ext hr
    cases hr
    exact ⟨ext, .refl _⟩
  follows := by
    intro w a' b' w' ext hr _ c u hc hu
    cases hr
    exact ⟨c, u, rfl, hu, hc⟩

theorem throw (c : Clash) : Repeats h S b (throw c) m' where
  advances := by
    intro w a b' w' _ hr
    cases hr
  follows := by
    intro w a b' w' _ hr
    cases hr

/-- What follows is asked for only where the first computation can end. -/
theorem bind {f f' : α → Mapping β σ γ} (hm : Repeats h S b m m')
    (hf : ∀ w a b' w', m b w = (.ok (a, b'), w') → Repeats h S b' (f a) (f' a)) :
    Repeats h S b (m >>= f) (m' >>= f') where
  advances := by
    intro w a₂ b₂ w₂ ext hr
    rw [mapping_bind_eq] at hr
    split at hr
    next a₁ b₁ w₁ hfirst =>
      obtain ⟨ext₁, hle₁⟩ := hm.advances w a₁ b₁ w₁ ext hfirst
      obtain ⟨ext₂, hle₂⟩ := (hf w a₁ b₁ w₁ hfirst).advances w₁ a₂ b₂ w₂ ext₁ hr
      exact ⟨ext₂, hle₁.trans hle₂⟩
    next => cases hr
  follows := by
    intro w a₂ b₂ w₂ ext hr hS c u hc hu
    rw [mapping_bind_eq] at hr
    split at hr
    next a₁ b₁ w₁ hfirst =>
      have hrest := hf w a₁ b₁ w₁ hfirst
      obtain ⟨ext₁, -⟩ := hm.advances w a₁ b₁ w₁ ext hfirst
      obtain ⟨-, hle₂⟩ := hrest.advances w₁ a₂ b₂ w₂ ext₁ hr
      obtain ⟨c₁, u₁, hrun₁, hu₁, hc₁⟩ :=
        hm.follows w a₁ b₁ w₁ ext hfirst (hle₂.trans hS) c u hc hu
      obtain ⟨c₂, u₂, hrun₂, hu₂, hc₂⟩ := hrest.follows w₁ a₂ b₂ w₂ ext₁ hr hS c₁ u₁ hc₁ hu₁
      refine ⟨c₂, u₂, ?_, hu₂, hc₂⟩
      rw [mapping_bind_eq, hrun₁]
      exact hrun₂
    next => cases hr

/-- Two loops over one list, with an invariant of the binding. -/
theorem forM {I : Binding → Prop} {l : List α} {f f' : α → Mapping β σ Unit}
    (hI : ∀ a ∈ l, ∀ b, Maintains I b (f a))
    (hf : ∀ a ∈ l, ∀ b, I b → Repeats h S b (f a) (f' a)) :
    ∀ b, I b → Repeats h S b (l.forM f) (l.forM f') := by
  induction l with
  | nil => exact fun _ _ => pure ()
  | cons a l ih =>
      intro b hb
      refine (hf a List.mem_cons_self b hb).bind fun w u b' w' hr => ?_
      refine ih (fun a ha => hI a (List.mem_cons_of_mem _ ha))
        (fun a ha => hf a (List.mem_cons_of_mem _ ha)) b' ?_
      exact hI a List.mem_cons_self b w u b' w' hb hr

/-- Two loops over one list. -/
theorem forM_all {l : List α} {f f' : α → Mapping β σ Unit}
    (hf : ∀ a ∈ l, ∀ b, Repeats h S b (f a) (f' a)) (b : Binding) :
    Repeats h S b (l.forM f) (l.forM f') :=
  forM (I := fun _ => True) (fun _ _ _ _ _ _ _ _ _ => trivial) (fun a ha b _ => hf a ha b) b trivial

/-- Both computations read the heap. -/
theorem bind_heap {f f' : Heap (Code β) → Mapping β σ α}
    (hf : ∀ h₁ h₂, h.Extends h₁ → h.Extends h₂ → Repeats h S b (f h₁) (f' h₂)) :
    Repeats h S b (Mapping.heap >>= f) (Mapping.heap >>= f') where
  advances w a b' w' ext hr := (hf w.heap w.heap ext ext).advances w a b' w' ext hr
  follows w a b' w' ext hr hS c u hc hu :=
    (hf w.heap u.heap ext hu).follows w a b' w' ext hr hS c u hc hu

/-- Both computations read the binding; the second one is asked for the schema only. -/
theorem bind_get {f f' : Binding → Mapping β σ α}
    (hf : ∀ c : Binding, c.schema = S → Repeats h S b (f b) (f' c)) :
    Repeats h S b (get >>= f) (get >>= f') where
  advances := (hf { schema := S } rfl).advances
  follows w a b' w' ext hr hS c u hc hu :=
    (hf c hc.schema).follows w a b' w' ext hr hS c u hc hu

/-- A name that the first computation knows, the second one knows, too. -/
theorem bind_known {name : String} {e : Entry} {f f' : Option Convention → Mapping β σ α}
    (hfind : b.schema.find? name = some e)
    (hf : Repeats h S b (f (some e.convention)) (f' (some e.convention))) :
    Repeats h S b (Mapping.known? name >>= f) (Mapping.known? name >>= f') := by
  have hread : ∀ (g : Option Convention → Mapping β σ α) (c : Binding) (u : World β σ),
      c.schema.find? name = some e →
      (Mapping.known? name >>= g) c u = g (some e.convention) c u := by
    intro g c u hc
    show g ((c.schema.find? name).map Entry.convention) c u = _
    rw [hc, Option.map_some]
  constructor
  · intro w a b' w' ext hr
    rw [hread f b w hfind] at hr
    exact hf.advances w a b' w' ext hr
  · intro w a b' w' ext hr hS c u hc hu
    rw [hread f b w hfind] at hr
    obtain ⟨-, hle⟩ := hf.advances w a b' w' ext hr
    have hknown : c.schema.find? name = some e := by
      rw [hc.schema]
      exact hS name e (hle name e hfind)
    rw [hread f' c u hknown]
    exact hf.follows w a b' w' ext hr hS c u hc hu

/-- A name that the first computation does not know. -/
theorem bind_unknown {name : String} {f : Option Convention → Mapping β σ α}
    (hnone : b.schema.find? name = none) (hf : Repeats h S b (f none) m') :
    Repeats h S b (Mapping.known? name >>= f) m' := by
  have hread : ∀ w : World β σ, (Mapping.known? name >>= f) b w = f none b w := by
    intro w
    show f ((b.schema.find? name).map Entry.convention) b w = _
    rw [hnone, Option.map_none]
  constructor
  · intro w a b' w' ext hr
    exact hf.advances w a b' w' ext (hread w ▸ hr)
  · intro w a b' w' ext hr
    exact hf.follows w a b' w' ext (hread w ▸ hr)

/-- Both computations bind a name and go on; the first one may admit an entry. -/
theorem step (b' : Binding) (name : String) (v v' : Value) {rest rest' : Mapping β σ α}
    (hle : b.schema.Extends b'.schema) (hbound : b'.endpoints = Table.insert b.endpoints name v)
    (hm : ∀ w, h.Extends w.heap → ∃ w', h.Extends w'.heap ∧ m b w = rest b' w')
    (hm' : b'.schema.Extends S → ∀ c u, c.schema = S → h.Extends u.heap →
      ∃ u', h.Extends u'.heap ∧ m' c u = rest' (c.bind name v') u')
    (hrest : Repeats h S b' rest rest') : Repeats h S b m m' where
  advances := by
    intro w a b₁ w₁ ext hr
    obtain ⟨w', ext', heq⟩ := hm w ext
    obtain ⟨ext₁, hle₁⟩ := hrest.advances w' a b₁ w₁ ext' (heq ▸ hr)
    exact ⟨ext₁, hle.trans hle₁⟩
  follows := by
    intro w a b₁ w₁ ext hr hS c u hc hu
    obtain ⟨w', ext', heq⟩ := hm w ext
    obtain ⟨-, hle₁⟩ := hrest.advances w' a b₁ w₁ ext' (heq ▸ hr)
    obtain ⟨u', hu', heq'⟩ := hm' (hle₁.trans hS) c u hc.schema hu
    rw [heq']
    exact hrest.follows w' a b₁ w₁ ext' (heq ▸ hr) hS _ u' (hc.bind hbound v') hu'

/-- How far the first computation gets does not depend on the schema, so that the schema may be
taken to have what there is when it starts. -/
theorem of_extends (hadvances : Advances h b m)
    (hm : b.schema.Extends S → Repeats h S b m m') : Repeats h S b m m' where
  advances := hadvances
  follows w a b' w' ext hr hS :=
    (hm ((hadvances w a b' w' ext hr).2.trans hS)).follows w a b' w' ext hr hS

end Repeats

end Reflect

end ApiSurface
