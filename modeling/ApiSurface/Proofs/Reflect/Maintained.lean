/-
# `ApiSurface.Proofs.Reflect.Maintained` — what every entry that is added has to do with

`Growth` says that a walk over the exports adds entries under new names; here it is said which
entries.  A walk adds the entry of a constructor, a plain function or a method of which nothing but
the number of parameters is known (`Admissible`), and so it maintains every invariant of a binding
that such additions keep (`walkClosed_maintains`).  The invariants that this is used for speak of
the whole schema at once, so that nothing need be known of the order in which the walk comes to the
names.
-/
import ApiSurface.Proofs.Reflect.Growth

namespace ApiSurface.Reflect

open Live

variable {β σ : Type}

/-- An invariant of a binding that is kept when a name is bound and when an entry of the set is
added under a new name. -/
structure Kept (A : String → Entry → Prop) (I : Binding → Prop) : Prop where
  bound : ∀ b name v, I b → I { b with endpoints := Table.insert b.endpoints name v }
  added : ∀ b name e, b.schema.find? name = none → A name e → I b →
    I { b with schema := b.schema.insert name e, admitted := b.admitted + 1 }

/-- Whenever a computation that starts with the binding succeeds, the invariant still holds. -/
def Maintains {α : Type} (I : Binding → Prop) (b : Binding) (m : Mapping β σ α) : Prop :=
  ∀ w a b' w', I b → m b w = (.ok (a, b'), w') → I b'

variable {A : String → Entry → Prop} {I : Binding → Prop} {lib : Library β σ} {s : Settings}
  {α γ : Type} {b : Binding}

namespace Maintains

theorem pure (a : α) : Maintains I b (pure a : Mapping β σ α) := by
  intro w a' b' w' hI hr
  cases hr
  exact hI

theorem throw (c : Clash) : Maintains I b (throw c : Mapping β σ α) := by
  intro w a b' w' _ hr
  cases hr

theorem bind {m : Mapping β σ α} {f : α → Mapping β σ γ} (hm : Maintains I b m)
    (hf : ∀ a b', Maintains I b' (f a)) : Maintains I b (m >>= f) := by
  intro w c b'' w'' hI hr
  rw [mapping_bind_eq] at hr
  split at hr
  next a b' w' hfirst => exact hf a b' w' c b'' w'' (hm w a b' w' hI hfirst) hr
  next => cases hr

theorem forM {l : List α} {f : α → Mapping β σ Unit} (hf : ∀ a b, Maintains I b (f a)) :
    ∀ b, Maintains I b (l.forM f) := by
  induction l with
  | nil => exact fun _ => pure ()
  | cons a l ih => exact fun b => (hf a b).bind fun _ b' => ih b'

theorem bind_heap {f : Heap (Code β) → Mapping β σ α} (hf : ∀ h, Maintains I b (f h)) :
    Maintains I b (Mapping.heap >>= f) :=
  fun w a b' w' hI hr => hf w.heap w a b' w' hI hr

/-- A computation that does the same maintains the invariant too. -/
theorem congr {m m' : Mapping β σ α} (hrun : ∀ w, m b w = m' b w) (hm' : Maintains I b m') :
    Maintains I b m :=
  fun w a b' w' hI hr => hm' w a b' w' hI (hrun w ▸ hr)

theorem bind_isConstructor (v : Value) {f : Bool → Mapping β σ α}
    (hf : ∀ constructs, Maintains I b (f constructs)) :
    Maintains I b (Mapping.isConstructor lib v >>= f) :=
  fun _ a b' w' hI hr => hf _ _ a b' w' hI hr

end Maintains

/-! ## The walk -/

theorem Kept.of_moves {live : Value → Prop} {b' : Binding} (hI : Kept A I)
    (h : b.Moves A live s b') (hb : I b) : I b' := by
  cases h with
  | @bind name v _ _ _ => exact hI.bound b name v hb
  | @add name e v unknown _ _ among _ =>
      exact hI.bound _ name v (hI.added b name e unknown among hb)

/-- **A walk maintains what the entries that it may add maintain**, wherever it found its values. -/
theorem walkClosed_maintains (lib : Library β σ) (s : Settings) (hI : Kept A I) :
    WalkClosed lib s A (fun _ _ => True) fun (_ : Heap (Code β)) => Maintains (σ := σ) I where
  found _ := trivial
  pure := .pure
  throw := .throw
  bind := .bind
  heap := .bind_heap
  probe := .bind_isConstructor
  read := .congr
  move hmoves hrun hm := fun w a b' w' hb hr =>
    hm w w a b' w' (hI.of_moves (hmoves w) hb) (hrun w ▸ hr)

/-! ## Whole runs -/

end ApiSurface.Reflect
