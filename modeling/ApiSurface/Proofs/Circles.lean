/-
# `ApiSurface.Proofs.Circles` — steps that lead in a circle

A search follows steps from one thing to the next to a bounded depth.  Where the steps lead in a
circle it ends at no depth (`Circling.not_ends`).  Where it is cut off it leaves a chain of steps
behind, so if there are no more things than the depth, the chain has come to one of them twice
(`circling_of_not_ends`).
-/
import Mathlib.Data.List.Nodup
import Mathlib.Logic.Relation

namespace ApiSurface

open Relation (ReflTransGen TransGen)

variable {α : Type} {R : α → α → Prop}

/-- The steps from `a` lead in a circle. -/
def Circling (R : α → α → Prop) (a : α) : Prop :=
  ∃ b, ReflTransGen R a b ∧ TransGen R b b

namespace Circling

theorem mono {R' : α → α → Prop} (h : ∀ a b, R a b → R' a b) {a : α} (ha : Circling R a) :
    Circling R' a := by
  obtain ⟨b, hreach, hcircle⟩ := ha
  exact ⟨b, ReflTransGen.mono h _ _ hreach, TransGen.mono h _ _ hcircle⟩

/-- Into a circle there is always another step. -/
theorem exists_step {a : α} (h : Circling R a) : ∃ b, R a b ∧ Circling R b := by
  obtain ⟨c, hreach, hcircle⟩ := h
  rcases ReflTransGen.cases_head hreach with rfl | ⟨b, hstep, hrest⟩
  · obtain ⟨b, hstep, hrest⟩ := TransGen.head'_iff.mp hcircle
    exact ⟨b, hstep, a, hrest, hcircle⟩
  · exact ⟨b, hstep, c, hrest, hcircle⟩

variable {E : Nat → α → Prop}

/-- A search that does not end where a step leads does not end; so a circle is left at no depth. -/
theorem not_ends (hzero : ∀ a, ¬ E 0 a)
    (hsucc : ∀ n a b, R a b → ¬ E n b → ¬ E (n + 1) a) (n : Nat) :
    ∀ a, Circling R a → ¬ E n a := by
  induction n with
  | zero =>
      intro a _
      exact hzero a
  | succ n ih =>
      intro a ha
      obtain ⟨b, hstep, hb⟩ := ha.exists_step
      exact hsucc n a b hstep (ih b hb)

end Circling

/-! ## Chains -/

section Chains

variable {β : Type} {E : Nat → α → Prop} {I : α → Prop} {pool : List β} {f : α → β}
  (hsucc : ∀ n a, I a → ¬ E (n + 1) a → ∃ b, R a b ∧ I b ∧ ¬ E n b)
  (hpool : ∀ n a, I a → ¬ E n a → f a ∈ pool)

include hsucc hpool

/-- A search that is cut off leaves a chain behind, which is as long as the search is deep. -/
theorem exists_chain (n : Nat) : ∀ a, I a → ¬ E n a →
    ∃ l : List α, l.length = n ∧ (∀ b ∈ a :: l, f b ∈ pool) ∧ (a :: l).Pairwise (TransGen R) := by
  induction n with
  | zero =>
      intro a ha hnot
      exact ⟨[], rfl, List.forall_mem_singleton.mpr (hpool 0 a ha hnot),
        List.pairwise_singleton _ _⟩
  | succ n ih =>
      intro a ha hnot
      obtain ⟨b, hstep, hb, hnot'⟩ := hsucc n a ha hnot
      obtain ⟨l, hlength, hmem, hl⟩ := ih b hb hnot'
      refine ⟨b :: l, congrArg (· + 1) hlength,
        List.forall_mem_cons.mpr ⟨hpool _ a ha hnot, hmem⟩, List.pairwise_cons.mpr ⟨?_, hl⟩⟩
      exact List.forall_mem_cons.mpr ⟨.single hstep, fun c hc =>
        .head hstep ((List.pairwise_cons.mp hl).1 c hc)⟩

/-- **A search that is deep enough and does not end has come into a circle**, if what it comes to on
its way is told apart by `f`. -/
theorem circling_of_not_ends (hinj : ∀ a b, TransGen R a b → f a = f b → a = b) {n : Nat}
    (hn : pool.length ≤ n) {a : α} (ha : I a) (hnot : ¬ E n a) : Circling R a := by
  obtain ⟨l, hlength, hmem, hl⟩ := exists_chain hsucc hpool n a ha hnot
  by_contra hno
  obtain ⟨hfirst, -⟩ := List.pairwise_cons.mp hl
  have hacyclic : ∀ b ∈ a :: l, ¬ TransGen R b b := by
    intro b hb hcircle
    rcases List.mem_cons.mp hb with rfl | hb
    · exact hno ⟨b, .refl, hcircle⟩
    · exact hno ⟨b, (hfirst b hb).to_reflTransGen, hcircle⟩
  have hnodup : ((a :: l).map f).Nodup := by
    refine List.pairwise_map.mpr (hl.imp_of_mem fun {b c} _ hc hbc heq => hacyclic c hc ?_)
    obtain rfl := hinj b c hbc heq
    exact hbc
  have hsubset : (a :: l).map f ⊆ pool := by
    intro x hx
    obtain ⟨b, hb, rfl⟩ := List.mem_map.mp hx
    exact hmem b hb
  have hle := hnodup.length_le_of_subset hsubset
  rw [List.length_map, List.length_cons, hlength] at hle
  omega

end Chains

end ApiSurface
