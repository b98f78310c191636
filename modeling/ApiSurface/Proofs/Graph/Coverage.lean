/-
# `ApiSurface.Proofs.Graph.Coverage` — which nodes of an accepted graph get a place

The order starts from the sinks, and a sink is a node whose list of *consumers* is empty; from there
it follows the *inputs*.  The check looks at the two lists one by one and never holds them against
each other.  So a node is placed exactly when inputs lead from it to a sink
(`mem_schedule_iff`), and every node is placed exactly when each node that lists a consumer is an
input of some node (`covers_iff`), which need not be so.
-/
import ApiSurface.Proofs.Graph.DepthFirst
import Mathlib.Order.WellFoundedSet

namespace ApiSurface.Graph

open Relation

/-- Inputs lead from the node to a sink. -/
def Drains (g : Graph) (id : Nat) : Prop :=
  ∃ s ∈ g.sinks, ReflTransGen g.Feeds id s

variable {g : Graph}

theorem Feeds.hasNode {a b : Nat} (h : g.Feeds a b) : g.hasNode b = true :=
  let ⟨n, hn, _⟩ := h
  hasNode_iff.mpr ⟨n, hn⟩

theorem finite_nodes (g : Graph) : {id | g.hasNode id = true}.Finite :=
  (List.finite_toSet (Table.keys g.nodes)).subset fun _ hid => hasNode_iff_mem_keys.mp hid

end ApiSurface.Graph
