/-
# `ApiSurface.Proofs.Graph.Accepted` — what the check of a graph guarantees

`Graph.validate` runs through the nodes and stops at the first thing that is wrong.  Here its
verdict is taken apart once: `validate_eq_ok_iff` says that a graph is accepted exactly when the
conditions of `Accepted` hold.  All but the last of them are local; the last one, that the count of
resolved nodes comes to the number of nodes, is turned into the absence of cycles in
`ApiSurface.Proofs.Graph.Resolution`.

`Feeds` is the relation that the inputs give.  The lists of consumers are a second account of the
edges, which the check does not compare with the first one.
-/
import ApiSurface.Plan.Check
import ApiSurface.Proofs.Lookup
import Mathlib.Data.List.Perm.Subperm
import Mathlib.Data.List.Range

namespace ApiSurface.Graph

/-- `g.Feeds a b`: the node `b` has an input that takes its value from `a`. -/
def Feeds (g : Graph) (a b : Nat) : Prop :=
  ∃ n, g.node? b = some n ∧ ∃ i ∈ n.inputs, i.source = a

/-- No node needs its own value. -/
def Acyclic (g : Graph) : Prop :=
  WellFounded g.Feeds

/-! ## Nodes and numbers -/

theorem node?_eq_some_iff {g : Graph} {id : Nat} {n : Node} :
    g.node? id = some n ↔ (id, n) ∈ g.nodes :=
  Table.find?_eq_some_iff g.ascending

theorem hasNode_iff {g : Graph} {id : Nat} : g.hasNode id = true ↔ ∃ n, g.node? id = some n := by
  rw [hasNode, Option.isSome_iff_exists]

theorem hasNode_iff_mem_keys {g : Graph} {id : Nat} :
    g.hasNode id = true ↔ id ∈ Table.keys g.nodes :=
  Table.has_iff

/-! ## The checks one by one -/

theorem ensure_eq_ok_iff {c : Bool} {p : Problem} : ensure c p = .ok () ↔ c = true := by
  cases c <;> simp [ensure]

/-- A check of every member of a list succeeds when it does on each of them. -/
theorem forM_eq_ok_iff {ε α : Type} {f : α → Except ε Unit} {l : List α} :
    l.forM f = .ok () ↔ ∀ a ∈ l, f a = .ok () := by
  induction l with
  | nil => simp [pure, Except.pure]
  | cons a l ih =>
      rw [List.forall_mem_cons, ← ih]
      show (f a >>= fun _ => l.forM f) = .ok () ↔ _
      cases f a <;> simp [bind, Except.bind]

theorem bind_eq_ok_iff {ε : Type} {x y : Except ε Unit} :
    (x >>= fun _ => y) = .ok () ↔ x = .ok () ∧ y = .ok () := by
  cases x <;> simp [bind, Except.bind]

/-- The argument positions are covered when they are those below the arity in some order. -/
theorem coversPorts_iff {arity : Nat} {ports : List Nat} :
    coversPorts arity ports = true ↔ ports.Perm (List.range arity) := by
  simp only [coversPorts, Bool.and_eq_true, beq_iff_eq, List.all_eq_true, List.mem_range,
    List.contains_iff_mem]
  constructor
  · rintro ⟨hlen, hall⟩
    have hsub : List.range arity ⊆ ports := fun p hp => hall p (List.mem_range.mp hp)
    have hperm := List.subperm_of_subset List.nodup_range hsub
    exact (hperm.perm_of_length_le (by simp [hlen])).symm
  · intro hperm
    exact ⟨by simpa using hperm.length_eq, fun p hp => hperm.mem_iff.mpr (List.mem_range.mpr hp)⟩

/-- The inputs of a node fit what it does: none for a constant, one for each argument of a call. -/
def Node.Fits (n : Node) : Prop :=
  match n.payload with
  | .constant .. => n.inputs = []
  | .call _ signature => n.ports.Perm (List.range signature.args.length)

theorem checkPayload_eq_ok_iff {key : Nat} {n : Node} : checkPayload key n = .ok () ↔ n.Fits := by
  unfold checkPayload Node.Fits
  cases n.payload with
  | constant => simp [ensure_eq_ok_iff]
  | call name signature => exact ensure_eq_ok_iff.trans coversPorts_iff

/-- What holds of the node under a number in a graph that is accepted. -/
structure NodeOk (g : Graph) (id : Nat) (n : Node) : Prop where
  keyed : n.id = id
  sources : ∀ i ∈ n.inputs, g.hasNode i.source = true
  targets : ∀ target ∈ n.consumers, g.hasNode target = true
  fits : n.Fits

theorem checkNode_eq_ok_iff {g : Graph} {id : Nat} {n : Node} :
    g.checkNode id n = .ok () ↔ NodeOk g id n := by
  simp only [checkNode, bind_eq_ok_iff, forM_eq_ok_iff, ensure_eq_ok_iff, checkPayload_eq_ok_iff,
    beq_iff_eq]
  exact ⟨fun ⟨hk, hs, ht, hf⟩ => ⟨hk.symm, hs, ht, hf⟩,
    fun h => ⟨h.keyed.symm, h.sources, h.targets, h.fits⟩⟩

/-! ## The check of the whole graph -/

/-- The conditions on a graph that is accepted. -/
structure Accepted (g : Graph) : Prop where
  nodes : ∀ id n, g.node? id = some n → NodeOk g id n
  root : ∀ id, g.root = some id → g.hasNode id = true
  sink : g.sinks ≠ []
  resolved : g.resolvesAll g.readyAtStart = true

theorem validate_eq_ok_iff {g : Graph} : g.validate = .ok () ↔ g.Accepted := by
  have hnodes : (g.nodes.forM fun p => g.checkNode p.1 p.2) = .ok () ↔
      ∀ id n, g.node? id = some n → NodeOk g id n := by
    simp only [forM_eq_ok_iff, checkNode_eq_ok_iff, node?_eq_some_iff, Prod.forall]
  have hsink : (!g.sinks.isEmpty) = true ↔ g.sinks ≠ [] := by simp
  have hall : g.validate = .ok () ↔ (∀ id n, g.node? id = some n → NodeOk g id n) ∧
      (∀ id, g.root = some id → g.hasNode id = true) ∧ g.sinks ≠ [] ∧
      g.resolvesAll g.readyAtStart = true := by
    rw [validate, bind_eq_ok_iff, hnodes, ← hsink]
    cases g.root with
    | none => simp [bind_eq_ok_iff, ensure_eq_ok_iff]
    | some id => simp [bind_eq_ok_iff, ensure_eq_ok_iff]
  rw [hall]
  exact ⟨fun ⟨hn, hr, hs, hc⟩ => ⟨hn, hr, hs, hc⟩,
    fun h => ⟨h.nodes, h.root, h.sink, h.resolved⟩⟩

end ApiSurface.Graph
