/-
# `ApiSurface.Proofs.Graph.Verdict` — which graphs are accepted, whatever the order of the check

`Graph.validate` goes through its tables in the order of their keys.  Nothing fixes that order: the
nodes can be looked at in any order, the takers of a value can be listed in any order, and the nodes
that wait for no input can lie on the stack in any order.  A `Traversal` is a choice of these
orders, and `Traversal.verdict?` is the check that goes by it.  It also looks out for a count that
would be lowered below zero, and gives no verdict then.

`validate_eq_ok_iff_runnable`: the check accepts a graph exactly when the conditions of `Runnable`
hold, every traversal comes to a verdict, and all of them accept the same graphs.

A traversal keeps the invariant `Progress` like the count in key order does, since the invariant
speaks of look-ups, of how often a taker is listed and of what lies on the stack, never of where.
-/
import ApiSurface.Proofs.Graph.Coverage

namespace ApiSurface.Graph

open Relation

/-! ## Graphs that can be run -/

/-- What a graph needs to be run. -/
structure Runnable (g : Graph) : Prop where
  /-- Nodes stand under their numbers, their edges have both ends, and their inputs fit. -/
  nodes : ∀ id n, g.node? id = some n → NodeOk g id n
  root : ∀ id, g.root = some id → ∃ n, g.node? id = some n
  sink : ∃ id n, g.node? id = some n ∧ n.consumers = []
  /-- No chain of inputs leads from a node back to it. -/
  acyclic : ∀ id, ¬ TransGen g.Feeds id id

variable {g : Graph}

/-- In a finite graph no chain of inputs goes down forever unless one comes back to its start. -/
theorem acyclic_iff (hs : g.Sourced) : g.Acyclic ↔ ∀ id, ¬ TransGen g.Feeds id id := by
  refine ⟨fun ac _ => not_transGen_self ac, fun hno => ?_⟩
  have : IsStrictOrder Nat (TransGen g.Feeds) :=
    { irrefl := hno
      trans := fun _ _ _ hab hbc => hab.trans hbc }
  have hnode : ∀ {id}, g.hasNode id = true → Acc g.Feeds id := fun {id} hid => by
    refine g.finite_nodes.wellFoundedOn.induction (r := TransGen g.Feeds) hid fun id _ ih => ?_
    refine Acc.intro id ?_
    rintro a ⟨n, hn, i, hi, rfl⟩
    exact ih i.source (hs id n hn i hi) (.single ⟨n, hn, i, hi, rfl⟩)
  -- What stands for no node has no inputs.
  refine ⟨fun id => ?_⟩
  by_cases hid : g.hasNode id = true
  · exact hnode hid
  · exact Acc.intro id fun a hfeeds => absurd hfeeds.hasNode hid

theorem accepted_iff_runnable : g.Accepted ↔ g.Runnable := by
  have hsink : g.sinks ≠ [] ↔ ∃ id n, g.node? id = some n ∧ n.consumers = [] := by
    simp [sinks, Node.isSink, node?_eq_some_iff]
  constructor
  · intro h
    exact ⟨h.nodes, fun id hid => hasNode_iff.mp (h.root id hid), hsink.mp h.sink,
      (acyclic_iff h.sourced).mp h.acyclic⟩
  · intro h
    have hs : g.Sourced := fun id n hn => (h.nodes id n hn).sources
    exact ⟨h.nodes, fun id hid => hasNode_iff.mpr (h.root id hid), hsink.mpr h.sink,
      (resolvesAll_iff (fun id n hn => (h.nodes id n hn).keyed) hs).mpr
        ((acyclic_iff hs).mpr h.acyclic)⟩

/-! ## The check in any order -/

/-- Takes one input of a node as given, unless the node has none left. -/
def takeInput? (state : List Nat × Pending) (id : Nat) : Option (List Nat × Pending) :=
  match Table.find? state.2 id with
  | some 0 => none
  | _ => some (resolveInput state id)

/-- How many nodes get a value when the given nodes take it from one another; none when a count
would be lowered below zero. -/
def countFrom? (takers : Nat → List Nat) : Nat → List Nat → Pending → Option Nat
  | 0, _, _ => some 0
  | _ + 1, [], _ => some 0
  | fuel + 1, id :: ready, pending => do
    let state ← (takers id).foldlM takeInput? (ready, pending)
    let n ← countFrom? takers fuel state.1 state.2
    return n + 1

/-- An order to go through a graph in: one of its nodes, and one of those that wait for no input. -/
structure Traversal (g : Graph) where
  nodes : List (Nat × Node)
  nodes_perm : nodes.Perm g.nodes
  ready : List Nat
  ready_perm : ready.Perm g.readyAtStart

/-- The nodes that take the value of `source` as an input, in the order in which they are come
across. -/
def Traversal.takers (t : Traversal g) (source : Nat) : List Nat :=
  t.nodes.flatMap fun p => (p.2.inputs.filter fun i => i.source == source).map fun _ => p.2.id

/-- What is checked before the count. -/
def Traversal.checkParts (t : Traversal g) : Except Problem Unit := do
  t.nodes.forM fun p => g.checkNode p.1 p.2
  match g.root with
  | some id => ensure (g.hasNode id) (.noRoot id)
  | none => pure ()
  ensure (t.nodes.any fun p => p.2.isSink) .noSink

/-- The verdict of the check in this order, where the count takes at most the given number of nodes
from the stack; none when a count would be lowered below zero. -/
def Traversal.verdict? (t : Traversal g) (steps : Nat) : Option (Except Problem Unit) :=
  match t.checkParts with
  | .error problem => some (.error problem)
  | .ok () => do
    let n ← countFrom? t.takers steps t.ready g.pendingAtStart
    return ensure (n == g.nodes.length) .cycle

/-- The order of the keys. -/
def Traversal.inOrder (g : Graph) : Traversal g :=
  ⟨g.nodes, .refl _, g.readyAtStart, .refl _⟩

theorem Traversal.takers_perm (t : Traversal g) (source : Nat) :
    (t.takers source).Perm (g.takers source) :=
  t.nodes_perm.flatMap_right _

theorem Traversal.checkParts_eq_ok_iff (t : Traversal g) :
    t.checkParts = .ok () ↔ (∀ id n, g.node? id = some n → NodeOk g id n) ∧
      (∀ id, g.root = some id → g.hasNode id = true) ∧ g.sinks ≠ [] := by
  have hnodes : (t.nodes.forM fun p => g.checkNode p.1 p.2) = .ok () ↔
      ∀ id n, g.node? id = some n → NodeOk g id n := by
    simp only [forM_eq_ok_iff, checkNode_eq_ok_iff, node?_eq_some_iff, Prod.forall,
      t.nodes_perm.mem_iff]
  have hsink : (t.nodes.any fun p => p.2.isSink) = true ↔ g.sinks ≠ [] := by
    rw [t.nodes_perm.any_eq, sinks, ne_eq, List.map_eq_nil_iff, List.filter_eq_nil_iff]
    simp
  rw [checkParts, bind_eq_ok_iff, hnodes, ← hsink]
  cases g.root with
  | none => simp [ensure_eq_ok_iff]
  | some id => simp [bind_eq_ok_iff, ensure_eq_ok_iff]

/-! ## The count in any order -/

/-- Where no node is listed more often than it has inputs left, the guard changes nothing. -/
theorem foldlM_takeInput? (ts : List Nat) :
    ∀ (state : List Nat × Pending),
      (∀ id k, Table.find? state.2 id = some k → ts.count id ≤ k) →
      ts.foldlM takeInput? state = some (ts.foldl resolveInput state) := by
  induction ts with
  | nil =>
      intro state _
      rfl
  | cons t ts ih =>
      intro state hle
      have htake : takeInput? state t = some (resolveInput state t) := by
        unfold takeInput?
        split
        next hzero =>
          have := hle t 0 hzero
          simp at this
        next => rfl
      have hrest : ∀ id k, Table.find? (resolveInput state t).2 id = some k →
          ts.count id ≤ k := by
        intro id k hk
        unfold resolveInput at hk
        split at hk
        next => exact le_trans (List.count_le_count_cons ..) (hle id k hk)
        next n hn =>
          rw [Table.find?_insert] at hk
          by_cases hid : id = t
          · subst hid
            have := hle id n hn
            rw [List.count_cons_self] at this
            rw [if_pos rfl, Option.some.injEq] at hk
            omega
          · rw [if_neg hid] at hk
            exact le_trans (List.count_le_count_cons ..) (hle id k hk)
      rw [List.foldlM_cons, htake, List.foldl_cons]
      exact ih _ hrest

theorem Progress.of_perm {ready ready' done : List Nat} {pending : Pending}
    (h : Progress g ready pending done) (hr : ready'.Perm ready) :
    Progress g ready' pending done :=
  ⟨h.counts, (hr.append_right done).nodup_iff.mpr h.nodup,
    fun id => (hr.append_right done).mem_iff.trans (h.mem_iff id), h.founded⟩

/-- The count never lowers a count below zero, and it stops with an empty stack unless the steps run
out before. -/
theorem countFrom?_spec (keyed : ∀ id n, g.node? id = some n → n.id = id) {takers : Nat → List Nat}
    (htakers : ∀ id, (takers id).Perm (g.takers id)) (fuel : Nat) :
    ∀ {ready done : List Nat} {pending : Pending}, Progress g ready pending done →
      ∃ n ready' pending' done', countFrom? takers fuel ready pending = some n ∧
        Progress g ready' pending' done' ∧ done'.length = done.length + n ∧
        (ready' = [] ∨ n = fuel) := by
  induction fuel with
  | zero =>
      intro ready done pending h
      exact ⟨0, ready, pending, done, rfl, h, rfl, Or.inr rfl⟩
  | succ fuel ih =>
      intro ready done pending h
      cases ready with
      | nil => exact ⟨0, [], pending, done, rfl, h, rfl, Or.inl rfl⟩
      | cons id ready =>
          have hfold := foldlM_takeInput? (takers id) (ready, pending) fun v k hk =>
            (htakers id).count_eq v ▸ h.count_le keyed hk
          obtain ⟨n, ready', pending', done', hn, hp, hlen, hend⟩ :=
            ih (progress_step keyed (htakers id) h)
          refine ⟨n + 1, ready', pending', done', ?_, hp, ?_, ?_⟩
          · simp [countFrom?, hfold, hn]
          · rw [hlen, List.length_cons]
            omega
          · exact hend.imp_right fun heq => by rw [heq]

/-- In the order of the keys it is the count of `Graph.validate`. -/
theorem countFrom?_takers (keyed : ∀ id n, g.node? id = some n → n.id = id) (fuel : Nat) :
    ∀ {ready done : List Nat} {pending : Pending}, Progress g ready pending done →
      countFrom? g.takers fuel ready pending = some (g.countResolved fuel ready pending) := by
  induction fuel with
  | zero =>
      intro ready done pending _
      rfl
  | succ fuel ih =>
      intro ready done pending h
      cases ready with
      | nil => rfl
      | cons id ready =>
          have hfold := foldlM_takeInput? (g.takers id) (ready, pending) fun v k hk =>
            h.count_le keyed hk
          have hrest := ih (progress_step keyed (.refl _) h)
          simp [countFrom?, hfold, hrest, countResolved]

/-- The count of a traversal finds every cycle and nothing else. -/
theorem Traversal.exists_count (t : Traversal g)
    (hnodes : ∀ id n, g.node? id = some n → NodeOk g id n) {steps : Nat}
    (hsteps : g.nodes.length < steps) :
    ∃ n, countFrom? t.takers steps t.ready g.pendingAtStart = some n ∧
      (n = g.nodes.length ↔ g.Acyclic) := by
  have keyed : ∀ id n, g.node? id = some n → n.id = id := fun id n hn => (hnodes id n hn).keyed
  obtain ⟨n, ready, pending, done, hn, hp, hlen, hend⟩ :=
    countFrom?_spec keyed t.takers_perm steps ((progress_start keyed).of_perm t.ready_perm)
  rw [List.length_nil, Nat.zero_add] at hlen
  have hle := hp.length_le
  obtain rfl : ready = [] := hend.resolve_right (by omega)
  exact ⟨n, hn, hlen ▸ hp.full_iff fun id m hm => (hnodes id m hm).sources⟩

/-- Every traversal comes to a verdict, and accepts the graphs that `validate` accepts. -/
theorem Traversal.verdict?_spec (t : Traversal g) {steps : Nat} (hsteps : g.nodes.length < steps) :
    ∃ v, t.verdict? steps = some v ∧ (v = .ok () ↔ g.validate = .ok ()) := by
  rw [validate_eq_ok_iff]
  cases hparts : t.checkParts with
  | error problem =>
      refine ⟨.error problem, by simp [verdict?, hparts], fun h => absurd h (by simp), fun h => ?_⟩
      rw [t.checkParts_eq_ok_iff.mpr ⟨h.nodes, h.root, h.sink⟩] at hparts
      cases hparts
  | ok =>
      obtain ⟨hnodes, hroot, hsink⟩ := t.checkParts_eq_ok_iff.mp hparts
      obtain ⟨n, hn, hfull⟩ := t.exists_count hnodes hsteps
      refine ⟨ensure (n == g.nodes.length) .cycle, by simp [verdict?, hparts, hn], ?_⟩
      rw [ensure_eq_ok_iff, beq_iff_eq, hfull, ← resolvesAll_iff
        (fun id n hn => (hnodes id n hn).keyed) fun id n hn => (hnodes id n hn).sources]
      exact ⟨fun hres => ⟨hnodes, hroot, hsink, hres⟩, Accepted.resolved⟩

/-- In the order of the keys the verdict is the one of `Graph.validate`, with its reason. -/
theorem Traversal.verdict?_inOrder (g : Graph) :
    (inOrder g).verdict? (g.nodes.length + 1) = some g.validate := by
  have hsink : (g.nodes.any fun p => p.2.isSink) = !g.sinks.isEmpty := by
    rw [Bool.eq_iff_iff]
    simp [sinks]
  have hparts : g.validate = ((inOrder g).checkParts >>= fun _ =>
      ensure (g.resolvesAll g.readyAtStart) .cycle) := by
    simp only [validate, checkParts, inOrder, hsink, bind_assoc]
    cases g.root with
    | none => rfl
    | some id => simp only [bind_assoc]
  cases hok : (inOrder g).checkParts with
  | error problem => rw [hparts, hok, verdict?, hok]; rfl
  | ok =>
      have hnodes := ((inOrder g).checkParts_eq_ok_iff.mp hok).1
      have keyed : ∀ id n, g.node? id = some n → n.id = id := fun id n hn => (hnodes id n hn).keyed
      have hcount := countFrom?_takers keyed (g.nodes.length + 1) (progress_start keyed)
      rw [hparts, hok, verdict?, hok]
      show (countFrom? g.takers (g.nodes.length + 1) g.readyAtStart g.pendingAtStart >>= _) = _
      rw [hcount]
      rfl

/-- **The check accepts the graphs that can be run and no others, in whatever order it goes through
them, and no count is ever lowered below zero.** -/
theorem validate_eq_ok_iff_runnable (g : Graph) :
    (g.validate = .ok () ↔ g.Runnable) ∧
      (Traversal.inOrder g).verdict? (g.nodes.length + 1) = some g.validate ∧
      ∀ (t : Traversal g) (steps : Nat), g.nodes.length < steps →
        ∃ v, t.verdict? steps = some v ∧ (v = .ok () ↔ g.validate = .ok ()) :=
  ⟨validate_eq_ok_iff.trans accepted_iff_runnable, Traversal.verdict?_inOrder g,
    fun t _ hsteps => t.verdict?_spec hsteps⟩

/-- A constant that feeds both arguments of a call. -/
def twoInputs : Graph :=
  let g := (Graph.empty.add { id := 1, payload := .constant .string (.string "a") }).add
    { id := 2, payload := .call "join" ⟨[.string, .string], .string, .free⟩ }
  (g.connect 1 2 1 0).connect 1 2 0 1

/-- The nodes of `twoInputs` from the last to the first. -/
def twoInputsBackwards : Traversal twoInputs :=
  ⟨twoInputs.nodes.reverse, List.reverse_perm _, twoInputs.readyAtStart, .refl _⟩

theorem validate_twoInputs :
    twoInputs.nodes.length < 3 ∧ twoInputs.Runnable ∧
      twoInputsBackwards.verdict? 3 = some (.ok ()) := by
  have hok : twoInputs.validate = .ok () := by decide
  obtain ⟨hrun, -, hall⟩ := validate_eq_ok_iff_runnable twoInputs
  obtain ⟨v, hv, hiff⟩ := hall twoInputsBackwards 3 (by decide)
  exact ⟨by decide, hrun.mp hok, by rw [hv, hiff.mpr hok]⟩

end ApiSurface.Graph
