/-
# `ApiSurface.Proofs.Graph.Resolution` — the count of resolved nodes finds every cycle

`Graph.resolvesAll` takes ready nodes from a stack and counts down the inputs of the nodes that take
their values.  `resolvesAll_iff`: it comes to the number of nodes exactly when the graph is acyclic.

The state of the count is described by the list `done` of the nodes taken so far (`Progress`): the
count of a node is the number of its inputs from nodes that are not done, and a node is done or
ready exactly when none is left.  From this, one direction is read off the nodes that are done, each
of which only needs nodes done before it; the other one is an induction along the inputs once the
stack is empty.
-/
import ApiSurface.Proofs.Graph.Accepted
import Mathlib.Data.List.Count
import Mathlib.Order.WellFounded

namespace ApiSurface.Graph

/-- The nodes that the inputs of a node lead to are all in the list. -/
def FedBy (n : Node) (done : List Nat) : Prop :=
  ∀ i ∈ n.inputs, i.source ∈ done

/-- How many inputs of a node come from outside the list. -/
def Node.missing (n : Node) (done : List Nat) : Nat :=
  n.inputs.countP fun i => i.source ∉ done

/-- How many inputs of a node come from the given one. -/
def Node.taking (n : Node) (source : Nat) : Nat :=
  n.inputs.countP fun i => i.source == source

theorem missing_eq_zero_iff {n : Node} {done : List Nat} : n.missing done = 0 ↔ FedBy n done := by
  simp [Node.missing, FedBy, List.countP_eq_zero]

theorem missing_cons {n : Node} {done : List Nat} {id : Nat} (h : id ∉ done) :
    n.missing done = n.missing (id :: done) + n.taking id := by
  unfold Node.missing Node.taking
  induction n.inputs with
  | nil => rfl
  | cons i is ih =>
      simp only [List.countP_cons, ih]
      by_cases hi : i.source = id
      · simp [hi, h]
        omega
      · simp [hi]
        omega

/-! ## Who takes a value -/

section Keyed

variable {g : Graph} (keyed : ∀ id n, g.node? id = some n → n.id = id)

include keyed

theorem find?_pendingAtStart (id : Nat) :
    Table.find? g.pendingAtStart id = (g.node? id).map fun n => n.inputs.length := by
  have heq : g.pendingAtStart = g.nodes.map fun p => (p.1, p.2.inputs.length) := by
    refine List.map_congr_left fun p hp => ?_
    rw [keyed p.1 p.2 (node?_eq_some_iff.mpr hp)]
  rw [heq]
  exact Table.find?_map g.nodes (fun n => n.inputs.length) id

/-- A node takes the value of another one as often as it has inputs from it. -/
theorem count_takers (source id : Nat) :
    (g.takers source).count id = ((g.node? id).map fun n => n.taking source).getD 0 := by
  have hgen : ∀ t : Table Nat Node, Table.Ascending t → (∀ p ∈ t, p.2.id = p.1) →
      (t.flatMap fun p =>
        (p.2.inputs.filter fun i => i.source == source).map fun _ => p.2.id).count id =
      ((Table.find? t id).map fun n => n.taking source).getD 0 := by
    intro t
    induction t with
    | nil =>
        intro _ _
        rfl
    | cons p t ih =>
        obtain ⟨k, n⟩ := p
        intro hasc hkey
        have hn : n.id = k := hkey (k, n) List.mem_cons_self
        have hrest := ih hasc.tail fun p hp => hkey p (List.mem_cons_of_mem _ hp)
        rw [List.flatMap_cons, List.count_append, hrest, List.map_const']
        by_cases hk : id = k
        · subst hk
          have hnone : Table.find? t id = none := by
            rw [Table.find?_eq_none_iff]
            exact (List.nodup_cons.mp (Table.nodup_keys hasc)).1
          rw [Table.find?_cons_self, hnone, hn]
          simp [Node.taking, List.countP_eq_length_filter]
        · rw [Table.find?_cons_of_ne hk, hn, List.count_replicate]
          simp [Ne.symm hk]
  exact hgen g.nodes g.ascending fun p hp => keyed p.1 p.2 (node?_eq_some_iff.mpr hp)

theorem count_eq_taking {id v : Nat} {ts : List Nat} (hts : ts.Perm (g.takers id)) {n : Node}
    (hn : g.node? v = some n) : ts.count v = n.taking id := by
  rw [hts.count_eq, count_takers keyed, hn, Option.map_some, Option.getD_some]

end Keyed

/-! ## Taking inputs as given -/

/-- What taking the inputs of the listed nodes as given makes of the state: their counts are
lowered, and those become ready whose count comes to zero by it. -/
structure Lowered (ts : List Nat) (state state' : List Nat × Pending) : Prop where
  counts : ∀ id, Table.find? state'.2 id = (Table.find? state.2 id).map (· - ts.count id)
  freed : ∃ new : List Nat, state'.1 = new ++ state.1 ∧ new.Nodup ∧
    ∀ id, id ∈ new ↔ id ∈ ts ∧ Table.find? state.2 id = some (ts.count id)

namespace Lowered

variable {t n : Nat} {ts ready : List Nat} {pending : Pending} {state' : List Nat × Pending}

theorem nil (state : List Nat × Pending) : Lowered [] state state :=
  ⟨fun id => by simp, [], rfl, List.nodup_nil, fun id => by simp⟩

/-- An input of no node. -/
theorem cons_absent (ht : Table.find? pending t = none) (h : Lowered ts (ready, pending) state') :
    Lowered (t :: ts) (ready, pending) state' := by
  obtain ⟨hcounts, new, hnew, hnodup, hmem⟩ := h
  refine ⟨fun id => ?_, new, hnew, hnodup, fun id => ?_⟩
  · rw [hcounts]
    by_cases hid : id = t
    · subst hid
      simp [ht]
    · rw [List.count_cons_of_ne (Ne.symm hid)]
  · rw [hmem]
    by_cases hid : id = t
    · subst hid
      simp [ht]
    · rw [List.count_cons_of_ne (Ne.symm hid), List.mem_cons, or_iff_right hid]

/-- Lowering the count of one node first. -/
theorem find?_of_insert (ht : Table.find? pending t = some n) (id : Nat) :
    (Table.find? (Table.insert pending t (n - 1)) id).map (· - ts.count id) =
      (Table.find? pending id).map (· - (t :: ts).count id) := by
  rw [Table.find?_insert]
  by_cases hid : id = t
  · subst hid
    rw [if_pos rfl, ht, Option.map_some, Option.map_some, List.count_cons_self]
    congr 1
    omega
  · rw [if_neg hid, List.count_cons_of_ne (Ne.symm hid)]

/-- An input of a node that still waits for others. -/
theorem cons_waiting (ht : Table.find? pending t = some n) (hn : n - 1 ≠ 0)
    (h : Lowered ts (ready, Table.insert pending t (n - 1)) state') :
    Lowered (t :: ts) (ready, pending) state' := by
  obtain ⟨hcounts, new, hnew, hnodup, hmem⟩ := h
  refine ⟨fun id => (hcounts id).trans (find?_of_insert ht id), new, hnew, hnodup, fun id => ?_⟩
  rw [hmem, Table.find?_insert]
  by_cases hid : id = t
  · subst hid
    rw [if_pos rfl, ht, List.count_cons_self, Option.some.injEq, Option.some.injEq]
    constructor
    · rintro ⟨_, heq⟩
      exact ⟨List.mem_cons_self, by omega⟩
    · rintro ⟨_, heq⟩
      have hpos : 0 < ts.count id := by omega
      exact ⟨List.count_pos_iff.mp hpos, by omega⟩
  · rw [if_neg hid, List.count_cons_of_ne (Ne.symm hid), List.mem_cons, or_iff_right hid]

/-- The last input of a node: it is ready now, and does not occur again. -/
theorem cons_last (ht : Table.find? pending t = some n) (hn : n = 1) (hts : ts.count t = 0)
    (h : Lowered ts (t :: ready, Table.insert pending t (n - 1)) state') :
    Lowered (t :: ts) (ready, pending) state' := by
  obtain ⟨hcounts, new, hnew, hnodup, hmem⟩ := h
  have htnew : t ∉ new := fun hmem' => List.count_eq_zero.mp hts ((hmem t).mp hmem').1
  refine ⟨fun id => (hcounts id).trans (find?_of_insert ht id), new ++ [t], ?_, ?_, fun id => ?_⟩
  · rw [hnew, List.append_assoc, List.singleton_append]
  · exact List.nodup_append.mpr ⟨hnodup, List.pairwise_singleton _ t, fun a ha b hb heq =>
      htnew (List.mem_singleton.mp hb ▸ heq ▸ ha)⟩
  · rw [List.mem_append, hmem, Table.find?_insert, List.mem_singleton]
    by_cases hid : id = t
    · subst hid
      simp [ht, hts, hn]
    · simp [hid, List.count_cons_of_ne (Ne.symm hid)]

end Lowered

/-- Where no count is lowered below zero, this is what taking inputs one after the other does. -/
theorem lowered_foldl (ts : List Nat) : ∀ (ready : List Nat) (pending : Pending),
    (∀ id k, Table.find? pending id = some k → ts.count id ≤ k) →
      Lowered ts (ready, pending) (ts.foldl resolveInput (ready, pending)) := by
  induction ts with
  | nil => exact fun ready pending _ => .nil (ready, pending)
  | cons t ts ih =>
      intro ready pending hle
      rw [List.foldl_cons]
      cases ht : Table.find? pending t with
      | none =>
          have hstep : resolveInput (ready, pending) t = (ready, pending) := by
            simp [resolveInput, ht]
          rw [hstep]
          exact .cons_absent ht (ih ready pending fun id k hk =>
            (List.count_le_count_cons ..).trans (hle id k hk))
      | some n =>
          have hn : ts.count t + 1 ≤ n := by simpa using hle t n ht
          have hle' : ∀ id k, Table.find? (Table.insert pending t (n - 1)) id = some k →
              ts.count id ≤ k := by
            intro id k hk
            rw [Table.find?_insert] at hk
            by_cases hid : id = t
            · subst hid
              rw [if_pos rfl, Option.some.injEq] at hk
              omega
            · rw [if_neg hid] at hk
              exact (List.count_le_count_cons ..).trans (hle id k hk)
          by_cases hz : n - 1 = 0
          · have hstep : resolveInput (ready, pending) t =
                (t :: ready, Table.insert pending t (n - 1)) := by
              simp [resolveInput, ht, hz]
            rw [hstep]
            exact .cons_last ht (by omega) (by omega) (ih _ _ hle')
          · have hstep : resolveInput (ready, pending) t =
                (ready, Table.insert pending t (n - 1)) := by
              simp [resolveInput, ht, hz]
            rw [hstep]
            exact .cons_waiting ht hz (ih _ _ hle')

/-! ## The state of the count -/

/-- The stack and the counts after the nodes in `done` have been taken. -/
structure Progress (g : Graph) (ready : List Nat) (pending : Pending) (done : List Nat) : Prop where
  counts : ∀ id, Table.find? pending id = (g.node? id).map fun n => n.missing done
  nodup : (ready ++ done).Nodup
  mem_iff : ∀ id, id ∈ ready ++ done ↔ ∃ n, g.node? id = some n ∧ FedBy n done
  founded : ∀ id ∈ done, Acc g.Feeds id

theorem Progress.not_done {g : Graph} {id : Nat} {ready done : List Nat} {pending : Pending}
    (h : Progress g (id :: ready) pending done) : id ∉ done := fun hmem =>
  (List.nodup_cons.mp h.nodup).1 (List.mem_append_right _ hmem)

section Keyed

variable {g : Graph} (keyed : ∀ id n, g.node? id = some n → n.id = id)

include keyed

theorem progress_start : Progress g g.readyAtStart g.pendingAtStart [] := by
  have hmissing : ∀ n : Node, n.missing [] = n.inputs.length := fun n => by
    simp [Node.missing]
  have hkeys : Table.keys g.pendingAtStart = Table.keys g.nodes := by
    rw [Table.keys, Table.keys, pendingAtStart, List.map_map]
    exact List.map_congr_left fun p hp => keyed p.1 p.2 (node?_eq_some_iff.mpr hp)
  have hasc : Table.Ascending g.pendingAtStart := by
    have : (Table.keys g.pendingAtStart).Pairwise fun a b => compare a b = .lt :=
      hkeys ▸ List.pairwise_map.mpr g.ascending
    exact List.pairwise_map.mp this
  refine ⟨fun id => ?_, ?_, fun id => ?_, fun id h => absurd h List.not_mem_nil⟩
  · rw [find?_pendingAtStart keyed]
    simp [hmissing]
  · rw [List.append_nil]
    exact (Table.nodup_keys hasc).sublist (List.filter_sublist.map _)
  · rw [List.append_nil, readyAtStart, List.mem_map]
    constructor
    · rintro ⟨⟨id', k⟩, hmem, rfl⟩
      obtain ⟨hmem, hk⟩ := List.mem_filter.mp hmem
      have hfind := (Table.find?_eq_some_iff hasc).mpr hmem
      rw [find?_pendingAtStart keyed, Option.map_eq_some_iff] at hfind
      obtain ⟨n, hn, hlen⟩ := hfind
      refine ⟨n, hn, missing_eq_zero_iff.mp ?_⟩
      rw [hmissing, hlen]
      simpa using hk
    · rintro ⟨n, hn, hfed⟩
      have hzero : n.inputs.length = 0 := hmissing n ▸ missing_eq_zero_iff.mpr hfed
      refine ⟨(id, 0), List.mem_filter.mpr ⟨?_, rfl⟩, rfl⟩
      rw [← Table.find?_eq_some_iff hasc, find?_pendingAtStart keyed, hn, Option.map_some, hzero]

/-- A node on the stack gives no more inputs than the counts still hold, so no count that it lowers
is zero. -/
theorem Progress.count_le {id : Nat} {ready done : List Nat} {pending : Pending}
    (h : Progress g (id :: ready) pending done) {v k : Nat} (hk : Table.find? pending v = some k) :
    (g.takers id).count v ≤ k := by
  rw [h.counts, Option.map_eq_some_iff] at hk
  obtain ⟨n, hn, rfl⟩ := hk
  rw [count_eq_taking keyed (.refl _) hn, missing_cons h.not_done]
  exact Nat.le_add_left ..

/-- A node becomes ready exactly when the one that is taken was the last of its inputs. -/
theorem Progress.freed_iff {id : Nat} {ready done ts : List Nat} {pending : Pending}
    (hts : ts.Perm (g.takers id)) (h : Progress g (id :: ready) pending done) (v : Nat) :
    v ∈ ts ∧ Table.find? pending v = some (ts.count v) ↔
      ∃ n, g.node? v = some n ∧ FedBy n (id :: done) ∧ ¬ FedBy n done := by
  have hmissing : ∀ n : Node, n.missing done = n.missing (id :: done) + n.taking id := fun n =>
    missing_cons h.not_done
  rw [← List.count_pos_iff, h.counts]
  constructor
  · rintro ⟨hpos, heq⟩
    obtain ⟨n, hn, heq⟩ := Option.map_eq_some_iff.mp heq
    rw [count_eq_taking keyed hts hn] at hpos heq
    have hm := hmissing n
    refine ⟨n, hn, missing_eq_zero_iff.mp (by omega), fun hfed => ?_⟩
    have := missing_eq_zero_iff.mpr hfed
    omega
  · rintro ⟨n, hn, hfed, hnot⟩
    have hzero := missing_eq_zero_iff.mpr hfed
    have hpos : n.missing done ≠ 0 := fun hz => hnot (missing_eq_zero_iff.mp hz)
    have hm := hmissing n
    rw [count_eq_taking keyed hts hn, hn, Option.map_some, Option.some.injEq]
    omega

/-- Taking one node from the stack and giving its value to those that take it, in any order. -/
theorem progress_step {id : Nat} {ready done ts : List Nat} {pending : Pending}
    (hts : ts.Perm (g.takers id)) (h : Progress g (id :: ready) pending done) :
    Progress g (ts.foldl resolveInput (ready, pending)).1
      (ts.foldl resolveInput (ready, pending)).2 (id :: done) := by
  obtain ⟨hcounts, new, hnew, hnodup, hmem⟩ := lowered_foldl ts ready pending fun v k hk =>
    hts.count_eq v ▸ h.count_le keyed hk
  have hfresh : ∀ v, v ∈ new ↔ ∃ n, g.node? v = some n ∧ FedBy n (id :: done) ∧
      ¬ FedBy n done := fun v => (hmem v).trans (h.freed_iff keyed hts v)
  refine ⟨fun v => ?_, ?_, fun v => ?_, fun v hv => ?_⟩
  · rw [hcounts, h.counts]
    cases hn : g.node? v with
    | none => rfl
    | some n =>
        rw [Option.map_some, Option.map_some, Option.map_some, count_eq_taking keyed hts hn,
          missing_cons h.not_done, Nat.add_sub_cancel]
  · rw [hnew, List.append_assoc]
    refine List.nodup_append.mpr ⟨hnodup, (List.perm_middle.nodup_iff).mpr h.nodup, ?_⟩
    rintro v hv w hw rfl
    obtain ⟨n, hn, -, hnot⟩ := (hfresh v).mp hv
    obtain ⟨n', hn', hfed⟩ := (h.mem_iff v).mp (List.perm_middle.mem_iff.mp hw)
    rw [hn, Option.some.injEq] at hn'
    exact hnot (hn' ▸ hfed)
  · rw [hnew, List.append_assoc, List.mem_append, hfresh, List.perm_middle.mem_iff]
    constructor
    · rintro (⟨n, hn, hfed, -⟩ | hold)
      · exact ⟨n, hn, hfed⟩
      · obtain ⟨n, hn, hfed⟩ := (h.mem_iff v).mp hold
        exact ⟨n, hn, fun i hi => List.mem_cons_of_mem _ (hfed i hi)⟩
    · rintro ⟨n, hn, hfed⟩
      by_cases hold : FedBy n done
      · exact Or.inr ((h.mem_iff v).mpr ⟨n, hn, hold⟩)
      · exact Or.inl ⟨n, hn, hfed, hold⟩
  · rcases List.mem_cons.mp hv with rfl | hv
    · obtain ⟨n, hn, hfed⟩ := (h.mem_iff v).mp List.mem_cons_self
      refine Acc.intro _ ?_
      rintro a ⟨n', hn', i, hi, rfl⟩
      rw [hn, Option.some.injEq] at hn'
      exact h.founded _ (hfed i (hn' ▸ hi))
    · exact h.founded v hv

/-- What the whole count comes to: the nodes taken, and an empty stack unless the steps ran out. -/
theorem countResolved_spec (fuel : Nat) :
    ∀ {ready done : List Nat} {pending : Pending}, Progress g ready pending done →
      ∃ ready' pending' done', Progress g ready' pending' done' ∧
        done'.length = done.length + g.countResolved fuel ready pending ∧
        (ready' = [] ∨ g.countResolved fuel ready pending = fuel) := by
  induction fuel with
  | zero =>
      intro ready done pending h
      exact ⟨ready, pending, done, h, rfl, Or.inr rfl⟩
  | succ fuel ih =>
      intro ready done pending h
      cases ready with
      | nil => exact ⟨[], pending, done, h, rfl, Or.inl rfl⟩
      | cons id ready =>
          obtain ⟨ready', pending', done', hp, hlen, hend⟩ := ih (progress_step keyed (.refl _) h)
          refine ⟨ready', pending', done', hp, ?_, ?_⟩
          · rw [hlen, countResolved, List.length_cons]
            omega
          · rw [countResolved]
            exact hend.imp_right fun heq => by rw [heq]

end Keyed

/-! ## The verdict -/

theorem Progress.done_subset {g : Graph} {ready done : List Nat} {pending : Pending}
    (h : Progress g ready pending done) : done ⊆ Table.keys g.nodes := fun v hv => by
  obtain ⟨m, hm, -⟩ := (h.mem_iff v).mp (List.mem_append_right _ hv)
  exact hasNode_iff_mem_keys.mp (hasNode_iff.mpr ⟨m, hm⟩)

theorem Progress.nodup_done {g : Graph} {ready done : List Nat} {pending : Pending}
    (h : Progress g ready pending done) : done.Nodup :=
  h.nodup.sublist (List.sublist_append_right _ _)

/-- A node is taken once at most. -/
theorem Progress.length_le {g : Graph} {ready done : List Nat} {pending : Pending}
    (h : Progress g ready pending done) : done.length ≤ g.nodes.length := by
  simpa [Table.keys] using (List.subperm_of_subset h.nodup_done h.done_subset).length_le

/-- A count that comes to the number of nodes means that every node was taken. -/
theorem mem_of_full {g : Graph} {ready done : List Nat} {pending : Pending}
    (h : Progress g ready pending done) (hlen : done.length = g.nodes.length) {id : Nat} {n : Node}
    (hn : g.node? id = some n) : id ∈ done := by
  have hsub := List.subperm_of_subset h.nodup_done h.done_subset
  have hperm := hsub.perm_of_length_le (by simp [Table.keys, hlen])
  exact hperm.mem_iff.mpr (hasNode_iff_mem_keys.mp (hasNode_iff.mpr ⟨n, hn⟩))

/-- **With an empty stack every node was taken exactly when no node needs its own value.** -/
theorem Progress.full_iff {g : Graph} {done : List Nat} {pending : Pending}
    (h : Progress g [] pending done)
    (sources : ∀ id n, g.node? id = some n → ∀ i ∈ n.inputs, g.hasNode i.source = true) :
    done.length = g.nodes.length ↔ g.Acyclic := by
  constructor
  · intro hfull
    refine ⟨fun id => ?_⟩
    cases hn : g.node? id with
    | none =>
        refine Acc.intro _ ?_
        rintro a ⟨n, hn', -⟩
        rw [hn] at hn'
        cases hn'
    | some n => exact h.founded id (mem_of_full h hfull hn)
  · intro hac
    -- With an empty stack every node whose sources are done is done itself.
    have hall : ∀ id n, g.node? id = some n → id ∈ done := by
      intro id
      induction id using hac.induction with
      | _ id ih =>
          intro n hn
          refine (h.mem_iff id).mpr ⟨n, hn, fun i hi => ?_⟩
          obtain ⟨m, hm⟩ := hasNode_iff.mp (sources id n hn i hi)
          exact ih i.source ⟨n, hn, i, hi, rfl⟩ m hm
    have hsup : Table.keys g.nodes ⊆ done := fun v hv => by
      obtain ⟨m, hm⟩ := hasNode_iff.mp (hasNode_iff_mem_keys.mpr hv)
      exact hall v m hm
    have hge := (List.subperm_of_subset (Table.nodup_keys g.ascending) hsup).length_le
    rw [Table.keys, List.length_map] at hge
    exact le_antisymm h.length_le hge

/-- **The count finds every cycle and nothing else.** -/
theorem resolvesAll_iff {g : Graph} (keyed : ∀ id n, g.node? id = some n → n.id = id)
    (sources : ∀ id n, g.node? id = some n → ∀ i ∈ n.inputs, g.hasNode i.source = true) :
    g.resolvesAll g.readyAtStart = true ↔ g.Acyclic := by
  obtain ⟨ready, pending, done, hp, hlen, hend⟩ :=
    countResolved_spec keyed (g.nodes.length + 1) (progress_start keyed)
  rw [List.length_nil, Nat.zero_add] at hlen
  have hle := hp.length_le
  obtain rfl : ready = [] := hend.resolve_right (by omega)
  rw [resolvesAll, beq_iff_eq, ← hlen, hp.full_iff sources]

theorem Accepted.acyclic {g : Graph} (h : g.Accepted) : g.Acyclic :=
  (resolvesAll_iff (fun id n hn => (h.nodes id n hn).keyed)
    fun id n hn => (h.nodes id n hn).sources).mp h.resolved

end ApiSurface.Graph
