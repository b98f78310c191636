/-
# `ApiSurface.Proofs.Run.Journal` — which calls of a sequence reach the library, and with what

A call of a sequence first gets ready: its number must be new, its endpoint bound to something that
can be invoked, its arguments there, a receiver among them if it is a method (`prepare`).  The
library has no part in this, and does not show in the definition.  Then the endpoint is invoked with
what was prepared (`deliver`), and this is all that reaches the library.  `runCall_eq` takes a call
apart in this way.

`Executes` is a run with a journal of its deliveries: a rule for each way in which a call can end.
Every run has one (`exists_executes`), so what is shown along these rules holds of all runs.
-/
import ApiSurface.Run.SequenceRun
import ApiSurface.Proofs.Lookup
import ApiSurface.Proofs.Run.Dispatch

namespace ApiSurface.Run

open Live

variable {β σ : Type}

/-- A call that is ready to be delivered. -/
structure Prepared where
  /-- The live value of its endpoint. -/
  target : Value
  args : List Value
  /-- What reaches the live value. -/
  invocation : Invocation
  /-- The bytes for the constants to come. -/
  source : ByteSource

/-- Gets a call ready, or says why it cannot be made. -/
def prepare (endpoints : Endpoints) (p : Progress) (c : CallSequence.Call) :
    Action β σ Abort Prepared := do
  if Table.has p.results c.id then violate (.duplicateCall c.id)
  else
    let f ← endpoint endpoints c.name
    let (args, source) ← arguments p.results c 0 p.source c.args
    if (← Action.heap).isCallable f then
      match invocation? c.convention args with
      | some i => return ⟨f, args, i, source⟩
      | none => violate (.noReceiver c.name)
    else violate (.notCallable c.name)

/-- How far a sequence has come when one more call has completed. -/
def Progress.after (p : Progress) (c : CallSequence.Call) (d : Prepared) (v : Value) : Progress :=
  ⟨p.executed + 1, Table.insert p.results c.id v, d.source⟩

/-- A call that was delivered, and the settled value or the thrown one that it came to. -/
structure Delivery where
  call : CallSequence.Call
  prepared : Prepared
  outcome : Except Value Value

/-- A run of calls with the journal of its deliveries, the first one first. -/
inductive Executes (lib : Library β σ) (endpoints : Endpoints) :
    List CallSequence.Call → Progress → World β σ → List Delivery → Progress →
      Except Abort Unit → World β σ → Prop
  | done (p : Progress) (w : World β σ) : Executes lib endpoints [] p w [] p (.ok ()) w
  | refused {c : CallSequence.Call} (rest : List CallSequence.Call) {p : Progress}
      {w w' : World β σ} {v : Violation}
      (refused : prepare endpoints p c w = (.error (.violation v), w')) :
      Executes lib endpoints (c :: rest) p w [] p (.error (.violation v)) w'
  | threw {c : CallSequence.Call} (rest : List CallSequence.Call) {p : Progress}
      {w w₁ w' : World β σ} {d : Prepared} {v : Value}
      (ready : prepare endpoints p c w = (.ok d, w₁))
      (threw : deliver lib d.target d.invocation w₁ = (.error v, w')) :
      Executes lib endpoints (c :: rest) p w [⟨c, d, .error v⟩] p (.error (.thrown v)) w'
  | completed {c : CallSequence.Call} {rest : List CallSequence.Call} {p p' : Progress}
      {w w₁ w₂ w' : World β σ} {d : Prepared} {v : Value} {journal : List Delivery}
      {o : Except Abort Unit}
      (ready : prepare endpoints p c w = (.ok d, w₁))
      (settled : deliver lib d.target d.invocation w₁ = (.ok v, w₂))
      (later : Executes lib endpoints rest (p.after c d v) w₂ journal p' o w') :
      Executes lib endpoints (c :: rest) p w (⟨c, d, .ok v⟩ :: journal) p' o w'

/-! ## A call, taken apart -/

/-- **A call is prepared without the library and then delivered.** -/
theorem runCall_eq (lib : Library β σ) (endpoints : Endpoints) (p : Progress)
    (c : CallSequence.Call) :
    runCall lib endpoints p c = prepare endpoints p c >>= fun d =>
      (deliver lib d.target d.invocation).mapError .thrown >>= fun v =>
        pure (p.after c d v) := by
  unfold runCall prepare
  split
  · rfl
  · simp only [bind_assoc]
    refine congrArg _ (funext fun f => congrArg _ (funext fun r => ?_))
    funext w
    rw [action_bind_eq, invoke_eq, action_bind_eq]
    simp only [Action.heap]
    by_cases hf : w.heap.isCallable f = true
    · rw [if_pos hf, if_pos hf]
      cases invocation? c.convention r.1 with
      | none => rfl
      | some i =>
          simp only [action_bind_eq]
          rfl
    · rw [if_neg hf, if_neg hf]
      rfl

/-! ## A call that is ready -/

/-- The values that stand for arguments: one for each, and the result of a call where that is asked
for. -/
structure Handed (results : Table Nat Value) (args : List CallSequence.Arg) (vs : List Value) :
    Prop where
  length : vs.length = args.length
  output : ∀ q j : Nat, args[q]? = some (.output j) →
    ∃ v, Table.find? results j = some v ∧ vs[q]? = some v

/-- What it takes to get a call ready. -/
structure Ready (endpoints : Endpoints) (p : Progress) (c : CallSequence.Call) (d : Prepared)
    (w w' : World β σ) : Prop where
  fresh : Table.has p.results c.id = false
  target : Table.find? endpoints c.name = some d.target
  args : arguments p.results c 0 p.source c.args w = (.ok (d.args, d.source), w')
  invocation : invocation? c.convention d.args = some d.invocation

/-- What keeps a call from getting ready, and the contract that it violates. -/
inductive Unready (endpoints : Endpoints) (p : Progress) (c : CallSequence.Call)
    (w w' : World β σ) : Violation → Prop
  | duplicate (taken : Table.has p.results c.id = true) :
      Unready endpoints p c w w' (.duplicateCall c.id)
  | unbound (unbound : Table.find? endpoints c.name = none) :
      Unready endpoints p c w w' (.noEndpoint c.name)
  | argument {v : Violation}
      (refused : arguments p.results c 0 p.source c.args w = (.error (.violation v), w')) :
      Unready endpoints p c w w' v
  | notCallable {f : Value} {vs : List Value} {source : ByteSource}
      (target : Table.find? endpoints c.name = some f)
      (args : arguments p.results c 0 p.source c.args w = (.ok (vs, source), w'))
      (dead : w'.heap.isCallable f = false) : Unready endpoints p c w w' (.notCallable c.name)
  | noReceiver {vs : List Value} {source : ByteSource}
      (args : arguments p.results c 0 p.source c.args w = (.ok (vs, source), w'))
      (none : invocation? c.convention vs = none) : Unready endpoints p c w w' (.noReceiver c.name)

/-- What an argument of a call comes to: a value and the bytes after it, or the contract that it
violates. -/
inductive Argued (results : Table Nat Value) (c : CallSequence.Call) (position : Nat)
    (source : ByteSource) : CallSequence.Arg → Except Abort (Value × ByteSource) → Prop
  | output {j : Nat} {v : Value} (found : Table.find? results j = some v) :
      Argued results c position source (.output j) (.ok (v, source))
  | noOutput {j : Nat} (absent : Table.find? results j = none) :
      Argued results c position source (.output j) (.error (.violation (.outputMissing c.id j)))
  | constant {t : ValueType} {a : Constant} {source' : ByteSource} (v : Value)
      (read : source.constant t = (.ok a, source')) :
      Argued results c position source (.constant t) (.ok (v, source'))
  | noConstant {t : ValueType} {e : ByteSource.NoInstance} {source' : ByteSource}
      (refused : source.constant t = (.error e, source')) :
      Argued results c position source (.constant t) (.error (.violation (.noInstance e)))
  | missing : Argued results c position source .missing
      (.error (.violation (.argumentMissing c.id c.name position)))

section Preparing

variable {results : Table Nat Value} {c : CallSequence.Call} {position : Nat}
  {source source' : ByteSource} {arg : CallSequence.Arg} {args : List CallSequence.Arg}
  {w w' : World β σ}

theorem argued_of_argument {r : Except Abort (Value × ByteSource)}
    (h : argument results c position source arg w = (r, w')) :
    Argued results c position source arg r := by
  cases arg with
  | output j =>
      rw [argument] at h
      cases hf : Table.find? results j with
      | some v =>
          rw [hf] at h
          cases h
          exact .output hf
      | none =>
          rw [hf] at h
          cases h
          exact .noOutput hf
  | constant t =>
      rw [argument] at h
      rcases hc : source.constant t with ⟨e | a, s⟩
      · rw [hc] at h
        cases h
        exact .noConstant hc
      · rw [hc] at h
        cases h
        exact .constant _ hc
  | missing =>
      cases h
      exact .missing

theorem arguments_cons_ok {vs : List Value}
    (h : arguments results c position source (arg :: args) w = (.ok (vs, source'), w')) :
    ∃ v us s w₁, argument results c position source arg w = (.ok (v, s), w₁) ∧
      arguments results c (position + 1) s args w₁ = (.ok (us, source'), w') ∧ vs = v :: us := by
  rw [arguments, action_bind_eq] at h
  split at h
  next r w₁ hr =>
    simp only [action_bind_eq] at h
    split at h
    next rs w₂ hrs =>
      cases h
      exact ⟨r.1, rs.1, r.2, w₁, hr, hrs, rfl⟩
    next => cases h
  next => cases h

theorem arguments_cons_error {a : Abort}
    (h : arguments results c position source (arg :: args) w = (.error a, w')) :
    argument results c position source arg w = (.error a, w') ∨
      ∃ v s w₁, argument results c position source arg w = (.ok (v, s), w₁) ∧
        arguments results c (position + 1) s args w₁ = (.error a, w') := by
  rw [arguments, action_bind_eq] at h
  split at h
  next r w₁ hr =>
    simp only [action_bind_eq] at h
    split at h
    next => cases h
    next hrs =>
      cases h
      exact .inr ⟨r.1, r.2, w₁, hr, hrs⟩
  next hr =>
    cases h
    exact .inl hr

theorem violation_of_arguments {a : Abort} :
    ∀ {position : Nat} {source : ByteSource} {w : World β σ},
      arguments results c position source args w = (.error a, w') → ∃ v, a = .violation v := by
  induction args with
  | nil =>
      intro position source w h
      cases h
  | cons arg args ih =>
      intro position source w h
      rcases arguments_cons_error h with h | ⟨v, s, w₁, -, h⟩
      · cases argued_of_argument h with
        | noOutput _ | noConstant _ | missing => exact ⟨_, rfl⟩
      · exact ih h

theorem handed_of_arguments :
    ∀ {position : Nat} {source : ByteSource} {w : World β σ} {vs : List Value},
      arguments results c position source args w = (.ok (vs, source'), w') →
        Handed results args vs := by
  induction args with
  | nil =>
      intro position source w vs h
      cases h
      exact ⟨rfl, fun q j hq => by cases hq⟩
  | cons arg args ih =>
      intro position source w vs h
      obtain ⟨v, us, s, w₁, hr, hrs, rfl⟩ := arguments_cons_ok h
      obtain ⟨hlen, hout⟩ := ih hrs
      refine ⟨by simp [hlen], fun q j hq => ?_⟩
      cases q with
      | zero =>
          cases hq
          cases argued_of_argument hr with
          | output found => exact ⟨v, found, rfl⟩
      | succ q => exact hout q j hq

end Preparing

/-- **How a call is prepared**: it has what it takes, or it violates a contract. -/
theorem prepare_cases {endpoints : Endpoints} {p : Progress} {c : CallSequence.Call}
    {r : Except Abort Prepared} {w w' : World β σ} (h : prepare endpoints p c w = (r, w')) :
    (∃ d, r = .ok d ∧ Ready endpoints p c d w w') ∨
      ∃ v, r = .error (.violation v) ∧ Unready endpoints p c w w' v := by
  rw [prepare] at h
  split at h
  next htaken =>
    cases h
    exact .inr ⟨_, rfl, .duplicate htaken⟩
  next hfresh =>
    rw [Bool.not_eq_true] at hfresh
    cases htarget : Table.find? endpoints c.name with
    | none =>
        rw [action_bind_eq, endpoint, htarget] at h
        cases h
        exact .inr ⟨_, rfl, .unbound htarget⟩
    | some f =>
        have hf : (endpoint endpoints c.name : Action β σ Abort Value) = pure f := by
          rw [endpoint, htarget]
        rw [hf, pure_bind, action_bind_eq] at h
        split at h
        next q w₁ hq =>
          obtain ⟨vs, source⟩ := q
          simp only [action_bind_eq, Action.heap] at h
          split at h
          · cases hi : invocation? c.convention vs with
            | none =>
                rw [hi] at h
                cases h
                exact .inr ⟨_, rfl, .noReceiver hq hi⟩
            | some i =>
                rw [hi] at h
                cases h
                exact .inl ⟨_, rfl, hfresh, htarget, hq, hi⟩
          next hdead =>
            cases h
            exact .inr ⟨_, rfl, .notCallable htarget hq (by simpa using hdead)⟩
        next a w₁ hq =>
          obtain ⟨v, rfl⟩ := violation_of_arguments hq
          cases h
          exact .inr ⟨v, rfl, .argument hq⟩

theorem ready_of_prepare {endpoints : Endpoints} {p : Progress} {c : CallSequence.Call}
    {d : Prepared} {w w' : World β σ} (h : prepare endpoints p c w = (.ok d, w')) :
    Ready endpoints p c d w w' := by
  obtain ⟨d', hd, hready⟩ | ⟨v, hv, -⟩ := prepare_cases h
  · cases hd
    exact hready
  · cases hv

theorem runCalls_cons (lib : Library β σ) (endpoints : Endpoints) (c : CallSequence.Call)
    (rest : List CallSequence.Call) (p : Progress) (w : World β σ) :
    runCalls lib endpoints (c :: rest) p w =
      match runCall lib endpoints p c w with
      | (.ok p', w') => runCalls lib endpoints rest p' w'
      | (.error a, w') => ((p, .error a), w') := by
  rw [runCalls]
  simp only [ExceptT.run, Bind.bind, StateT.bind]
  rcases runCall lib endpoints p c w with ⟨a | p', w'⟩ <;> rfl

theorem exists_executes (lib : Library β σ) (endpoints : Endpoints)
    (calls : List CallSequence.Call) :
    ∀ (p p' : Progress) (o : Except Abort Unit) (w w' : World β σ),
      runCalls lib endpoints calls p w = ((p', o), w') →
        ∃ journal, Executes lib endpoints calls p w journal p' o w' := by
  induction calls with
  | nil =>
      intro p p' o w w' h
      cases h
      exact ⟨[], .done p w⟩
  | cons c calls ih =>
      intro p p' o w w' h
      rw [runCalls_cons, runCall_eq, action_bind_eq] at h
      rcases hprep : prepare endpoints p c w with ⟨r, w₁⟩
      rw [hprep] at h
      obtain ⟨d, rfl, -⟩ | ⟨v, rfl, -⟩ := prepare_cases hprep
      · simp only [action_bind_eq, mapError_eq] at h
        rcases hrun : deliver lib d.target d.invocation w₁ with ⟨e | v, w₂⟩
        · rw [hrun] at h
          cases h
          exact ⟨_, .threw calls hprep hrun⟩
        · rw [hrun] at h
          obtain ⟨journal, hj⟩ := ih _ _ _ _ _ h
          exact ⟨_, .completed hprep hrun hj⟩
      · cases h
        exact ⟨_, .refused calls hprep⟩

end ApiSurface.Run
