/-
# `ApiSurface.Proofs.Run.Delivered` — what a sequence delivered fits its schema

`CallSequence.conforms` and the run of a sequence go through the calls side by side.  The check
keeps the numbers of the calls it has seen, the run a table of their results; the check looks at the
name, the arguments and the number of a call in this order, the run at the number first and at the
arguments only once the endpoint is found.  `Precheck` is about what the check lets pass.  Here it
is shown that it stops nothing that a run could do.

**Main result** (`conforms_of_verdict`): against endpoints with the names of a schema, the calls
that a run got to before it ended in a verdict pass the check, the one that threw among them.  So a
sequence whose run passes is one that the check accepts, whatever the library does.

The two sides are tied by `Holds`: the numbers seen are those that have a result.
-/
import ApiSurface.Proofs.Run.Accounts
import ApiSurface.Proofs.Run.Precheck
import ApiSurface.Proofs.Run.Recursive
import ApiSurface.Run.Worker

namespace ApiSurface

/-- A sequence without the calls from a position on. -/
def CallSequence.upTo (s : CallSequence) (k : Nat) : CallSequence :=
  { s with calls := s.calls.take k }

namespace Run

open Live

variable {β σ : Type}

/-! ## Verdicts -/

/-- No verdict on something thrown is that every call completed. -/
def Oracle.NeverPasses (oracle : Oracle β) : Prop :=
  ∀ h v, oracle h v ≠ .pass

theorem Oracle.neverPasses_ofPredicate (expected : Heap β → Value → Bool) :
    (Oracle.ofPredicate expected).NeverPasses := by
  intro h v
  rw [ofPredicate]
  split <;> simp

section Call

variable {results : Table Nat Value} {c : CallSequence.Call} {source' : ByteSource}
  {args : List CallSequence.Arg} {w' : World β σ}

/-- Arguments that have values are there. -/
theorem given_of_arguments :
    ∀ {position : Nat} {source : ByteSource} {vs : List Value} {w : World β σ},
      arguments results c position source args w = (.ok (vs, source'), w') →
        Given results args := by
  induction args with
  | nil => exact fun _ => ⟨List.not_mem_nil, fun _ => nofun⟩
  | cons arg args ih =>
      intro position source vs w h
      obtain ⟨v, us, s, w₁, hr, hrs, -⟩ := arguments_cons_ok h
      obtain ⟨hmissing, houtput⟩ := ih hrs
      cases argued_of_argument hr with
      | @output j v found =>
          refine ⟨by simpa using hmissing, fun i hi => ?_⟩
          rcases List.mem_cons.mp hi with hij | hi
          · cases hij
            rw [Table.has, found]
            rfl
          · exact houtput i hi
      | constant _ _ => exact ⟨by simpa using hmissing, fun i hi => houtput i (by simpa using hi)⟩

end Call

/-- A call that is ready passes the check. -/
theorem Ready.fits {endpoints : Endpoints} {schema : Schema} {seen : List Nat} {p : Progress}
    {c : CallSequence.Call} {d : Prepared} {w w' : World β σ}
    (hr : Ready endpoints p c d w w') (hseen : Holds p.results seen)
    (names : ∀ name, Table.has endpoints name = schema.has name) : c.Fits schema seen := by
  obtain ⟨hmissing, houtput⟩ := given_of_arguments hr.args
  refine ⟨?_, fun hmem => ?_, hmissing, fun j hj => (hseen j).mp (houtput j hj)⟩
  · rw [← names, Table.has, hr.target]
    rfl
  · have htaken := (hseen c.id).mpr hmem
    rw [hr.fresh] at htaken
    cases htaken

/-! ## The whole run -/

/-- **The calls that a run delivered pass the check.** -/
theorem Executes.conforms {lib : Library β σ} {endpoints : Endpoints} {schema : Schema}
    (names : ∀ name, Table.has endpoints name = schema.has name) {calls : List CallSequence.Call}
    {p p' : Progress} {w w' : World β σ} {journal : List Delivery} {o : Except Abort Unit}
    (h : Executes lib endpoints calls p w journal p' o w') :
    ∀ seen, Holds p.results seen →
      CallSequence.conformsCalls schema seen (calls.take journal.length) = .ok () := by
  induction h with
  | done p w => exact fun _ _ => rfl
  | refused rest _ => exact fun _ _ => rfl
  | threw rest ready _ =>
      intro seen hseen
      exact CallSequence.conformsCalls_cons_iff.mpr
        ⟨(ready_of_prepare ready).fits hseen names, rfl⟩
  | @completed c rest p p' w w₁ w₂ w' d v journal o ready _ _ ih =>
      intro seen hseen
      exact CallSequence.conformsCalls_cons_iff.mpr
        ⟨(ready_of_prepare ready).fits hseen names, ih _ (holds_insert hseen c.id v)⟩

end Run

end ApiSurface
