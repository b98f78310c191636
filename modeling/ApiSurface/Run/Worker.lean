import ApiSurface.Reflect.Loading
import ApiSurface.Run.GraphRun
import ApiSurface.Run.Oracle
import ApiSurface.Run.SequenceRun

/-!
A worker runs one plan after the other against a module that was loaded once, and judges how each
run ended. What the library throws is judged by the oracle; a plan that does not fit is refused.
-/

namespace ApiSurface.Run

open Live Reflect

variable {β σ : Type}

/-- The verdict on how a run ended. -/
def judge (oracle : Oracle β) (h : Heap β) : Except Abort Unit → Except Violation Verdict
  | .ok _ => .ok .pass
  | .error (.thrown v) => .ok (oracle h v)
  | .error (.violation v) => .error v

/-- A loaded module with the settings and the oracle to run plans under. -/
structure Worker (β : Type) where
  loaded : Loaded
  settings : Settings
  oracle : Oracle (Code β)

namespace Worker

/-- Runs a graph, unless it is one that cannot be run. -/
def runGraph (w : Worker β) (lib : Library β σ) (g : Graph) :
    StateM (World β σ) (Except Violation Verdict) := do
  match g.validate with
  | .error p => return .error (.refused p)
  | .ok _ =>
    let outcome ← (Run.runGraph lib w.loaded.endpoints g w.settings.heavyAssertions).run
    return judge w.oracle (← get).heap outcome

/-- Runs a sequence: how many of its calls completed, and the verdict. -/
def runSequence (w : Worker β) (lib : Library β σ) (s : CallSequence) :
    StateM (World β σ) (Nat × Except Violation Verdict) := do
  let (p, outcome) ← Run.runSequence lib w.loaded.endpoints w.settings s
  return (p.executed, judge w.oracle (← get).heap outcome)

end Worker

end ApiSurface.Run
