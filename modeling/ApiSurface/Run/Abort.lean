import ApiSurface.Live.Heap
import ApiSurface.Plan.Check
import ApiSurface.Plan.Schedule
import ApiSurface.Run.ByteSource

/-!
Why a run stopped before its end: the library threw, or the plan does not fit what it is run
against.
-/

namespace ApiSurface.Run

open Live

/-- In what a plan does not fit. -/
inductive Violation where
  | refused (problem : Graph.Problem)
  | unscheduled (error : Graph.ScheduleError)
  | noEndpoint (name : String)
  | notCallable (name : String)
  | noReceiver (name : String)
  | inputMissing (node source : Nat)
  | noPort (node port : Nat)
  | neverEvaluated (nodes : List Nat)
  | duplicateCall (id : Nat)
  | outputMissing (call source : Nat)
  | argumentMissing (call : Nat) (name : String) (position : Nat)
  | noInstance (error : ByteSource.NoInstance)
  deriving Repr, DecidableEq

/-- The wording of a violation. -/
def Violation.message : Violation → String
  | refused problem => problem.message
  | unscheduled (.noNode id) => "node " ++ toString id ++ " does not exist"
  | unscheduled .unfinished => Graph.Problem.cycle.message
  | noEndpoint name => "no endpoint named " ++ name
  | notCallable name => "endpoint " ++ name ++ " is bound to a non-callable value"
  | noReceiver name => "method " ++ name ++ " invoked without a receiver"
  | inputMissing node source =>
    "node " ++ toString node ++ " evaluated before its input " ++ toString source
  | noPort node port => "node " ++ toString node ++ " has no port " ++ toString port
  | neverEvaluated nodes => "nodes " ++ Graph.listed nodes ++ " were never evaluated"
  | duplicateCall id => "duplicate call id " ++ toString id
  | outputMissing call source =>
    "call " ++ toString call ++ " uses the output of call " ++ toString source ++ " before it ran"
  | argumentMissing call name position =>
    "call " ++ toString call ++ " (" ++ name ++ ") has no value for argument " ++ toString position
  | noInstance error => error.message

/-- Why a run stopped. -/
inductive Abort where
  | thrown (value : Value)
  | violation (violation : Violation)
  deriving DecidableEq

/-- The wording of why a run stopped, given the heap that a thrown value lives on. -/
def Abort.message {β : Type} (h : Heap β) : Abort → String
  | thrown value => "uncaught " ++ h.reportOf value
  | violation v => v.message

end ApiSurface.Run
