import ApiSurface.Live.Call
import ApiSurface.Run.Abort
import ApiSurface.Schema.Basic

/-!
Invoking an endpoint by its convention. A method takes its receiver from its first argument. The
result is waited for.
-/

namespace ApiSurface.Run

open Live

variable {β σ : Type}

/-- Stops because the plan does not fit. -/
def violate {α : Type} (v : Violation) : Action β σ Abort α :=
  throw (.violation v)

/-- The live value that an entry is bound to. -/
def endpoint (endpoints : Endpoints) (name : String) : Action β σ Abort Value :=
  match Table.find? endpoints name with
  | some f => return f
  | none => violate (.noEndpoint name)

/-- Calls or constructs an endpoint, as its convention says. -/
def dispatch (lib : Library β σ) (name : String) (f : Value) (convention : Convention)
    (args : List Value) : Action β σ Abort Value :=
  match convention, args with
  | .free, args => (call lib f .undefined args).mapError .thrown
  | .constructor, args => (construct lib f args).mapError .thrown
  | .method, receiver :: args => (call lib f receiver args).mapError .thrown
  | .method, [] => violate (.noReceiver name)

/-- Invokes an endpoint and waits for its result. -/
def invoke (lib : Library β σ) (name : String) (f : Value) (convention : Convention)
    (args : List Value) : Action β σ Abort Value := do
  if (← Action.heap).isCallable f then
    let v ← dispatch lib name f convention args
    (settle lib v).mapError .thrown
  else
    violate (.notCallable name)

end ApiSurface.Run
