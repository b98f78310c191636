import ApiSurface.Run.ByteSource
import ApiSurface.Run.Invoke
import ApiSurface.Run.Materialize

/-!
Running a sequence of calls. Arguments are made from left to right, constants from the bytes of the
plan; the result of every call is kept for the calls after it.
-/

namespace ApiSurface.Run

open Live

variable {β σ : Type}

/-- How far a sequence has come. -/
structure Progress where
  /-- How many calls completed. -/
  executed : Nat
  /-- The results of the completed calls. -/
  results : Table Nat Value
  /-- The bytes for the constants to come. -/
  source : ByteSource

/-- The value of an argument at a position, and the bytes after it. -/
def argument (results : Table Nat Value) (c : CallSequence.Call) (position : Nat)
    (source : ByteSource) : CallSequence.Arg → Action β σ Abort (Value × ByteSource)
  | .output id =>
    match Table.find? results id with
    | some v => return (v, source)
    | none => violate (.outputMissing c.id id)
  | .constant type =>
    match source.constant type with
    | (.ok value, source) => return (← Action.onHeap value.materialize, source)
    | (.error e, _) => violate (.noInstance e)
  | .missing => violate (.argumentMissing c.id c.name position)

/-- The values of the arguments from a position on, and the bytes after them. -/
def arguments (results : Table Nat Value) (c : CallSequence.Call) :
    Nat → ByteSource → List CallSequence.Arg → Action β σ Abort (List Value × ByteSource)
  | _, source, [] => return ([], source)
  | position, source, a :: r => do
    let (v, source) ← argument results c position source a
    let (vs, source) ← arguments results c (position + 1) source r
    return (v :: vs, source)

/-- Makes one call. -/
def runCall (lib : Library β σ) (endpoints : Endpoints) (p : Progress) (c : CallSequence.Call) :
    Action β σ Abort Progress := do
  if Table.has p.results c.id then violate (.duplicateCall c.id)
  else
    let f ← endpoint endpoints c.name
    let (args, source) ← arguments p.results c 0 p.source c.args
    let v ← invoke lib c.name f c.convention args
    return ⟨p.executed + 1, Table.insert p.results c.id v, source⟩

/-- Makes calls in order until one does not complete: how far it came, and what stopped it. -/
def runCalls (lib : Library β σ) (endpoints : Endpoints) :
    List CallSequence.Call → Progress → StateM (World β σ) (Progress × Except Abort Unit)
  | [], p => return (p, .ok ())
  | c :: r, p => do
    match ← (runCall lib endpoints p c).run with
    | .error a => return (p, .error a)
    | .ok p => runCalls lib endpoints r p

/-- How far a sequence is before its first call. -/
def Progress.start (settings : Settings) (s : CallSequence) : Progress :=
  ⟨0, [], ByteSource.ofSettings settings s.bytes⟩

/-- Runs a sequence. -/
def runSequence (lib : Library β σ) (endpoints : Endpoints) (settings : Settings)
    (s : CallSequence) : StateM (World β σ) (Progress × Except Abort Unit) :=
  runCalls lib endpoints s.calls (.start settings s)

end ApiSurface.Run
