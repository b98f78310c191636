/-
# `ApiSurface.Proofs.Run.Dispatch` — what becomes of one invocation

An endpoint is invoked by a convention.  `invocation?` says what then reaches the live value, and
`deliver` what comes back once it is waited for; `invoke_eq` puts `invoke` together from the two.
From here on nothing opens `invoke`: it either delivers, and ends in a settled value or in what was
thrown, or it refuses before the live value is reached and leaves the world as it was.
-/
import ApiSurface.Run.Invoke

namespace ApiSurface.Run

open Live

variable {β σ : Type}

/-! ## Actions -/

theorem action_bind_eq {ε α γ : Type} (x : Action β σ ε α) (f : α → Action β σ ε γ)
    (w : World β σ) :
    (x >>= f) w = match x w with
      | (.ok a, w') => f a w'
      | (.error e, w') => (.error e, w') := by
  show (match x w with | (a, w') => ExceptT.bindCont f a w') = _
  rcases x w with ⟨a | a, w'⟩ <;> rfl

theorem mapError_eq {ε ε' α : Type} (f : ε → ε') (x : Action β σ ε α) (w : World β σ) :
    x.mapError f w = ((x w).1.mapError f, (x w).2) :=
  rfl

theorem mapError_bind {ε ε' α γ : Type} (f : ε → ε') (x : Action β σ ε α)
    (g : α → Action β σ ε γ) :
    (x >>= g).mapError f = x.mapError f >>= fun a => (g a).mapError f := by
  funext w
  rw [mapError_eq, action_bind_eq, action_bind_eq, mapError_eq]
  rcases x w with ⟨e | a, w'⟩ <;> rfl

/-! ## Invoking -/

/-- What reaches a live value that is invoked by a convention; nothing if a method has no
receiver. -/
def invocation? : Convention → List Value → Option Invocation
  | .free, args => some ⟨.undefined, args, false⟩
  | .constructor, args => some ⟨.undefined, args, true⟩
  | .method, receiver :: args => some ⟨receiver, args, false⟩
  | .method, [] => none

/-- Calls a live value, or constructs with it. -/
def reach (lib : Library β σ) (f : Value) (i : Invocation) : Action β σ Value Value :=
  if i.constructs then construct lib f i.args else call lib f i.receiver i.args

/-- Calls a live value, or constructs with it, and waits for the result. -/
def deliver (lib : Library β σ) (f : Value) (i : Invocation) : Action β σ Value Value := do
  settle lib (← reach lib f i)

theorem dispatch_eq (lib : Library β σ) (name : String) (f : Value) (convention : Convention)
    (args : List Value) :
    dispatch lib name f convention args = match invocation? convention args with
      | some i => (reach lib f i).mapError .thrown
      | none => violate (.noReceiver name) := by
  cases convention <;> cases args <;> rfl

/-- **An invocation is delivered or refused**, and a refused one changes nothing. -/
theorem invoke_eq (lib : Library β σ) (name : String) (f : Value) (convention : Convention)
    (args : List Value) (w : World β σ) :
    invoke lib name f convention args w =
      if w.heap.isCallable f then
        match invocation? convention args with
        | some i => (deliver lib f i).mapError .thrown w
        | none => (.error (.violation (.noReceiver name)), w)
      else (.error (.violation (.notCallable name)), w) := by
  show (if w.heap.isCallable f = true then
      (dispatch lib name f convention args >>= fun v => (settle lib v).mapError .thrown)
    else violate (.notCallable name)) w = _
  split
  · rw [dispatch_eq]
    cases invocation? convention args with
    | none => rfl
    | some i => exact (congrFun (mapError_bind Abort.thrown (reach lib f i) (settle lib)) w).symm
  · rfl

/-- The violations by which an endpoint is not there or cannot be invoked. -/
def Violation.isRefusal : Violation → Bool
  | .noEndpoint _ | .notCallable _ | .noReceiver _ => true
  | _ => false

end ApiSurface.Run
