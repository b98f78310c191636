/-
# `ApiSurface.Proofs.Json.Decoders` — decoders give back what was written

The written form of a list is the array of the written forms of its items, that of a table the
object with a field for each key; reading either gives back the value if the items or the keys and
entries are given back (`list?_map`, `table?_map`).  For a table this needs its order: the fields
are put into a table again one by one, and a table in order is what its own pairs make
(`Table.ofList_eq`).

A written value is one that a text can carry (`Json.Written`): no part of it is refused, and its
numbers are in range.  What its doubles have to satisfy differs from use to use and is a parameter.
-/
import Mathlib.Algebra.Ring.Int.Defs
import ApiSurface.Proofs.Lookup
import ApiSurface.Schema.Codec

namespace ApiSurface

namespace Table

variable {κ α : Type} [Ord κ]

theorem insert_of_lt [Std.OrientedOrd κ] {t : Table κ α} {k : κ}
    (h : ∀ p ∈ t, compare p.1 k = .lt) (a : α) : insert t k a = t ++ [(k, a)] := by
  induction t with
  | nil => rfl
  | cons p t ih =>
      obtain ⟨hp, ht⟩ := List.forall_mem_cons.mp h
      have hgt : compare k p.1 = .gt := Std.OrientedCmp.gt_iff_lt.mpr hp
      rw [insert, hgt, List.cons_append, ← ih ht]

/-- A table in order is the table of its own pairs. -/
theorem ofList_eq [Std.OrientedOrd κ] {t : Table κ α} (h : Ascending t) : ofList t = t := by
  -- Every pair that is still to come belongs behind those that are there.
  have hfold : ∀ rest done : Table κ α, Ascending (done ++ rest) →
      rest.foldl (fun t p => insert t p.1 p.2) done = done ++ rest := by
    intro rest
    induction rest with
    | nil => simp
    | cons p rest ih =>
        intro done hordered
        have hlast : ∀ q ∈ done, compare q.1 p.1 = .lt := by
          intro q hq
          exact (List.pairwise_append.mp hordered).2.2 q hq p List.mem_cons_self
        rw [List.foldl_cons, insert_of_lt hlast, ih, List.append_assoc]
        · rfl
        · rwa [List.append_assoc]
  exact hfold t [] h

end Table

theorem mapM_map_eq_some {α β : Type} {encode : α → β} {decode : β → Option α} {l : List α}
    (h : ∀ a ∈ l, decode (encode a) = some a) : (l.map encode).mapM decode = some l := by
  induction l with
  | nil => rfl
  | cons a l ih =>
      obtain ⟨ha, hl⟩ := List.forall_mem_cons.mp h
      simp [List.mapM_cons, ha, ih hl]

namespace Json

/-- A value that a text can carry, with doubles of the given kind. -/
inductive Written (R : Float → Prop) : Json → Prop
  | null : Written R .null
  | bool (b : Bool) : Written R (.bool b)
  | integer {n : Int} (low : -2 ^ 63 ≤ n) (high : n < 2 ^ 64) : Written R (.integer n)
  | real {x : Float} (h : R x) : Written R (.real x)
  | text (s : String) : Written R (.text s)
  | array {items : List Json} (h : ∀ j ∈ items, Written R j) : Written R (.array items)
  | object {fields : List (String × Json)} (h : ∀ p ∈ fields, Written R p.2) :
      Written R (.object fields)

variable {R : Float → Prop}

theorem written_tagged {name : String} {payload : Json} (h : payload.Written R) :
    (tagged name payload).Written R :=
  .object (List.forall_mem_singleton.mpr h)

theorem written_nat {n : Nat} (h : n ≤ Decimal.maxWord) : (integer n).Written R := by
  simp only [Decimal.maxWord] at h
  exact .integer (by omega) (by omega)

theorem written_array {α : Type} (encode : α → Json) {l : List α}
    (h : ∀ a ∈ l, (encode a).Written R) : (array (l.map encode)).Written R :=
  .array (List.forall_mem_map.mpr h)

theorem written_object {α : Type} {name : α → String} {encode : α → Json} {l : List α}
    (h : ∀ a ∈ l, (encode a).Written R) :
    (object (l.map fun a => (name a, encode a))).Written R :=
  .object (List.forall_mem_map.mpr h)

theorem list?_map {α : Type} {encode : α → Json} {decode : Json → Option α} {l : List α}
    (h : ∀ a ∈ l, decode (encode a) = some a) : list? decode (array (l.map encode)) = some l :=
  mapM_map_eq_some h

theorem table?_map {κ α : Type} [Ord κ] [Std.OrientedOrd κ] (name : κ → String)
    (encode : α → Json) {key : String → Option κ} {decode : Json → Option α} {t : Table κ α}
    (ht : Table.Ascending t) (hkey : ∀ p ∈ t, key (name p.1) = some p.1)
    (h : ∀ p ∈ t, decode (encode p.2) = some p.2) :
    table? key decode (object (t.map fun p => (name p.1, encode p.2))) = some t := by
  have hfields : (t.map fun p => (name p.1, encode p.2)).mapM
      (fun (f : String × Json) => do return (← key f.1, ← decode f.2)) = some t :=
    mapM_map_eq_some fun p hp => by simp [hkey p hp, h p hp]
  simp only [table?, fields?, Option.bind_some]
  rw [hfields, Option.map_some, Table.ofList_eq ht]

theorem textTable?_map {α : Type} (encode : α → Json) {decode : Json → Option α}
    {t : Table String α} (ht : Table.Ascending t)
    (h : ∀ p ∈ t, decode (encode p.2) = some p.2) :
    table? some decode (object (t.map fun p => (p.1, encode p.2))) = some t :=
  table?_map id encode ht (fun _ _ => rfl) h

theorem nat?_integer {n : Nat} (h : n ≤ Decimal.maxWord) : nat? (integer n) = some n := by
  have hbound : (0 : Int) ≤ n ∧ (n : Int) < (Decimal.maxWord + 1 : Nat) := by omega
  rw [nat?, natBelow?, if_pos hbound, Int.toNat_natCast]

theorem required?_nat {n : Nat} (h : n ≤ Decimal.maxWord) :
    required? nat? (some (integer n)) = some n := by
  rw [required?, Option.bind_some, nat?_integer h]

/-! ## Depth -/

theorem depth_lt_object {fields : List (String × Json)} {p : String × Json} (h : p ∈ fields) :
    p.2.depth < (object fields).depth := by
  rw [depth, Nat.lt_add_one_iff]
  induction fields with
  | nil => cases h
  | cons q fields ih =>
      obtain ⟨key, j⟩ := q
      rw [fieldsDepth]
      rcases List.mem_cons.mp h with rfl | h
      · exact Nat.le_max_left ..
      · exact Nat.le_trans (ih h) (Nat.le_max_right ..)

end Json

end ApiSurface
