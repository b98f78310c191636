/-
# `ApiSurface.Proofs.Schema.Codec` — schemas read back from what is written of them

The written form of a schema is read back as the schema if every guess in it is well formed: its
tables are in order, at every depth, and its masses are of the given kind (`Guess.Formed`).  The
kind is a parameter because it plays two parts: a value of JSON needs masses that are finite, its
text needs masses that survive being printed.

The reader of guesses is given a bound on how deep they may be nested, the depth of the written
value and one more; the induction is on the guess, for every bound above the depth of what is
written (`Guess.decodeTo?_encode`).
-/
import ApiSurface.Proofs.Json.Decoders

namespace ApiSurface

open Json

variable {R : Float → Prop}

/-! ## Guesses -/

namespace Guess

/-- The tables of a guess are in order and its masses of the given kind, at every depth. -/
inductive Formed (R : Float → Prop) : Guess → Prop
  | any : Formed R .any
  | known {mass : List (Kind × Float)} {shape : Option (List (String × Guess))}
      {items : Option Guess} {classes : Option (List (String × Float))}
      (massOrder : Table.Ascending mass) (masses : ∀ p ∈ mass, R p.2)
      (shapeOrder : ∀ fs, shape = some fs → Table.Ascending fs)
      (fields : ∀ fs, shape = some fs → ∀ p ∈ fs, Formed R p.2)
      (item : ∀ g, items = some g → Formed R g)
      (classOrder : ∀ cs, classes = some cs → Table.Ascending cs)
      (classMasses : ∀ cs, classes = some cs → ∀ p ∈ cs, R p.2) :
      Formed R (.known mass shape items classes)

theorem formed_ofKind (h : R 1) (k : Kind) : (ofKind k).Formed R :=
  .known (List.pairwise_singleton ..) (List.forall_mem_singleton.mpr h) nofun nofun nofun nofun
    nofun

theorem formed_ofClass (h : R 1) (name : String) : (ofClass name).Formed R := by
  refine .known (List.pairwise_singleton ..) (List.forall_mem_singleton.mpr h) nofun nofun nofun
    ?_ ?_
  · rintro _ ⟨rfl⟩
    exact List.pairwise_singleton ..
  · rintro _ ⟨rfl⟩
    exact List.forall_mem_singleton.mpr h

theorem formed_object (h : R 1) {fields : List (String × Guess)} (order : Table.Ascending fields)
    (hfields : ∀ p ∈ fields, p.2.Formed R) : (object fields).Formed R := by
  refine .known (List.pairwise_singleton ..) (List.forall_mem_singleton.mpr h) ?_ ?_ nofun nofun
    nofun
  · rintro _ ⟨rfl⟩
    exact order
  · rintro _ ⟨rfl⟩
    exact hfields

theorem formed_array (h : R 1) {item : Guess} (hitem : item.Formed R) :
    (array item).Formed R := by
  refine .known (List.pairwise_singleton ..) (List.forall_mem_singleton.mpr h) nofun nofun ?_
    nofun nofun
  rintro _ ⟨rfl⟩
  exact hitem

theorem encodeFields_eq (fields : List (String × Guess)) :
    encodeFields fields = fields.map fun p => (p.1, encode p.2) := by
  induction fields with
  | nil => rfl
  | cons p fields ih =>
      obtain ⟨key, g⟩ := p
      rw [encodeFields, ih, List.map_cons]

/-- The fields of a written guess: a part about which nothing is known is not there. -/
theorem record?_encode (mass : List (Kind × Float)) (shape : Option (List (String × Guess)))
    (items : Option Guess) (classes : Option (List (String × Float))) :
    record? fieldNames (encode (.known mass shape items classes)) =
      some [some (.bool false), some (encodeMass mass),
        shape.map fun fs => .object (fs.map fun p => (p.1, encode p.2)), items.map encode,
        classes.map fun cs => .object (cs.map fun p => (p.1, .real p.2))] := by
  cases shape with
  | none => cases items <;> cases classes <;> rfl
  | some fs =>
      rw [encode, encodeShape, encodeFields_eq]
      cases items <;> cases classes <;> rfl

theorem record?_encode_any : record? fieldNames (encode .any) =
    some [some (.bool true), some (.object []), none, none, none] := rfl

/-- What is written of a guess is never `null`. -/
theorem nullable?_encode {α : Type} (decode : Json → Option α) (g : Guess) :
    nullable? decode (encode g) = (decode (encode g)).map some := by
  cases g <;> rfl

theorem decodeMass?_encodeMass {mass : List (Kind × Float)} (h : Table.Ascending mass) :
    decodeMass? (encodeMass mass) = some mass :=
  table?_map Kind.name Json.real h (fun p _ => Kind.ofName?_name p.1) fun _ _ => rfl

theorem mem_fields_encode (mass : List (Kind × Float)) (shape : Option (List (String × Guess)))
    (items : Option Guess) (classes : Option (List (String × Float))) :
    ∃ fields, encode (.known mass shape items classes) = .object fields ∧
      (∀ fs, shape = some fs → ("objectShape", .object (encodeFields fs)) ∈ fields) ∧
        ∀ g, items = some g → ("arrayValueType", encode g) ∈ fields := by
  refine ⟨_, by rw [encode], ?_, ?_⟩
  · rintro fs rfl
    simp [encodeShape]
  · rintro g rfl
    simp [encodeItems]

/-- **A guess reads back from what is written of it**, if the bound on its depth is above that of
the written form. -/
theorem decodeTo?_encode {g : Guess} (h : g.Formed R) :
    ∀ depth, (encode g).depth < depth → decodeTo? depth (encode g) = some g := by
  induction h with
  | any =>
      intro depth hdepth
      obtain ⟨depth, rfl⟩ := Nat.exists_eq_succ_of_ne_zero (Nat.ne_zero_of_lt hdepth)
      rw [decodeTo?, record?_encode_any]
      rfl
  | @known mass shape items classes massOrder _ shapeOrder _ _ classOrder _ ihfields ihitem =>
      intro depth hdepth
      obtain ⟨depth, rfl⟩ := Nat.exists_eq_succ_of_ne_zero (Nat.ne_zero_of_lt hdepth)
      obtain ⟨parts, hparts, hshape, hitems⟩ :=
        mem_fields_encode mass shape items classes
      have hbound : (Json.object parts).depth ≤ depth := by
        rw [← hparts]
        exact Nat.lt_succ_iff.mp hdepth
      have hreadShape : defaulted? none (nullable? (table? some (decodeTo? depth)))
          (shape.map fun fs => .object (fs.map fun p => (p.1, encode p.2))) = some shape := by
        cases shape with
        | none => rfl
        | some fs =>
            have hfields : table? some (decodeTo? depth)
                (.object (fs.map fun p => (p.1, encode p.2))) = some fs := by
              refine textTable?_map encode (shapeOrder fs rfl) fun p hp => ?_
              refine ihfields fs rfl p hp depth ?_
              have hinner := depth_lt_object (hshape fs rfl)
              rw [encodeFields_eq] at hinner
              have hnested := depth_lt_object
                (List.mem_map_of_mem (f := fun p : String × Guess => (p.1, encode p.2)) hp)
              exact Nat.lt_of_lt_of_le (Nat.lt_trans hnested hinner) hbound
            simp [defaulted?, nullable?, hfields]
      have hreadItems : defaulted? none (nullable? (decodeTo? depth)) (items.map encode) =
          some items := by
        cases items with
        | none => rfl
        | some g =>
            have hnested := depth_lt_object (hitems g rfl)
            have hg := ihitem g rfl depth (Nat.lt_of_lt_of_le hnested hbound)
            simp [defaulted?, nullable?_encode, hg]
      have hreadClasses : defaulted? none decodeClasses?
          (classes.map fun cs => .object (cs.map fun p => (p.1, .real p.2))) = some classes := by
        cases classes with
        | none => rfl
        | some cs =>
            have hcs : table? some real? (.object (cs.map fun p => (p.1, .real p.2))) = some cs :=
              textTable?_map Json.real (classOrder cs rfl) fun _ _ => rfl
            simp [defaulted?, decodeClasses?, nullable?, hcs]
      have hreadMass : defaulted? [] decodeMass? (some (encodeMass mass)) = some mass :=
        decodeMass?_encodeMass massOrder
      rw [decodeTo?, record?_encode]
      simp [required?, bool?, hreadMass, hreadShape, hreadItems, hreadClasses]

theorem decode?_encode {g : Guess} (h : g.Formed R) : decode? (encode g) = some g :=
  decodeTo?_encode h _ (Nat.lt_succ_self _)

theorem written_encode {g : Guess} (h : g.Formed R) : (encode g).Written R := by
  induction h with
  | any => exact .object (by simp [Written.bool, Written.object])
  | @known mass shape items classes _ masses _ _ _ _ classMasses ihfields ihitem =>
      have hshape : ∀ p ∈ encodeShape shape, p.2.Written R := by
        cases shape with
        | none => exact nofun
        | some fs =>
            rw [encodeShape, encodeFields_eq]
            exact List.forall_mem_singleton.mpr (written_object (ihfields fs rfl))
      have hitems : ∀ p ∈ encodeItems items, p.2.Written R := by
        cases items with
        | none => exact nofun
        | some g => exact List.forall_mem_singleton.mpr (ihitem g rfl)
      have hclasses : ∀ p ∈ encodeClasses classes, p.2.Written R := by
        cases classes with
        | none => exact nofun
        | some cs =>
            exact List.forall_mem_singleton.mpr
              (written_object fun p hp => .real (classMasses cs rfl p hp))
      have hmass : (encodeMass mass).Written R :=
        written_object fun p hp => .real (masses p hp)
      rw [encode]
      refine .object ?_
      simp only [List.forall_mem_append, List.forall_mem_cons]
      exact ⟨⟨⟨⟨.bool false, hmass, nofun⟩, hshape⟩, hitems⟩, hclasses⟩

end Guess

/-! ## Descriptions -/

namespace ValueType

/-- The properties of every object in the description are in order. -/
inductive Formed : ValueType → Prop
  | number : Formed .number
  | string : Formed .string
  | boolean : Formed .boolean
  | object {shape : List (String × ValueType)} (order : Table.Ascending shape)
      (fields : ∀ p ∈ shape, Formed p.2) : Formed (.object shape)
  | ofClass (name : String) : Formed (.ofClass name)
  | array {item : ValueType} (h : Formed item) : Formed (.array item)
  | undefined : Formed .undefined
  | null : Formed .null
  | function : Formed .function

theorem encodeShape_eq (shape : List (String × ValueType)) :
    encodeShape shape = shape.map fun p => (p.1, encode p.2) := by
  induction shape with
  | nil => rfl
  | cons p shape ih =>
      obtain ⟨key, t⟩ := p
      rw [encodeShape, ih, List.map_cons]

theorem decodeShape?_encodeShape {shape : List (String × ValueType)}
    (h : ∀ p ∈ shape, decode? (encode p.2) = some p.2) :
    decodeShape? (encodeShape shape) = some shape := by
  induction shape with
  | nil => rfl
  | cons p shape ih =>
      obtain ⟨hp, hshape⟩ := List.forall_mem_cons.mp h
      obtain ⟨key, t⟩ := p
      simp [encodeShape, decodeShape?, hp, ih hshape]

theorem decode?_encode {t : ValueType} (h : t.Formed) : decode? (encode t) = some t := by
  induction h with
  | @object shape order _ ih =>
      rw [encode, tagged, decode?, decodeShape?_encodeShape ih, Option.map_some,
        Table.ofList_eq order]
  | array _ ih => rw [encode, tagged, decode?, ih, Option.map_some]
  | ofClass => rw [encode, tagged, decode?]
  | number | string | boolean | undefined | null | function => rfl

theorem written_encode {t : ValueType} (h : t.Formed) : (encode t).Written R := by
  induction h with
  | object _ _ ih =>
      rw [encode, encodeShape_eq]
      exact written_tagged (written_object ih)
  | array _ ih => exact written_tagged ih
  | ofClass name => exact written_tagged (.text name)
  | number | string | boolean | undefined | null | function => exact .text _

end ValueType

/-! ## Entries and schemas -/

namespace Convention

theorem decode?_encode (c : Convention) : decode? c.encode = some c := by
  cases c <;> rfl

theorem written_encode (c : Convention) : c.encode.Written R :=
  .text _

end Convention

namespace Entry

/-- Every guess of the entry is well formed. -/
structure Formed (R : Float → Prop) (e : Entry) : Prop where
  args : ∀ g ∈ e.args, g.Formed R
  ret : e.ret.Formed R

theorem decode?_encode {e : Entry} (h : e.Formed R) : decode? e.encode = some e := by
  obtain ⟨args, ret, convention, builtin⟩ := e
  have hargs : list? Guess.decode? (.array (args.map Guess.encode)) = some args :=
    list?_map fun g hg => Guess.decode?_encode (h.args g hg)
  have hret : Guess.decode? ret.encode = some ret := Guess.decode?_encode h.ret
  have hfields : record? [["args"], ["ret"], ["callconv"], ["builtin"]]
      (encode ⟨args, ret, convention, builtin⟩) =
        some [some (.array (args.map Guess.encode)), some ret.encode, some convention.encode,
          if builtin then some (.bool true) else none] := by
    cases builtin <;> rfl
  have hbuiltin : defaulted? false bool? (if builtin then some (.bool true) else none) =
      some builtin := by
    cases builtin <;> rfl
  rw [decode?, hfields]
  simp [required?, hargs, hret, Convention.decode?_encode, hbuiltin]

theorem written_encode {e : Entry} (h : e.Formed R) : e.encode.Written R := by
  have hargs := written_array Guess.encode fun g hg =>
    Guess.written_encode (h.args g hg)
  have hret := Guess.written_encode h.ret
  have hbuiltin : ∀ p ∈ (if e.builtin then [("builtin", Json.bool true)] else []),
      p.2.Written R := by
    cases e.builtin with
    | false => exact nofun
    | true => exact List.forall_mem_singleton.mpr (.bool true)
  rw [encode]
  refine .object ?_
  simp only [List.forall_mem_append, List.forall_mem_cons]
  exact ⟨⟨hargs, hret, Convention.written_encode _, nofun⟩, hbuiltin⟩

end Entry

namespace Schema

/-- Every guess of the schema is well formed. -/
def Formed (R : Float → Prop) (s : Schema) : Prop :=
  ∀ p ∈ s.entries, p.2.Formed R

theorem decode?_encode {s : Schema} (h : s.Formed R) : decode? s.encode = some s := by
  have hfields : (s.entries.map fun p => (p.1, p.2.encode)).mapM
      (fun (f : String × Json) => do return (f.1, ← Entry.decode? f.2)) = some s.entries :=
    mapM_map_eq_some fun p hp => by simp [Entry.decode?_encode (h p hp)]
  have hentries : ofList s.entries = s := by
    obtain ⟨entries, ascending⟩ := s
    simp only [ofList, Table.ofList_eq ascending]
  rw [encode, decode?, fields?, Option.bind_eq_bind, Option.bind_some, hfields]
  exact congrArg some hentries

theorem written_encode {s : Schema} (h : s.Formed R) : s.encode.Written R :=
  written_object fun p hp => Entry.written_encode (h p hp)

end Schema

end ApiSurface
