/-
# `ApiSurface.Proofs.Run.Materialized` — live values that have the structure of a constant

A constant is a tree; the live value made for it is a simple value or the number of an object, and
the numbers depend on what is on the heap already.  `Constant.Shown` says when a value on a heap has
the structure of a constant, whatever the numbers are.

**Main result** (`adds_materialize`): the value made for a constant has its structure, and the
objects that were on the heap before are left as they are.  So values that are made one after the
other keep their structure while the later ones are made (`Shown.extends`).
-/
import ApiSurface.Run.Materialize
import ApiSurface.Proofs.Live.Extended

namespace ApiSurface

open Live

namespace Live.Building

variable {β α γ : Type}

/-- A step only adds objects to the heap, and what it returns has the property there. -/
def Adds (b : Building β α) (property : Heap β → α → Prop) : Prop :=
  ∀ h, h.Extends (b h).2 ∧ property (b h).2 (b h).1

theorem adds_pure {property : Heap β → α → Prop} {a : α} (ha : ∀ h, property h a) :
    Adds (pure a) property :=
  fun h => ⟨.refl h, ha h⟩

/-- Two steps add what each of them adds.  What holds of the result of the first one has to outlast
the second one. -/
theorem Adds.bind {b : Building β α} {f : α → Building β γ} {first : Heap β → α → Prop}
    {second : α → Heap β → γ → Prop} (hb : Adds b first)
    (lasts : ∀ h h' a, h.Extends h' → first h a → first h' a) (hf : ∀ a, Adds (f a) (second a)) :
    Adds (b >>= f) fun h c => ∃ a, first h a ∧ second a h c := by
  intro h
  obtain ⟨ext, ha⟩ := hb h
  obtain ⟨ext', hc⟩ := hf (b h).1 (b h).2
  exact ⟨ext.trans ext', (b h).1, lasts _ _ _ ext' ha, hc⟩

theorem Adds.bind_pure {b : Building β α} {property : Heap β → α → Prop} (hb : Adds b property)
    (g : α → γ) : Adds (b >>= fun a => pure (g a)) fun h c => ∃ a, c = g a ∧ property h a := by
  intro h
  obtain ⟨ext, ha⟩ := hb h
  exact ⟨ext, (b h).1, rfl, ha⟩

theorem adds_object (o : Obj β) : Adds (object o) fun h id => h.obj? id = some o := by
  intro h
  exact ⟨(Heap.Extends.refl h).alloc o, h.obj?_alloc o⟩

/-- The object that stands for a record. -/
def recordOf (fields : List (String × Value)) : Obj β :=
  { kind := .ordinary, properties := Table.ofList (fields.map fun f => (f.1, Property.plain f.2)) }

/-- The function that does nothing. -/
def idle : Obj (Code β) :=
  { kind := .function ⟨"", 0, .arrow, .host .nothing⟩ }

theorem adds_record (fields : List (String × Value)) :
    Adds (record fields : Building β Value) fun h v =>
      ∃ id, v = .object id ∧ h.obj? id = some (recordOf fields) :=
  (adds_object _).bind_pure _

theorem adds_array (items : List Value) :
    Adds (array items : Building β Value) fun h v =>
      ∃ id, v = .object id ∧ h.obj? id = some { kind := .array items } :=
  (adds_object _).bind_pure _

theorem adds_nothing :
    Adds (nothing : Building (Code β) Value) fun h v =>
      ∃ id, v = .object id ∧ h.obj? id = some idle :=
  (adds_object _).bind_pure _

end Live.Building

namespace Constant

open Building

variable {β : Type} {h h' : Heap (Code β)}

mutual

/-- The value on the heap has the structure of the constant. -/
def Shown (h : Heap (Code β)) : Constant → Value → Prop
  | number x, v => v = .number x
  | string s, v => v = .string s
  | boolean b, v => v = .boolean b
  | undefined, v => v = .undefined
  | null, v => v = .null
  | function, v => ∃ id, v = .object id ∧ h.obj? id = some idle
  | object fields, v => ∃ values, FieldsShown h fields values ∧
      ∃ id, v = .object id ∧ h.obj? id = some (recordOf values)
  | array items, v => ∃ values, ItemsShown h items values ∧
      ∃ id, v = .object id ∧ h.obj? id = some { kind := .array values }

/-- The properties are those of the constant, with values of their structure. -/
def FieldsShown (h : Heap (Code β)) : List (String × Constant) → List (String × Value) → Prop
  | [], values => values = []
  | (k, c) :: r, values =>
      ∃ v, Shown h c v ∧ ∃ vs, values = (k, v) :: vs ∧ FieldsShown h r vs

/-- The items have the structure of those of the constant. -/
def ItemsShown (h : Heap (Code β)) : List Constant → List Value → Prop
  | [], values => values = []
  | c :: r, values => ∃ v, Shown h c v ∧ ∃ vs, values = v :: vs ∧ ItemsShown h r vs

end

/-! ## On an extended heap -/

mutual

theorem Shown.extends (ext : h.Extends h') :
    ∀ {c : Constant} {v : Value}, c.Shown h v → c.Shown h' v
  | .number _, _, hv | .string _, _, hv | .boolean _, _, hv | .undefined, _, hv | .null, _, hv => hv
  | .function, _, ⟨id, hv, ho⟩ => ⟨id, hv, ext id _ ho⟩
  | .object _, _, ⟨values, hfields, id, hv, ho⟩ =>
      ⟨values, FieldsShown.extends ext hfields, id, hv, ext id _ ho⟩
  | .array _, _, ⟨values, hitems, id, hv, ho⟩ =>
      ⟨values, ItemsShown.extends ext hitems, id, hv, ext id _ ho⟩

theorem FieldsShown.extends (ext : h.Extends h') : ∀ {fields : List (String × Constant)}
    {values : List (String × Value)}, FieldsShown h fields values → FieldsShown h' fields values
  | [], _, hnil => hnil
  | _ :: _, _, ⟨v, hv, vs, heq, hvs⟩ =>
      ⟨v, Shown.extends ext hv, vs, heq, FieldsShown.extends ext hvs⟩

theorem ItemsShown.extends (ext : h.Extends h') : ∀ {items : List Constant} {values : List Value},
    ItemsShown h items values → ItemsShown h' items values
  | [], _, hnil => hnil
  | _ :: _, _, ⟨v, hv, vs, heq, hvs⟩ =>
      ⟨v, Shown.extends ext hv, vs, heq, ItemsShown.extends ext hvs⟩

end

/-! ## What is made for a constant -/

mutual

/-- **The value made for a constant has its structure.** -/
theorem adds_materialize : ∀ c : Constant,
    Adds (materialize c : Building (Code β) Value) fun h v => c.Shown h v
  | .number _ | .string _ | .boolean _ | .undefined | .null => adds_pure fun _ => rfl
  | .function => adds_nothing
  | .object fields =>
      (adds_materializeFields fields).bind (fun _ _ _ ext => FieldsShown.extends ext) adds_record
  | .array items =>
      (adds_materializeItems items).bind (fun _ _ _ ext => ItemsShown.extends ext) adds_array

theorem adds_materializeFields : ∀ fields : List (String × Constant),
    Adds (materializeFields fields : Building (Code β) (List (String × Value)))
      fun h values => FieldsShown h fields values
  | [] => adds_pure fun _ => rfl
  | (k, c) :: r =>
      (adds_materialize c).bind (fun _ _ _ ext => Shown.extends ext) fun v =>
        (adds_materializeFields r).bind_pure ((k, v) :: ·)

theorem adds_materializeItems : ∀ items : List Constant,
    Adds (materializeItems items : Building (Code β) (List Value))
      fun h values => ItemsShown h items values
  | [] => adds_pure fun _ => rfl
  | c :: r =>
      (adds_materialize c).bind (fun _ _ _ ext => Shown.extends ext) fun v =>
        (adds_materializeItems r).bind_pure (v :: ·)

end

end Constant

end ApiSurface
