/-
# `ApiSurface.Proofs.Schema.Text` — schemas read back from their text

The text of a schema is read back as the schema as far as its arrays and objects are nested at most
127 deep, and is not read at all beyond that (`Schema.ofText?_toText`).

The reader of texts leaves a value as it is but for arrays and objects that lie too deep, which it
refuses (`kept`).  A decoder that looks at every part of a value has no use for one of which a part
was refused (`Demands`): where it gives a result, the value fits.  For guesses this is an induction
along the reader, which goes down into every property and into the items.
-/
import ApiSurface.Proofs.Json.Text
import ApiSurface.Proofs.Schema.Codec

namespace ApiSurface

namespace Json

/-! ## Values that fit -/

/-- Inside so many others, nothing in the value is nested too deep. -/
def Fits (d : Nat) (j : Json) : Prop :=
  d + j.depth ≤ maxNesting

theorem fits_object {d : Nat} {fields : List (String × Json)} (hd : d < maxNesting)
    (h : ∀ p ∈ fields, Fits (d + 1) p.2) : Fits d (.object fields) := by
  have hfields : fieldsDepth fields ≤ maxNesting - (d + 1) := by
    induction fields with
    | nil => exact Nat.zero_le _
    | cons p fields ih =>
        obtain ⟨hp, hfields⟩ := List.forall_mem_cons.mp h
        obtain ⟨key, j⟩ := p
        exact Nat.max_le.mpr ⟨Nat.le_sub_of_add_le' hp, ih hfields⟩
  rw [Fits, depth]
  omega

theorem fits_array {d : Nat} {items : List Json} (hd : d < maxNesting)
    (h : ∀ j ∈ items, Fits (d + 1) j) : Fits d (.array items) := by
  have hitems : itemsDepth items ≤ maxNesting - (d + 1) := by
    induction items with
    | nil => exact Nat.zero_le _
    | cons j items ih =>
        obtain ⟨hj, hitems⟩ := List.forall_mem_cons.mp h
        exact Nat.max_le.mpr ⟨Nat.le_sub_of_add_le' hj, ih hitems⟩
  rw [Fits, depth]
  omega

/-- An array or object that was read stands inside fewer others than there may be. -/
theorem lt_of_container_ne {d : Nat} {j : Json} (h : container d j ≠ .refused) :
    d < maxNesting := by
  by_contra hd
  exact h (if_neg hd)

theorem kept_object (d : Nat) (fields : List (String × Json))
    (h : kept d (.object fields) ≠ .refused) : d < maxNesting ∧
      kept d (.object fields) = .object (fields.map fun p => (p.1, kept (d + 1) p.2)) := by
  rw [kept, keptFields_eq] at h ⊢
  have hd := lt_of_container_ne h
  exact ⟨hd, container_of_lt hd _⟩

theorem kept_array (d : Nat) (items : List Json) (h : kept d (.array items) ≠ .refused) :
    d < maxNesting ∧ kept d (.array items) = .array (items.map (kept (d + 1))) := by
  rw [kept, keptItems_eq] at h ⊢
  have hd := lt_of_container_ne h
  exact ⟨hd, container_of_lt hd _⟩

/-! ## Decoders that look at everything -/

/-- Wherever the value stands, the decoder has a result of it only if it fits there. -/
def Demands {α : Type} (decode : Json → Option α) (j : Json) : Prop :=
  ∀ d a, decode (kept d j) = some a → d ≤ maxNesting → Fits d j

theorem exists_of_mapM {α β : Type} {f : α → Option β} {l : List α} {bs : List β}
    (h : l.mapM f = some bs) : ∀ a ∈ l, ∃ b, f a = some b := by
  induction l generalizing bs with
  | nil => exact nofun
  | cons a l ih =>
      simp only [List.mapM_cons, Option.bind_eq_bind, Option.bind_eq_some_iff] at h
      obtain ⟨b, hb, rest, hrest, -⟩ := h
      exact List.forall_mem_cons.mpr ⟨⟨b, hb⟩, ih hrest⟩

variable {α : Type} {decode : Json → Option α}

theorem demands_list {items : List Json} (h : ∀ j ∈ items, Demands decode j) :
    Demands (list? decode) (.array items) := by
  intro d as hread _
  obtain ⟨hd, hkept⟩ := kept_array d items fun hrefused => by
    rw [hrefused] at hread
    cases hread
  rw [hkept, list?, items?, Option.bind_some] at hread
  refine fits_array hd fun j hj => ?_
  obtain ⟨a, ha⟩ := exists_of_mapM hread _ (List.mem_map_of_mem hj)
  exact h j hj (d + 1) a ha hd

theorem demands_table {κ : Type} [Ord κ] {key : String → Option κ} {fields : List (String × Json)}
    (h : ∀ p ∈ fields, Demands decode p.2) : Demands (table? key decode) (.object fields) := by
  intro d t hread _
  obtain ⟨hd, hkept⟩ := kept_object d fields fun hrefused => by
    rw [hrefused] at hread
    cases hread
  rw [hkept, table?, fields?, Option.bind_some] at hread
  obtain ⟨pairs, hpairs, -⟩ := Option.map_eq_some_iff.mp hread
  refine fits_object hd fun p hp => ?_
  obtain ⟨q, hq⟩ := exists_of_mapM hpairs _ (List.mem_map_of_mem hp)
  simp only [Option.bind_eq_bind, Option.bind_eq_some_iff] at hq
  obtain ⟨_, _, a, ha, -⟩ := hq
  exact h p hp (d + 1) a ha hd

theorem demands_nullable {j : Json} (h : Demands decode j) : Demands (nullable? decode) j := by
  intro d a hread hd
  cases hkept : kept d j with
  | null =>
      cases j with
      | array items =>
          have harray := (kept_array d items (by rw [hkept]; nofun)).2
          rw [hkept] at harray
          cases harray
      | object fields =>
          have hobject := (kept_object d fields (by rw [hkept]; nofun)).2
          rw [hkept] at hobject
          cases hobject
      | _ => exact hd
  | _ =>
      rw [hkept] at hread
      obtain ⟨b, hb, -⟩ := Option.map_eq_some_iff.mp hread
      exact h d b (hkept ▸ hb) hd

/-- A value without parts fits everywhere. -/
theorem demands_real (x : Float) : Demands real? (.real x) :=
  fun _ _ _ hd => hd

/-! ## Records -/

theorem fieldOf_map (f : Json → Json) (fields : List (String × Json)) (names : List String) :
    fieldOf (fields.map fun p => (p.1, f p.2)) names =
      (fieldOf fields names).map (Option.map f) := by
  have hvalues : valuesOf names (fields.map fun p => (p.1, f p.2)) =
      (valuesOf names fields).map f := by
    rw [valuesOf, valuesOf, List.filter_map, List.map_map, List.map_map]
    rfl
  rw [fieldOf, fieldOf, hvalues]
  rcases valuesOf names fields with _ | ⟨j, _ | ⟨j', js⟩⟩ <;> rfl

/-- The fields of a record that was read, from those of the written one. -/
theorem record?_kept {names : List (List String)} {d : Nat} {fields : List (String × Json)}
    {parts : List (Option Json)} (h : record? names (kept d (.object fields)) = some parts) :
    d < maxNesting ∧ ∃ whole, record? names (.object fields) = some whole ∧
      whole.map (Option.map (kept (d + 1))) = parts := by
  obtain ⟨hd, hkept⟩ := kept_object d fields fun hrefused => by
    rw [hrefused] at h
    cases h
  refine ⟨hd, ?_⟩
  rw [hkept, record?] at h
  rw [record?]
  induction names generalizing parts with
  | nil =>
      cases h
      exact ⟨[], rfl, rfl⟩
  | cons name names ih =>
      simp only [List.mapM_cons, Option.bind_eq_bind, Option.bind_eq_some_iff, fieldOf_map] at h
      obtain ⟨part, hpart, rest, hrest, hparts⟩ := h
      cases hparts
      obtain ⟨j?, hj?, rfl⟩ := Option.map_eq_some_iff.mp hpart
      obtain ⟨whole, hwhole, rfl⟩ := ih hrest
      refine ⟨j? :: whole, ?_, rfl⟩
      simp only [List.mapM_cons, hj?, hwhole, Option.bind_eq_bind, Option.bind_some,
        Option.pure_def]

end Json

open Json

variable {R : Float → Prop}

/-! ## Guesses -/

namespace Guess

theorem demands_masses {κ : Type} [Ord κ] {key : String → Option κ} (name : κ → String)
    (masses : List (κ × Float)) :
    Demands (table? key real?) (.object (masses.map fun p => (name p.1, .real p.2))) := by
  refine demands_table fun p hp => ?_
  obtain ⟨q, -, rfl⟩ := List.mem_map.mp hp
  exact demands_real q.2

theorem exists_parts_of_decodeTo? {fuel : Nat} {j : Json} {g : Guess}
    (h : decodeTo? fuel j = some g) : ∃ parts, record? fieldNames j = some parts := by
  cases fuel with
  | zero => cases h
  | succ depth =>
      rw [decodeTo?] at h
      obtain ⟨parts, hparts, -⟩ := Option.bind_eq_some_iff.mp h
      exact ⟨parts, hparts⟩

/-- Where a guess was read, so was each of its parts. -/
theorem decodeTo?_eq_some {fuel : Nat} {j : Json} {g : Guess}
    {isAny kind shape items classes : Option Json} (h : decodeTo? fuel j = some g)
    (hparts : record? fieldNames j = some [isAny, kind, shape, items, classes]) :
    ∃ depth, (∃ a, defaulted? [] decodeMass? kind = some a) ∧
      (∃ a, defaulted? none (nullable? (table? some (decodeTo? depth))) shape = some a) ∧
        (∃ a, defaulted? none (nullable? (decodeTo? depth)) items = some a) ∧
          ∃ a, defaulted? none decodeClasses? classes = some a := by
  cases fuel with
  | zero => cases h
  | succ depth =>
      rw [decodeTo?, hparts] at h
      simp only [Option.bind_eq_bind, Option.bind_some, Option.bind_eq_some_iff] at h
      obtain ⟨_, _, mass, hmass, fs, hshape, g', hitems, cs, hclasses, -⟩ := h
      exact ⟨depth, ⟨mass, hmass⟩, ⟨fs, hshape⟩, ⟨g', hitems⟩, ⟨cs, hclasses⟩⟩

/-- **A guess is read only if all of what was written of it is there.** -/
theorem demands_decodeTo? {g : Guess} (h : g.Formed R) :
    ∀ fuel, Demands (decodeTo? fuel) (encode g) := by
  -- Of the hypothesis only this is used, that it goes down into every property and the items.
  induction h with
  | any =>
      intro fuel d g' h _
      obtain ⟨parts, hparts⟩ := exists_parts_of_decodeTo? h
      obtain ⟨hd, whole, hwhole, rfl⟩ := record?_kept hparts
      obtain rfl := Option.some.inj (record?_encode_any.symm.trans hwhole)
      obtain ⟨_, ⟨mass, hmass⟩, -⟩ := decodeTo?_eq_some h hparts
      refine fits_object hd ?_
      simp only [List.forall_mem_cons]
      exact ⟨hd, demands_masses Kind.name [] (d + 1) mass hmass hd, List.forall_mem_nil _⟩
  | @known mass shape items classes _ _ _ _ _ _ _ ihfields ihitem =>
      intro fuel d g' h _
      have hrecord := record?_encode mass shape items classes
      obtain ⟨parts, hparts⟩ := exists_parts_of_decodeTo? h
      rw [encode] at h hparts hrecord ⊢
      obtain ⟨hd, whole, hwhole, rfl⟩ := record?_kept hparts
      obtain rfl := Option.some.inj (hrecord.symm.trans hwhole)
      obtain ⟨depth, ⟨mass', hmass⟩, ⟨fs', hshape⟩, ⟨item', hitems⟩, cs', hclasses⟩ :=
        decodeTo?_eq_some h hparts
      refine fits_object hd ?_
      have hfitsMass : Fits (d + 1) (encodeMass mass) :=
        demands_masses Kind.name mass (d + 1) mass' hmass hd
      have hfitsShape : ∀ p ∈ encodeShape shape, Fits (d + 1) p.2 := by
        cases shape with
        | none => exact List.forall_mem_nil _
        | some fs =>
            rw [encodeShape, encodeFields_eq]
            refine List.forall_mem_singleton.mpr (demands_nullable ?_ (d + 1) fs' hshape hd)
            exact demands_table (List.forall_mem_map.mpr fun p hp => ihfields fs rfl p hp depth)
      have hfitsItems : ∀ p ∈ encodeItems items, Fits (d + 1) p.2 := by
        cases items with
        | none => exact List.forall_mem_nil _
        | some g =>
            refine List.forall_mem_singleton.mpr ?_
            exact demands_nullable (ihitem g rfl depth) (d + 1) item' hitems hd
      have hfitsClasses : ∀ p ∈ encodeClasses classes, Fits (d + 1) p.2 := by
        cases classes with
        | none => exact List.forall_mem_nil _
        | some cs =>
            refine List.forall_mem_singleton.mpr ?_
            exact demands_nullable (demands_masses id cs) (d + 1) cs' hclasses hd
      simp only [List.forall_mem_append, List.forall_mem_cons]
      exact ⟨⟨⟨⟨hd, hfitsMass, List.forall_mem_nil _⟩, hfitsShape⟩, hfitsItems⟩, hfitsClasses⟩

theorem demands_decode? {g : Guess} (h : g.Formed R) : Demands decode? (encode g) :=
  fun d g' hread hd => demands_decodeTo? h _ d g' hread hd

end Guess

/-! ## Entries and schemas -/

namespace Entry

theorem demands_decode? {e : Entry} (h : e.Formed R) : Demands decode? e.encode := by
  obtain ⟨args, ret, convention, builtin⟩ := e
  intro d e' hread _
  have hargs : Demands (list? Guess.decode?) (.array (args.map Guess.encode)) :=
    demands_list (List.forall_mem_map.mpr fun g hg => Guess.demands_decode? (h.args g hg))
  rw [decode?] at hread
  rw [encode] at hread ⊢
  obtain ⟨parts, hparts, hread⟩ := Option.bind_eq_some_iff.mp hread
  obtain ⟨hd, whole, hwhole, rfl⟩ := record?_kept hparts
  have hrecord : whole = [some (.array (args.map Guess.encode)), some ret.encode,
      some convention.encode, if builtin then some (.bool true) else none] := by
    refine Option.some.inj (hwhole.symm.trans ?_)
    cases builtin <;> rfl
  subst hrecord
  simp only [List.map_cons, List.map_nil, Option.bind_eq_bind, Option.bind_eq_some_iff] at hread
  obtain ⟨args', hargs', ret', hret', -⟩ := hread
  have hbuiltin : ∀ p ∈ (if builtin then [("builtin", Json.bool true)] else []),
      Fits (d + 1) p.2 := by
    cases builtin with
    | false => exact List.forall_mem_nil _
    | true => exact List.forall_mem_singleton.mpr hd
  refine fits_object hd ?_
  simp only [List.forall_mem_append, List.forall_mem_cons]
  exact ⟨⟨hargs (d + 1) args' hargs' hd,
    Guess.demands_decode? h.ret (d + 1) ret' hret' hd, hd, List.forall_mem_nil _⟩, hbuiltin⟩

end Entry

namespace Schema

theorem demands_decode? {s : Schema} (h : s.Formed R) : Demands decode? s.encode := by
  intro d s' hread _
  rw [encode] at hread ⊢
  obtain ⟨hd, hkept⟩ := kept_object d (s.entries.map fun p => (p.1, p.2.encode)) fun hrefused => by
    rw [hrefused] at hread
    cases hread
  rw [hkept, decode?, fields?, Option.bind_eq_bind, Option.bind_some] at hread
  obtain ⟨entries, hentries, -⟩ := Option.bind_eq_some_iff.mp hread
  refine fits_object hd fun p hp => ?_
  obtain ⟨q, hq⟩ := exists_of_mapM hentries _ (List.mem_map_of_mem hp)
  obtain ⟨e, he, -⟩ := Option.bind_eq_some_iff.mp hq
  obtain ⟨q, hmem, rfl⟩ := List.mem_map.mp hp
  exact Entry.demands_decode? (h q hmem) (d + 1) e he hd

end Schema

end ApiSurface
