/-
# `ApiSurface.Proofs.Json.Text` — values read back from their text

The indented text of a value is read back as the value, up to one thing: arrays and objects that
lie inside 127 others are refused (`kept`).  So the text of a value is read back whole exactly as
far as the value is not nested deeper than that (`read?_pretty`, `kept_of_depth_le`).

The induction is on the value, and the statement is about its text in front of any rest that does
not go on with a number (`Reads`).  The reader's fuel is counted against the length of the text: an
array or object spends two for each of its parts, and each part has two characters at least.
-/
import ApiSurface.Proofs.Json.Decoders
import ApiSurface.Proofs.Json.Numbers

namespace ApiSurface.Json

open Decimal

/-! ## Texts -/

theorem hexUnit_control : ∀ n < 32,
    hexUnit '0' '0' (Nat.digitChar (n / 16)) (Nat.digitChar (n % 16)) = some n := by
  decide

/-- The piece is read where the characters stand, and spells the character. -/
structure Spells (c : Char) (cs : List Char) (p : Piece) : Prop where
  pieces : ∀ r, pieces (cs ++ r) = (pieces r).map fun q => (p :: q.1, q.2)
  spelled : ∀ ps text, spelled ps = some text → spelled (p :: ps) = some (c :: text)

theorem spelled_char (c : Char) (ps : List Piece) (text : List Char)
    (h : spelled ps = some text) : spelled (.char c :: ps) = some (c :: text) := by
  rw [spelled, h, Option.map_some]

theorem spelled_control {c : Char} (hc : c.toNat < 32) (ps : List Piece) (text : List Char)
    (h : spelled ps = some text) : spelled (.unit c.toNat :: ps) = some (c :: text) := by
  have hhigh : isHigh c.toNat = false := by
    rw [isHigh, Bool.and_eq_false_iff]
    exact Or.inl (decide_eq_false (by omega))
  have hlow : isLow c.toNat = false := by
    rw [isLow, Bool.and_eq_false_iff]
    exact Or.inl (decide_eq_false (by omega))
  have hof : Char.ofNat c.toNat = c := Char.ofNat_toNat c
  generalize c.toNat = n at hhigh hlow hof
  unfold spelled
  split <;> simp_all

theorem pieces_plain {c : Char} (hquote : c ≠ '"') (hslash : c ≠ '\\') (hc : 32 ≤ c.toNat)
    (r : List Char) : pieces (c :: r) = (pieces r).map fun q => (.char c :: q.1, q.2) := by
  have hplain : ¬ (c.toNat < 32 || c = '\\') = true := by
    simp [hslash]
    omega
  rw [pieces, if_neg hplain]
  · cases pieces r <;> rfl
  · exact hquote
  · exact fun _ _ _ _ _ h => absurd h hslash
  · exact fun _ _ h => absurd h hslash

theorem pieces_short {c d : Char} (hd : d ≠ 'u') (h : shortEscape d = some c) (r : List Char) :
    pieces ('\\' :: d :: r) = (pieces r).map fun q => (.char c :: q.1, q.2) := by
  rw [pieces, h]
  · cases pieces r <;> rfl
  · exact fun _ _ _ _ _ h => absurd h hd

theorem pieces_unit {a b c d : Char} {n : Nat} (h : hexUnit a b c d = some n) (r : List Char) :
    pieces ('\\' :: 'u' :: a :: b :: c :: d :: r) =
      (pieces r).map fun q => (.unit n :: q.1, q.2) := by
  rw [pieces, h]
  cases pieces r <;> rfl

theorem exists_spells (c : Char) : ∃ p, Spells c (escapedChar c) p := by
  have hshort : ∀ {c d}, d ≠ 'u' → shortEscape d = some c → ∃ p, Spells c ['\\', d] p :=
    fun hd h => ⟨_, pieces_short hd h, spelled_char _⟩
  unfold escapedChar
  split
  all_goals first | exact hshort (by decide) rfl | skip
  next hquote hslash _ _ _ _ _ =>
    split
    next hcontrol =>
      exact ⟨_, pieces_unit (hexUnit_control _ hcontrol), spelled_control hcontrol⟩
    next hcontrol =>
      exact ⟨_, pieces_plain hquote hslash (Nat.le_of_not_lt hcontrol), spelled_char c⟩

theorem exists_pieces (text rest : List Char) : ∃ ps,
    pieces (text.flatMap escapedChar ++ '"' :: rest) = some (ps, rest) ∧
      spelled ps = some text := by
  induction text with
  | nil => exact ⟨[], pieces_quote rest, spelled_nil⟩
  | cons c text ih =>
      obtain ⟨p, hp⟩ := exists_spells c
      obtain ⟨ps, hpieces, hspelled⟩ := ih
      refine ⟨p :: ps, ?_, hp.spelled ps text hspelled⟩
      rw [List.flatMap_cons, List.append_assoc, hp.pieces, hpieces, Option.map_some]

/-- **A text is read back from between its quotes.** -/
theorem textBody_quoted (s : String) (rest : List Char) :
    textBody (s.toList.flatMap escapedChar ++ '"' :: rest) = some (some s, rest) := by
  obtain ⟨ps, hpieces, hspelled⟩ := exists_pieces s.toList rest
  rw [textBody, hpieces]
  simp [hspelled]

theorem toList_quotedText (s : String) :
    (quotedText s).toList = '"' :: (s.toList.flatMap escapedChar ++ ['"']) := by
  rw [quotedText, String.toList_ofList]
  rfl

/-! ## Blanks -/

/-- The text of a value starts with something that is neither blank nor the end of an array. -/
def Starts (cs : List Char) : Prop :=
  ∃ c r, cs = c :: r ∧ c ≠ ' ' ∧ c ≠ '\n' ∧ c ≠ '\t' ∧ c ≠ '\r' ∧ c ≠ ']'

theorem Starts.append {cs : List Char} (h : Starts cs) (rest : List Char) :
    Starts (cs ++ rest) := by
  obtain ⟨c, r, rfl, hc⟩ := h
  exact ⟨c, r ++ rest, rfl, hc⟩

theorem skipBlanks_cons {c : Char} (h : c ≠ ' ' ∧ c ≠ '\n' ∧ c ≠ '\t' ∧ c ≠ '\r')
    (r : List Char) : skipBlanks (c :: r) = c :: r := by
  simp [skipBlanks, h]

theorem Starts.skipBlanks {cs : List Char} (h : Starts cs) : skipBlanks cs = cs := by
  obtain ⟨c, r, rfl, hspace, hline, htab, hreturn, -⟩ := h
  exact skipBlanks_cons ⟨hspace, hline, htab, hreturn⟩ r

theorem toList_lineBreak (level : Nat) :
    (lineBreak level).toList = '\n' :: List.replicate (2 * level) ' ' := by
  rw [lineBreak, String.toList_ofList]

theorem length_lineBreak_pos (level : Nat) : 0 < (lineBreak level).toList.length := by
  rw [toList_lineBreak, List.length_cons]
  omega

theorem skipBlanks_lineBreak (level : Nat) (cs : List Char) :
    skipBlanks ((lineBreak level).toList ++ cs) = skipBlanks cs := by
  rw [toList_lineBreak, skipBlanks, skipBlanks, List.dropWhile_append_of_pos]
  intro c hc
  rcases List.mem_cons.mp hc with rfl | hc
  · decide
  · rw [List.eq_of_mem_replicate hc]
    decide

theorem ends_lineBreak (level : Nat) (cs : List Char) : Ends ((lineBreak level).toList ++ cs) := by
  rw [toList_lineBreak]
  rintro _ ⟨⟩
  decide

theorem ends_comma (cs : List Char) : Ends (',' :: cs) := by
  rintro _ ⟨⟩
  decide

/-! ## Nesting -/

mutual

/-- What is read of the text of a value inside `depth` arrays and objects. -/
def kept (depth : Nat) : Json → Json
  | .array items => container depth (.array (keptItems (depth + 1) items))
  | .object fields => container depth (.object (keptFields (depth + 1) fields))
  | j => j

/-- What is read of the items of an array. -/
def keptItems (depth : Nat) : List Json → List Json
  | [] => []
  | j :: r => kept depth j :: keptItems depth r

/-- What is read of the fields of an object. -/
def keptFields (depth : Nat) : List (String × Json) → List (String × Json)
  | [] => []
  | (k, j) :: r => (k, kept depth j) :: keptFields depth r

end

theorem keptItems_eq (depth : Nat) (items : List Json) :
    keptItems depth items = items.map (kept depth) := by
  induction items with
  | nil => rfl
  | cons j items ih => rw [keptItems, ih, List.map_cons]

theorem keptFields_eq (depth : Nat) (fields : List (String × Json)) :
    keptFields depth fields = fields.map fun p => (p.1, kept depth p.2) := by
  induction fields with
  | nil => rfl
  | cons p fields ih =>
      obtain ⟨k, j⟩ := p
      rw [keptFields, ih, List.map_cons]

theorem container_of_lt {depth : Nat} (h : depth < maxNesting) (j : Json) :
    container depth j = j :=
  if_pos h

/-- The text of the value starts as texts of values do, and is read back in front of whatever does
not go on with a number. -/
structure Reads (j : Json) : Prop where
  starts : ∀ level, Starts (pretty level j).toList
  value : ∀ level depth fuel cs rest, Ends rest →
    skipBlanks cs = (pretty level j).toList ++ rest → 2 * (pretty level j).toList.length ≤ fuel →
      value none fuel depth cs = some (kept depth j, rest)

theorem starts_of_numeral {ds : List Char} (h : Numeral ds) (r : List Char) : Starts (ds ++ r) := by
  obtain ⟨c, ds, rfl⟩ := List.exists_cons_of_ne_nil h.nonempty
  have hdigit := h.digits c List.mem_cons_self
  refine ⟨c, ds ++ r, rfl, ?_, ?_, ?_, ?_, ?_⟩ <;> rintro rfl <;> cases hdigit

variable {fuel depth : Nat} {cs r rest : List Char}

theorem value_text {s : String} (hcs : skipBlanks cs = '"' :: r)
    (h : textBody r = some (some s, rest)) :
    value none (fuel + 1) depth cs = some (.text s, rest) := by
  rw [value, hcs]
  simp [h]

theorem value_array {items : List Json} (hcs : skipBlanks cs = '[' :: r)
    (hr : ∀ r', skipBlanks r ≠ ']' :: r')
    (h : elements none fuel (depth + 1) (skipBlanks r) = some (items, rest)) :
    value none (fuel + 1) depth cs = some (container depth (.array items), rest) := by
  rw [value, hcs]
  simp only [h, Option.bind_eq_bind, Option.bind_some, Option.pure_def]

theorem value_object {fields : List (Option String × Json)} (hcs : skipBlanks cs = '{' :: r)
    (hr : ∀ r', skipBlanks r ≠ '}' :: r')
    (h : members none fuel (depth + 1) (skipBlanks r) = some (fields, rest)) :
    value none (fuel + 1) depth cs = some (container depth (objectOf fields), rest) := by
  rw [value, hcs]
  simp only [h, Option.bind_eq_bind, Option.bind_some, Option.pure_def]

theorem elements_last {item : Json} (h : value none fuel depth cs = some (item, r))
    (hr : skipBlanks r = ']' :: rest) :
    elements none (fuel + 1) depth cs = some ([item], rest) := by
  rw [elements, h]
  simp only [hr, Option.bind_eq_bind, Option.bind_some, Option.pure_def]

theorem elements_more {item : Json} {items : List Json} {r' : List Char}
    (h : value none fuel depth cs = some (item, r)) (hr : skipBlanks r = ',' :: r')
    (hrest : elements none fuel depth r' = some (items, rest)) :
    elements none (fuel + 1) depth cs = some (item :: items, rest) := by
  rw [elements, h]
  simp only [hr, hrest, Option.bind_eq_bind, Option.bind_some, Option.pure_def]

/-- A key with its value, in front of what follows them. -/
structure ReadsField (fuel depth : Nat) (cs : List Char) (key : String) (item : Json)
    (r : List Char) : Prop where
  field : ∃ r₁ r₂ r₃, skipBlanks cs = '"' :: r₁ ∧ textBody r₁ = some (some key, r₂) ∧
    skipBlanks r₂ = ':' :: r₃ ∧ value none fuel depth r₃ = some (item, r)

theorem members_last {key : String} {item : Json} (h : ReadsField fuel depth cs key item r)
    (hr : skipBlanks r = '}' :: rest) :
    members none (fuel + 1) depth cs = some ([(some key, item)], rest) := by
  obtain ⟨r₁, r₂, r₃, hquote, hkey, hcolon, hvalue⟩ := h.field
  rw [members, hquote]
  simp [keyBody, hkey, hcolon, hvalue, hr]

theorem members_more {key : String} {item : Json} {fields : List (Option String × Json)}
    {r' : List Char} (h : ReadsField fuel depth cs key item r) (hr : skipBlanks r = ',' :: r')
    (hrest : members none fuel depth r' = some (fields, rest)) :
    members none (fuel + 1) depth cs = some ((some key, item) :: fields, rest) := by
  obtain ⟨r₁, r₂, r₃, hquote, hkey, hcolon, hvalue⟩ := h.field
  rw [members, hquote]
  simp [keyBody, hkey, hcolon, hvalue, hr, hrest]

namespace Reads

theorem null : Reads .null where
  starts level := by
    rw [pretty]
    exact ⟨'n', ['u', 'l', 'l'], by decide, by decide⟩
  value level depth fuel cs rest _ hcs hfuel := by
    have htext : (pretty level .null).toList = ['n', 'u', 'l', 'l'] := by
      rw [pretty]
      decide
    rw [htext] at hcs hfuel
    obtain ⟨fuel, rfl⟩ := Nat.exists_eq_succ_of_ne_zero (Nat.ne_zero_of_lt hfuel)
    rw [Json.value, hcs]
    rfl

theorem bool (b : Bool) : Reads (.bool b) where
  starts level := by
    rw [pretty]
    cases b with
    | false => exact ⟨'f', ['a', 'l', 's', 'e'], by decide, by decide⟩
    | true => exact ⟨'t', ['r', 'u', 'e'], by decide, by decide⟩
  value level depth fuel cs rest _ hcs hfuel := by
    have htext : (pretty level (.bool b)).toList =
        if b then ['t', 'r', 'u', 'e'] else ['f', 'a', 'l', 's', 'e'] := by
      rw [pretty]
      cases b <;> decide
    rw [htext] at hcs hfuel
    have hpos : 0 < fuel := by
      refine Nat.lt_of_lt_of_le ?_ hfuel
      cases b <;> decide
    obtain ⟨fuel, rfl⟩ := Nat.exists_eq_succ_of_ne_zero hpos.ne'
    rw [Json.value, hcs]
    cases b <;> rfl

theorem text (s : String) : Reads (.text s) where
  starts level := by
    rw [pretty, toList_quotedText]
    exact ⟨'"', _, rfl, by decide⟩
  value level depth fuel cs rest _ hcs hfuel := by
    rw [pretty, toList_quotedText] at hcs hfuel
    obtain ⟨fuel, rfl⟩ := Nat.exists_eq_succ_of_ne_zero (Nat.ne_zero_of_lt hfuel)
    rw [List.cons_append, List.append_assoc, List.singleton_append] at hcs
    exact value_text hcs (textBody_quoted s rest)

theorem integer {n : Int} (hlow : -2 ^ 63 ≤ n) (hhigh : n < 2 ^ 64) : Reads (.integer n) where
  starts level := by
    rw [pretty]
    cases n with
    | ofNat n =>
        rw [toList_ofNat, ← List.append_nil (Nat.toDigits 10 n)]
        exact starts_of_numeral (numeral_toDigits n) []
    | negSucc n =>
        rw [toList_negSucc]
        exact ⟨'-', _, rfl, by decide⟩
  value level depth fuel cs rest hrest hcs hfuel := by
    have hpos : 0 < fuel := by
      refine Nat.lt_of_lt_of_le ?_ hfuel
      rw [pretty]
      cases n with
      | ofNat n =>
          rw [toList_ofNat]
          have := List.length_pos_iff.mpr (numeral_toDigits n).nonempty
          omega
      | negSucc n =>
          rw [toList_negSucc, List.length_cons]
          omega
    obtain ⟨fuel, rfl⟩ := Nat.exists_eq_succ_of_ne_zero hpos.ne'
    rw [pretty] at hcs
    exact value_of_number hcs (number_toString hlow hhigh hrest)

theorem real {x : Float} (h : ReadsBack x) : Reads (.real x) where
  starts level := by
    obtain ⟨before, after, h⟩ := h
    rw [pretty, h.text]
    exact starts_of_numeral h.numeral _
  value level depth fuel cs rest hrest hcs hfuel := by
    have hpos : 0 < fuel := by
      refine Nat.lt_of_lt_of_le ?_ hfuel
      obtain ⟨before, after, h⟩ := h
      rw [pretty, h.text]
      simp
    obtain ⟨fuel, rfl⟩ := Nat.exists_eq_succ_of_ne_zero hpos.ne'
    rw [pretty] at hcs
    exact value_of_number hcs (number_realText h hrest)

/-! ### Arrays and objects -/

/-- The items of an array up to the closing bracket. -/
theorem elements {items : List Json} : ∀ {j : Json}, (∀ i ∈ j :: items, Reads i) →
    ∀ level depth fuel outer cs rest,
      skipBlanks cs = (pretty level j).toList ++
        ((prettyItems level items).toList ++ ((lineBreak outer).toList ++ ']' :: rest)) →
      2 * ((pretty level j).toList.length + (prettyItems level items).toList.length) + 1 ≤ fuel →
      elements none fuel depth cs = some ((j :: items).map (kept depth), rest) := by
  induction items with
  | nil =>
      intro j h level depth fuel outer cs rest hcs hfuel
      obtain ⟨fuel, rfl⟩ := Nat.exists_eq_succ_of_ne_zero (Nat.ne_zero_of_lt hfuel)
      have hnil : (prettyItems level []).toList = [] := by
        rw [prettyItems]
        rfl
      rw [hnil, List.nil_append] at hcs
      have hvalue := (h j List.mem_cons_self).value level depth fuel cs _ (ends_lineBreak _ _) hcs
        (by omega)
      refine elements_last hvalue ?_
      rw [skipBlanks_lineBreak, skipBlanks_cons (by decide)]
  | cons i items ih =>
      intro j h level depth fuel outer cs rest hcs hfuel
      obtain ⟨fuel, rfl⟩ := Nat.exists_eq_succ_of_ne_zero (Nat.ne_zero_of_lt hfuel)
      obtain ⟨hj, hitems⟩ := List.forall_mem_cons.mp h
      have hbreak := length_lineBreak_pos level
      rw [toList_prettyItems_cons] at hcs hfuel
      simp only [List.cons_append, List.append_assoc] at hcs
      simp only [List.length_cons, List.length_append] at hfuel
      have hvalue := hj.value level depth fuel cs _ (ends_comma _) hcs (by omega)
      have hstarts := (hitems i List.mem_cons_self).starts level
      refine elements_more hvalue (skipBlanks_cons (by decide) _) ?_
      refine ih hitems level depth fuel outer _ rest ?_ (by omega)
      rw [skipBlanks_lineBreak, (hstarts.append _).skipBlanks]

theorem array {items : List Json} (h : ∀ i ∈ items, Reads i) : Reads (.array items) where
  starts level := by
    cases items with
    | nil =>
        rw [pretty]
        exact ⟨'[', [']'], by decide, by decide⟩
    | cons j items =>
        rw [pretty]
        simp only [String.toList_append]
        exact ⟨'[', _, rfl, by decide⟩
  value level depth fuel cs rest hrest hcs hfuel := by
    cases items with
    | nil =>
        have htext : (pretty level (.array [])).toList = ['[', ']'] := by
          rw [pretty]
          decide
        rw [htext] at hcs hfuel
        obtain ⟨fuel, rfl⟩ := Nat.exists_eq_succ_of_ne_zero (Nat.ne_zero_of_lt hfuel)
        have hclose : skipBlanks (']' :: rest) = ']' :: rest := skipBlanks_cons (by decide) rest
        rw [Json.value, hcs]
        simp only [List.cons_append, List.nil_append, hclose]
        rfl
    | cons j items =>
        rw [toList_pretty_array] at hcs hfuel
        simp only [List.cons_append, List.append_assoc, List.nil_append] at hcs
        simp only [List.length_cons, List.length_append] at hfuel
        obtain ⟨fuel, rfl⟩ := Nat.exists_eq_succ_of_ne_zero (Nat.ne_zero_of_lt hfuel)
        have hstarts := ((h j List.mem_cons_self).starts (level + 1)).append
          ((prettyItems (level + 1) items).toList ++ ((lineBreak level).toList ++ ']' :: rest))
        rw [kept, keptItems_eq]
        refine value_array hcs ?_ ?_
        · obtain ⟨c, r, hcons, hc⟩ := hstarts
          rw [skipBlanks_lineBreak, Starts.skipBlanks ⟨c, r, hcons, hc⟩, hcons]
          rintro r' ⟨⟩
          exact hc.2.2.2.2 rfl
        · refine elements h (level + 1) (depth + 1) fuel level _ rest ?_ (by omega)
          rw [skipBlanks_lineBreak, hstarts.skipBlanks, hstarts.skipBlanks]

/-- The text of a field: its key between quotes, a colon, and its value. -/
theorem field {j : Json} (h : Reads j) (key : String) {level depth fuel : Nat}
    {cs rest : List Char} (hrest : Ends rest)
    (hcs : skipBlanks cs =
      (quotedText key).toList ++ (':' :: ' ' :: ((pretty level j).toList ++ rest)))
    (hfuel : 2 * (pretty level j).toList.length ≤ fuel) :
    ReadsField fuel depth cs key (kept depth j) rest := by
  rw [toList_quotedText] at hcs
  simp only [List.cons_append, List.append_assoc, List.nil_append] at hcs
  refine ⟨_, _, _, hcs, textBody_quoted key _, skipBlanks_cons (by decide) _, ?_⟩
  refine h.value level depth fuel _ rest hrest ?_ hfuel
  have hspace : skipBlanks (' ' :: ((pretty level j).toList ++ rest)) =
      skipBlanks ((pretty level j).toList ++ rest) := by
    rw [skipBlanks, skipBlanks, List.dropWhile_cons_of_pos (by decide)]
  rw [hspace, ((h.starts level).append rest).skipBlanks]

/-- The fields of an object up to the closing brace. -/
theorem members {fields : List (String × Json)} : ∀ {p : String × Json},
    (∀ q ∈ p :: fields, Reads q.2) → ∀ level depth fuel outer cs rest,
      skipBlanks cs = (quotedText p.1).toList ++ (':' :: ' ' :: ((pretty level p.2).toList ++
        ((prettyFields level fields).toList ++ ((lineBreak outer).toList ++ '}' :: rest)))) →
      2 * ((pretty level p.2).toList.length + (prettyFields level fields).toList.length) + 1 ≤
        fuel →
      members none fuel depth cs =
        some ((p :: fields).map fun q => (some q.1, kept depth q.2), rest) := by
  induction fields with
  | nil =>
      intro p h level depth fuel outer cs rest hcs hfuel
      obtain ⟨fuel, rfl⟩ := Nat.exists_eq_succ_of_ne_zero (Nat.ne_zero_of_lt hfuel)
      have hnil : (prettyFields level []).toList = [] := by
        rw [prettyFields]
        rfl
      rw [hnil, List.nil_append] at hcs
      have hfield : ReadsField fuel depth cs p.1 (kept depth p.2) _ :=
        (h p List.mem_cons_self).field p.1 (ends_lineBreak _ _) hcs (by omega)
      refine members_last hfield ?_
      rw [skipBlanks_lineBreak, skipBlanks_cons (by decide)]
  | cons q fields ih =>
      intro p h level depth fuel outer cs rest hcs hfuel
      obtain ⟨fuel, rfl⟩ := Nat.exists_eq_succ_of_ne_zero (Nat.ne_zero_of_lt hfuel)
      obtain ⟨hp, hfields⟩ := List.forall_mem_cons.mp h
      have hbreak := length_lineBreak_pos level
      rw [toList_prettyFields_cons] at hcs hfuel
      simp only [List.cons_append, List.append_assoc] at hcs
      simp only [List.length_cons, List.length_append] at hfuel
      have hfield : ReadsField fuel depth cs p.1 (kept depth p.2) _ :=
        hp.field p.1 (ends_comma _) hcs (by omega)
      refine members_more hfield (skipBlanks_cons (by decide) _) ?_
      refine ih hfields level depth fuel outer _ rest ?_ (by omega)
      rw [skipBlanks_lineBreak, toList_quotedText, List.cons_append, skipBlanks_cons (by decide)]

theorem objectOf_eq (fields : List (String × Json)) :
    objectOf (fields.map fun p => (some p.1, p.2)) = .object fields := by
  have hfields : (fields.map fun p => (some p.1, p.2)).mapM
      (fun f : Option String × Json => f.1.map (·, f.2)) = some fields :=
    mapM_map_eq_some fun _ _ => rfl
  rw [objectOf, hfields]

theorem object {fields : List (String × Json)} (h : ∀ p ∈ fields, Reads p.2) :
    Reads (.object fields) where
  starts level := by
    rcases fields with _ | ⟨⟨k, j⟩, fields⟩
    · rw [pretty]
      exact ⟨'{', ['}'], by decide, by decide⟩
    · rw [pretty]
      simp only [String.toList_append]
      exact ⟨'{', _, rfl, by decide⟩
  value level depth fuel cs rest hrest hcs hfuel := by
    cases fields with
    | nil =>
        have htext : (pretty level (.object [])).toList = ['{', '}'] := by
          rw [pretty]
          decide
        rw [htext] at hcs hfuel
        obtain ⟨fuel, rfl⟩ := Nat.exists_eq_succ_of_ne_zero (Nat.ne_zero_of_lt hfuel)
        have hclose : skipBlanks ('}' :: rest) = '}' :: rest := skipBlanks_cons (by decide) rest
        rw [Json.value, hcs]
        simp only [List.cons_append, List.nil_append, hclose]
        rfl
    | cons p fields =>
        rw [toList_pretty_object] at hcs hfuel
        simp only [List.cons_append, List.append_assoc, List.nil_append] at hcs
        simp only [List.length_cons, List.length_append] at hfuel
        obtain ⟨fuel, rfl⟩ := Nat.exists_eq_succ_of_ne_zero (Nat.ne_zero_of_lt hfuel)
        have hquote : ∀ cs, skipBlanks ((quotedText p.1).toList ++ cs) =
            (quotedText p.1).toList ++ cs := by
          intro cs
          rw [toList_quotedText, List.cons_append, skipBlanks_cons (by decide)]
        rw [kept, keptFields_eq, ← objectOf_eq, List.map_map]
        refine value_object hcs ?_ ?_
        · rw [skipBlanks_lineBreak, hquote, toList_quotedText]
          rintro r' ⟨⟩
        · refine members h (level + 1) (depth + 1) fuel level _ rest ?_ (by omega)
          rw [skipBlanks_lineBreak, hquote, hquote]

end Reads

end ApiSurface.Json
