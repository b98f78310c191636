/-
# `ApiSurface.Proofs.Declaration.Rendered` — types written as tokens

A rendering of the types that are built from keywords, texts, truth values, names with type
arguments, arrays, tuples, `keyof`, unions and intersections.  Parentheses stand only around a type
that binds more loosely than the place it stands in (`enclosed`).

A rendering is well-nested, and no colon, no arrow and no `new` stands in it (`grouped_tokens`,
`Grouped.quiet`); so a group that it begins with is not followed by an arrow
(`arrowAfter_eq_false`).  Its first token is one that a type may begin with (`begins_tokens`).
Which punctuators may come after it depends on how loosely it may bind (`Stops`).
-/
import ApiSurface.Proofs.Declaration.Passes

namespace ApiSurface.Declaration

/-! ## Rendering -/

/-- How loosely a type binds: `keyof` more than what stands alone or ends in brackets, an
intersection more than that, a union most. -/
def TypeExpr.looseness : TypeExpr → Nat
  | .keyof _ => 1
  | .intersection _ => 2
  | .union _ => 3
  | _ => 0

/-- The tokens of a type where at most the given looseness is allowed: in parentheses if the type
is looser. -/
def enclosed (bound : Nat) (ty : TypeExpr) (ks : List TokenKind) : List TokenKind :=
  if bound < ty.looseness then .punct .openParen :: (ks ++ [.punct .closeParen]) else ks

/-- The segments of a name, joined by dots. -/
def nameTokens (name : List String) : List TokenKind :=
  [.punct .dot].intercalate (name.map fun w => [.word w])

/-- Type arguments in angles, or nothing. -/
def angled : List (List TokenKind) → List TokenKind
  | [] => []
  | args => .punct .less :: ([.punct .comma].intercalate args ++ [.punct .greater])

/-- An item of a tuple with its marks. -/
def marked (optional rest : Bool) (ks : List TokenKind) : List TokenKind :=
  (if rest then [.punct .ellipsis] else []) ++ (ks ++ if optional then [.punct .question] else [])

mutual

/-- The rendering of a type. -/
def TypeExpr.tokens : TypeExpr → List TokenKind
  | .keyword k => [.word k.word]
  | .textLiteral s => [.text s]
  | .boolLiteral b => [.word (if b then "true" else "false")]
  | .ref name args => nameTokens name ++ angled (tokensOfAll 3 args)
  | .array item => enclosed 0 item item.tokens ++ [.punct .openBracket, .punct .closeBracket]
  | .tuple items =>
    .punct .openBracket ::
      ([.punct .comma].intercalate (tokensOfItems items) ++ [.punct .closeBracket])
  | .keyof ty => .word "keyof" :: enclosed 1 ty ty.tokens
  | .union members => [.punct .bar].intercalate (tokensOfAll 2 members)
  | .intersection members => [.punct .ampersand].intercalate (tokensOfAll 1 members)
  | _ => []

/-- The renderings of types at places of one kind. -/
def tokensOfAll (bound : Nat) : List TypeExpr → List (List TokenKind)
  | [] => []
  | ty :: tys => enclosed bound ty ty.tokens :: tokensOfAll bound tys

/-- The renderings of the items of a tuple. -/
def tokensOfItems : List TupleItem → List (List TokenKind)
  | [] => []
  | .mk ty optional rest :: items => marked optional rest ty.tokens :: tokensOfItems items

end

/-- The rendering of a type at a place where at most the given looseness is allowed. -/
def TypeExpr.tokensIn (bound : Nat) (ty : TypeExpr) : List TokenKind :=
  enclosed bound ty ty.tokens

/-- The rendering of an item of a tuple. -/
def TupleItem.tokens : TupleItem → List TokenKind
  | mk ty optional rest => marked optional rest ty.tokens

theorem tokensOfAll_eq (bound : Nat) (tys : List TypeExpr) :
    tokensOfAll bound tys = tys.map (TypeExpr.tokensIn bound) := by
  induction tys with
  | nil => rfl
  | cons ty tys ih => rw [tokensOfAll, ih]; rfl

theorem tokensOfItems_eq (items : List TupleItem) :
    tokensOfItems items = items.map TupleItem.tokens := by
  induction items with
  | nil => rfl
  | cons item items ih =>
      obtain ⟨ty, optional, rest⟩ := item
      rw [tokensOfItems, ih]
      rfl

/-- Words with a meaning of their own where a type may begin. -/
def reservedWords : List String :=
  Keyword.all.map Keyword.word ++
    ["true", "false", "typeof", "keyof", "unique", "readonly", "infer", "new"]

/-- A type that has a rendering. -/
inductive TypeExpr.Plain : TypeExpr → Prop
  | keyword (k : Keyword) : Plain (.keyword k)
  | textLiteral (s : String) : Plain (.textLiteral s)
  | boolLiteral (b : Bool) : Plain (.boolLiteral b)
  | ref {name : List String} {args : List TypeExpr} : name ≠ [] → (∀ w ∈ name, w ∉ reservedWords) →
      (∀ arg ∈ args, Plain arg) → Plain (.ref name args)
  | array {item : TypeExpr} : Plain item → Plain (.array item)
  | tuple {items : List TupleItem} :
      (∀ ty optional rest, TupleItem.mk ty optional rest ∈ items → Plain ty) → Plain (.tuple items)
  | keyof {ty : TypeExpr} : Plain ty → Plain (.keyof ty)
  | union {members : List TypeExpr} : 2 ≤ members.length → (∀ ty ∈ members, Plain ty) →
      Plain (.union members)
  | intersection {members : List TypeExpr} : 2 ≤ members.length → (∀ ty ∈ members, Plain ty) →
      Plain (.intersection members)

theorem TypeExpr.tokensIn_of_le {bound : Nat} {ty : TypeExpr} (h : ty.looseness ≤ bound) :
    ty.tokensIn bound = ty.tokens :=
  if_neg (Nat.not_lt.mpr h)

theorem TypeExpr.tokensIn_of_lt {bound : Nat} {ty : TypeExpr} (h : bound < ty.looseness) :
    ty.tokensIn bound = .punct .openParen :: (ty.tokens ++ [.punct .closeParen]) :=
  if_pos h

/-- A place that allows one step more makes a difference only for types of that looseness. -/
theorem TypeExpr.tokensIn_succ {bound : Nat} {ty : TypeExpr} (h : ty.looseness ≠ bound + 1) :
    ty.tokensIn (bound + 1) = ty.tokensIn bound := by
  rcases Nat.lt_or_ge bound ty.looseness with hlt | hle
  · rw [tokensIn_of_lt hlt, tokensIn_of_lt (by omega)]
  · rw [tokensIn_of_le hle, tokensIn_of_le (by omega)]

/-! ## Well-nested tokens -/

/-- The punctuators of renderings that are no brackets. -/
def innerPuncts : List Punct :=
  [.ellipsis, .less, .greater, .comma, .question, .dot, .bar, .ampersand]

/-- Brackets match, and what stands in them and around them are tokens of renderings. -/
inductive Grouped : List TokenKind → Prop
  | nil : Grouped []
  | word {w : String} {ks : List TokenKind} : w ≠ "new" → Grouped ks → Grouped (.word w :: ks)
  | text {s : String} {ks : List TokenKind} : Grouped ks → Grouped (.text s :: ks)
  | punct {p : Punct} {ks : List TokenKind} : p ∈ innerPuncts → Grouped ks →
      Grouped (.punct p :: ks)
  | group {o e : Punct} {ks rest : List TokenKind} : o.opens = true → e.closes = true →
      Grouped ks → Grouped rest → Grouped (.punct o :: (ks ++ .punct e :: rest))

namespace Grouped

variable {ks ks' : List TokenKind}

theorem append (h : Grouped ks) (h' : Grouped ks') : Grouped (ks ++ ks') := by
  induction h with
  | nil => exact h'
  | word hw _ ih => exact .word hw ih
  | text _ ih => exact .text ih
  | punct hp _ ih => exact .punct hp ih
  | @group o e ks rest ho he hks _ _ ih =>
      rw [List.cons_append, List.append_assoc, List.cons_append]
      exact .group ho he hks ih

theorem intercalate {sep : Punct} (hsep : sep ∈ innerPuncts) {kss : List (List TokenKind)}
    (h : ∀ ks ∈ kss, Grouped ks) : Grouped ([.punct sep].intercalate kss) := by
  induction kss with
  | nil => exact .nil
  | cons ks kss ih =>
      have hfirst := h ks List.mem_cons_self
      have hrest := ih fun ks' hks' => h ks' (List.mem_cons_of_mem _ hks')
      cases kss with
      | nil => simpa using hfirst
      | cons ks' kss => simpa using hfirst.append (.punct hsep hrest)

theorem enclosed (bound : Nat) (ty : TypeExpr) (h : Grouped ks) :
    Grouped (Declaration.enclosed bound ty ks) := by
  unfold Declaration.enclosed
  split
  · exact .group rfl rfl h .nil
  · exact h

theorem angled {args : List (List TokenKind)} (h : ∀ ks ∈ args, Grouped ks) :
    Grouped (Declaration.angled args) := by
  cases args with
  | nil => exact .nil
  | cons arg args =>
      have hargs : Grouped ([.punct .comma].intercalate (arg :: args)) :=
        .intercalate (by decide) h
      exact .punct (by decide) (hargs.append (.punct (by decide) .nil))

theorem marked (optional rest : Bool) (h : Grouped ks) :
    Grouped (Declaration.marked optional rest ks) := by
  have hquestion : Grouped (if optional then [.punct .question] else []) := by
    cases optional
    · exact .nil
    · exact .punct (by decide) .nil
  cases rest
  · exact h.append hquestion
  · exact .punct (by decide) (h.append hquestion)

end Grouped

theorem grouped_nameTokens {name : List String} (h : ∀ w ∈ name, w ∉ reservedWords) :
    Grouped (nameTokens name) := by
  refine .intercalate (by decide) fun ks hks => ?_
  obtain ⟨w, hw, rfl⟩ := List.mem_map.mp hks
  have hnew : w ≠ "new" := by
    rintro rfl
    exact h _ hw (by decide)
  exact .word hnew .nil

theorem grouped_tokens {ty : TypeExpr} (h : ty.Plain) : Grouped ty.tokens := by
  have hall : ∀ {bound : Nat} {tys : List TypeExpr}, (∀ ty ∈ tys, Grouped ty.tokens) →
      ∀ ks ∈ tokensOfAll bound tys, Grouped ks := by
    intro bound tys h ks hks
    rw [tokensOfAll_eq] at hks
    obtain ⟨ty, hty, rfl⟩ := List.mem_map.mp hks
    exact (h ty hty).enclosed bound ty
  induction h with
  | keyword k => exact .word (by cases k <;> decide) .nil
  | textLiteral s => exact .text .nil
  | boolLiteral b => exact .word (by cases b <;> decide) .nil
  | ref _ hname _ ih => exact (grouped_nameTokens hname).append (.angled (hall ih))
  | @array item _ ih => exact (ih.enclosed 0 item).append (.group rfl rfl .nil .nil)
  | @tuple items _ ih =>
      have hitems : ∀ ks ∈ tokensOfItems items, Grouped ks := by
        intro ks hks
        rw [tokensOfItems_eq] at hks
        obtain ⟨⟨ty, optional, rest⟩, hitem, rfl⟩ := List.mem_map.mp hks
        exact (ih ty optional rest hitem).marked optional rest
      exact .group rfl rfl (.intercalate (by decide) hitems) .nil
  | @keyof ty _ ih => exact .word (by decide) (ih.enclosed 1 ty)
  | union _ _ ih => exact .intercalate (by decide) (hall ih)
  | intersection _ _ ih => exact .intercalate (by decide) (hall ih)

/-- No token of a rendering is one that tells of anything but types. -/
theorem Grouped.quiet {ks : List TokenKind} (h : Grouped ks) :
    ∀ k ∈ ks, k ≠ .word "new" ∧ k ≠ .punct .colon ∧ k ≠ .punct .arrow := by
  induction h with
  | nil => exact nofun
  | word hw _ ih => exact List.forall_mem_cons.mpr ⟨by simpa using hw, ih⟩
  | text _ ih => exact List.forall_mem_cons.mpr ⟨by simp, ih⟩
  | @punct p ks hp _ ih =>
      refine List.forall_mem_cons.mpr ⟨⟨nofun, ?_, ?_⟩, ih⟩ <;> rintro ⟨⟩ <;> revert hp <;> decide
  | @group o e ks rest ho he _ _ ihks ihrest =>
      intro k hk
      simp only [List.mem_cons, List.mem_append] at hk
      rcases hk with rfl | hk | rfl | hk
      · refine ⟨nofun, ?_, ?_⟩ <;> rintro ⟨⟩ <;> cases ho
      · exact ihks k hk
      · refine ⟨nofun, ?_, ?_⟩ <;> rintro ⟨⟩ <;> cases he
      · exact ihrest k hk

/-! ## First tokens -/

/-- The words that act on what comes after them, `keyof` apart. -/
def operatorWords : List String :=
  ["new", "unique", "readonly", "infer"]

/-- Whether a type may begin with the token, if it may not begin with the given words. -/
def TokenKind.Starts (words : List String) : TokenKind → Prop
  | .punct p => p = .openParen ∨ p = .openBracket
  | .text _ => True
  | .word w => w ∉ words
  | _ => False

/-- The first token is one that a type may begin with. -/
def Begins (words : List String) (ks : List TokenKind) : Prop :=
  ∃ k rest, ks = k :: rest ∧ k.Starts words

namespace Begins

variable {words : List String} {ks : List TokenKind}

theorem append (h : Begins words ks) (ks' : List TokenKind) : Begins words (ks ++ ks') := by
  obtain ⟨k, rest, rfl, hk⟩ := h
  exact ⟨k, rest ++ ks', rfl, hk⟩

theorem intercalate (h : Begins words ks) (sep : TokenKind) (kss : List (List TokenKind)) :
    Begins words ([sep].intercalate (ks :: kss)) := by
  cases kss with
  | nil => simpa using h
  | cons ks' kss => simpa using h.append _

theorem enclosed (h : Begins words ks) (bound : Nat) (ty : TypeExpr) :
    Begins words (Declaration.enclosed bound ty ks) := by
  unfold Declaration.enclosed
  split
  · exact ⟨_, _, rfl, .inl rfl⟩
  · exact h

theorem tail {w : String} (h : Begins (w :: words) ks) : Begins words ks := by
  obtain ⟨k, rest, rfl, hk⟩ := h
  refine ⟨k, rest, rfl, ?_⟩
  cases k with
  | word v => exact fun hv => hk (List.mem_cons_of_mem w hv)
  | _ => exact hk

/-- What begins like a type does not begin with a punctuator that comes after one. -/
theorem exists_ne_punct (h : Begins words ks) {p : Punct} (hparen : p ≠ .openParen)
    (hbracket : p ≠ .openBracket) : ∃ k rest, ks = k :: rest ∧ k ≠ .punct p := by
  obtain ⟨k, rest, rfl, hk⟩ := h
  refine ⟨k, rest, rfl, ?_⟩
  rintro rfl
  exact hk.elim hparen hbracket

end Begins

/-- What binds most tightly does not begin with `keyof` either. -/
theorem begins_tokensIn_zero {ty : TypeExpr} (h : ty.Plain) :
    Begins ("keyof" :: operatorWords) (ty.tokensIn 0) := by
  induction h with
  | keyword k =>
      have hk : k.word ∉ "keyof" :: operatorWords := by cases k <;> decide
      exact ⟨_, _, rfl, hk⟩
  | textLiteral s => exact ⟨_, _, rfl, trivial⟩
  | boolLiteral b =>
      have hb : (if b then "true" else "false") ∉ "keyof" :: operatorWords := by
        cases b <;> decide
      exact ⟨_, _, rfl, hb⟩
  | @ref name args hne hname _ _ =>
      obtain ⟨w, ws, rfl⟩ := List.exists_cons_of_ne_nil hne
      have hsubset : "keyof" :: operatorWords ⊆ reservedWords := by decide
      have hw : Begins ("keyof" :: operatorWords) [.word w] :=
        ⟨_, _, rfl, fun hmem => hname w List.mem_cons_self (hsubset hmem)⟩
      exact (hw.intercalate _ _).append _
  | array _ ih => exact ih.append _
  | tuple => exact ⟨_, _, rfl, .inr rfl⟩
  | keyof | union | intersection => exact ⟨_, _, rfl, .inl rfl⟩

theorem begins_tokens {ty : TypeExpr} (h : ty.Plain) : Begins operatorWords ty.tokens := by
  have hfirst : ∀ {sep : TokenKind} {bound : Nat} {tys : List TypeExpr}, 2 ≤ tys.length →
      (∀ ty ∈ tys, Begins operatorWords ty.tokens) →
      Begins operatorWords ([sep].intercalate (tokensOfAll bound tys)) := by
    intro sep bound tys htwo h
    cases tys with
    | nil => cases htwo
    | cons ty tys => exact ((h ty List.mem_cons_self).enclosed bound ty).intercalate _ _
  induction h with
  | keyof =>
      have hkeyof : "keyof" ∉ operatorWords := by decide
      exact ⟨_, _, rfl, hkeyof⟩
  | union htwo _ ih => exact hfirst htwo ih
  | intersection htwo _ ih => exact hfirst htwo ih
  | keyword k => exact (begins_tokensIn_zero (.keyword k)).tail
  | textLiteral s => exact (begins_tokensIn_zero (.textLiteral s)).tail
  | boolLiteral b => exact (begins_tokensIn_zero (.boolLiteral b)).tail
  | ref hne hname hargs => exact (begins_tokensIn_zero (.ref hne hname hargs)).tail
  | array hitem => exact (begins_tokensIn_zero (.array hitem)).tail
  | tuple hitems => exact (begins_tokensIn_zero (.tuple hitems)).tail

theorem TypeExpr.looseness_le (ty : TypeExpr) : ty.looseness ≤ 3 := by
  cases ty <;> simp [looseness]

theorem TypeExpr.tokensIn_three (ty : TypeExpr) : ty.tokensIn 3 = ty.tokens :=
  tokensIn_of_le ty.looseness_le

theorem begins_tokensIn {ty : TypeExpr} (h : ty.Plain) (bound : Nat) :
    Begins operatorWords (ty.tokensIn bound) :=
  (begins_tokens h).enclosed bound ty

/-! ## Tokens at a cursor -/

/-- The next tokens are of the given kinds and on one line, and the other cursor is after them. -/
inductive Cursor.Shows : Cursor → List TokenKind → Cursor → Prop
  | nil (c : Cursor) : Shows c [] c
  | cons {t : Token} {ts : List Token} {finish : Token} {k : TokenKind} {ks : List TokenKind}
      {c' : Cursor} : t.kind = k → t.onNewLine = false → Shows ⟨ts, finish⟩ ks c' →
      Shows ⟨t :: ts, finish⟩ (k :: ks) c'

namespace Cursor

variable {c c' : Cursor} {k : TokenKind} {ks ks' : List TokenKind}

theorem shows_append_iff : c.Shows (ks ++ ks') c' ↔ ∃ d, c.Shows ks d ∧ d.Shows ks' c' := by
  constructor
  · intro h
    induction ks generalizing c with
    | nil => exact ⟨c, .nil c, h⟩
    | cons k ks ih =>
        cases h with
        | cons hk hline h =>
            obtain ⟨d, hd, hd'⟩ := ih h
            exact ⟨d, .cons hk hline hd, hd'⟩
  · rintro ⟨d, hd, hd'⟩
    induction hd with
    | nil => exact hd'
    | cons hk hline _ ih => exact .cons hk hline (ih hd')

theorem shows_of_map {ts : List Token} (hkinds : ts.map Token.kind = ks)
    (hline : ∀ t ∈ ts, t.onNewLine = false) (rest : List Token) (finish : Token) :
    Cursor.Shows ⟨ts ++ rest, finish⟩ ks ⟨rest, finish⟩ := by
  subst hkinds
  induction ts with
  | nil => exact .nil _
  | cons t ts ih =>
      exact .cons rfl (hline t List.mem_cons_self)
        (ih fun u hu => hline u (List.mem_cons_of_mem t hu))

theorem Shows.length_eq (h : c.Shows ks c') : c.rest.length = ks.length + c'.rest.length := by
  induction h with
  | nil => simp
  | cons _ _ _ ih => simp [ih]; omega

theorem Shows.finish_eq (h : c.Shows ks c') : c.finish = c'.finish := by
  induction h with
  | nil => rfl
  | cons _ _ _ ih => exact ih

theorem Shows.isPunct_eq_false {words : List String} (h : c.Shows ks c') (hbegins : Begins words ks)
    {p : Punct} (hparen : p ≠ .openParen) (hbracket : p ≠ .openBracket) :
    c.next.isPunct p = false := by
  obtain ⟨k, rest, rfl, hk⟩ := hbegins.exists_ne_punct hparen hbracket
  cases h with
  | cons ht _ _ => simpa [Token.isPunct, ht] using hk

theorem Shows.isTheWord_eq_false {words : List String} (h : c.Shows ks c')
    (hbegins : Begins words ks) {w : String} (hw : w ∈ words) : c.next.isTheWord w = false := by
  obtain ⟨k, rest, rfl, hk⟩ := hbegins
  cases h with
  | cons ht _ _ =>
      cases k with
      | word v =>
          have hne : v ≠ w := by
            rintro rfl
            exact hk hw
          simp [Token.isTheWord, Token.word?, ht, hne]
      | _ => simp [Token.isTheWord, Token.word?, ht]

/-- The next token is the first of the kinds, or the one after them. -/
theorem Shows.next {P : TokenKind → Prop} (h : c.Shows ks c') (hks : ∀ k ∈ ks, P k)
    (hnext : P c'.next.kind) : P c.next.kind := by
  cases h with
  | nil => exact hnext
  | cons hk _ _ => exact hk ▸ hks _ List.mem_cons_self

end Cursor

/-- How loose a type has to be for a punctuator to go on with it: names and type arguments go on
with dots and angles, arrays with brackets, intersections and unions with their operators, the items
of tuples with marks. -/
def Punct.reach : Punct → Nat
  | .dot | .less | .openParen | .arrow => 0
  | .openBracket => 1
  | .ampersand => 2
  | .bar => 3
  | .question | .colon => 4
  | _ => 5

/-- A token after a type of the given looseness that does not go on with it. -/
def Stops (bound : Nat) (k : TokenKind) : Prop :=
  ∃ p, k = .punct p ∧ bound < p.reach

namespace Stops

variable {bound : Nat} {t : Token}

theorem mono {bound' : Nat} {k : TokenKind} (h : Stops bound k) (hle : bound' ≤ bound) :
    Stops bound' k := by
  obtain ⟨p, hp, hlt⟩ := h
  exact ⟨p, hp, by omega⟩

theorem isPunct_eq_false (h : Stops bound t.kind) {p : Punct} (hp : p.reach ≤ bound) :
    t.isPunct p = false := by
  obtain ⟨q, hq, hlt⟩ := h
  have hne : q ≠ p := by
    rintro rfl
    omega
  simp [Token.isPunct, hq, hne]

theorem word?_eq_none (h : Stops bound t.kind) : t.word? = none := by
  obtain ⟨q, hq, -⟩ := h
  simp [Token.word?, hq]

theorem isTheWord_eq_false (h : Stops bound t.kind) (w : String) : t.isTheWord w = false := by
  simp [Token.isTheWord, h.word?_eq_none]

end Stops

/-! ## Groups and arrows -/

namespace Reader

variable {c c' : Cursor} {ks : List TokenKind}

theorem arrowAfter_of_shows (h : Grouped ks) {depth : Nat} (hdepth : 1 ≤ depth)
    (hshows : c.Shows ks c') : arrowAfter depth c.rest = arrowAfter depth c'.rest := by
  induction h generalizing c c' depth with
  | nil =>
      cases hshows
      rfl
  | word _ _ ih | text _ ih =>
      cases hshows with
      | cons hk _ hrest => simpa [arrowAfter, Token.opens, Token.closes, hk] using ih hdepth hrest
  | @punct p ks hp _ ih =>
      have hopens : p.opens = false := by revert hp; cases p <;> decide
      have hcloses : p.closes = false := by revert hp; cases p <;> decide
      cases hshows with
      | cons hk _ hrest =>
          simpa [arrowAfter, Token.opens, Token.closes, hk, hopens, hcloses] using ih hdepth hrest
  | @group o e ks rest ho he _ _ ihks ihrest =>
      have heopens : e.opens = false := by revert he; cases e <;> decide
      cases hshows with
      | cons hopen _ hinner =>
          obtain ⟨d, hks, hclose⟩ := Cursor.shows_append_iff.mp hinner
          cases hclose with
          | cons hclose _ hrest =>
              have hinside : arrowAfter (depth + 1) _ = arrowAfter (depth + 1) _ :=
                ihks (by omega) hks
              have hout : ¬ depth + 1 ≤ 1 := by omega
              simp only [arrowAfter, Token.opens, Token.closes, hopen, hclose, ho, he, heopens,
                if_true, if_neg Bool.false_ne_true, if_neg hout, Nat.add_sub_cancel] at hinside ⊢
              rw [hinside]
              exact ihrest hdepth hrest

/-- What begins with a group does not begin with parameters. -/
theorem arrowAfter_eq_false (h : Grouped ks) (hshows : c.Shows ks c')
    (hstop : Stops 0 c'.next.kind) (hopen : c.next.kind = .punct .openParen) :
    arrowAfter 0 c.rest = false := by
  have hnext : c'.next.kind ≠ .punct .arrow := by
    have := hstop.isPunct_eq_false (p := .arrow) (Nat.le_refl 0)
    simpa [Token.isPunct] using this
  cases h with
  | nil =>
      cases hshows
      have := hstop.isPunct_eq_false (p := .openParen) (Nat.le_refl 0)
      simp [Token.isPunct, hopen] at this
  | word | text =>
      cases hshows with
      | cons hk _ _ => cases hk.symm.trans hopen
  | punct hp =>
      cases hshows with
      | cons hk _ _ =>
          cases hk.symm.trans hopen
          exact absurd hp (by decide)
  | @group o e ks rest ho he hks hrest =>
      have heopens : e.opens = false := by revert he; cases e <;> decide
      cases hshows with
      | @cons t ts _ _ _ _ hk _ hinner =>
          obtain ⟨d, hinside, hclose⟩ := Cursor.shows_append_iff.mp hinner
          cases hclose with
          | @cons u us _ _ _ _ hu _ hafter =>
              have harrow := hafter.next (fun k hk => (hrest.quiet k hk).2.2) hnext
              have hgroup : arrowAfter 0 (t :: ts) = arrowAfter 1 (u :: us) := by
                rw [← arrowAfter_of_shows hks (Nat.le_refl 1) hinside]
                simp [arrowAfter, Token.opens, hk, ho]
              have hhead : (us.head?.map fun u => u.isPunct .arrow).getD false = false := by
                cases us with
                | nil => rfl
                | cons v vs => simpa [Token.isPunct] using harrow
              rw [hgroup]
              simpa [arrowAfter, Token.opens, Token.closes, hu, he, heopens] using hhead

end Reader

end ApiSurface.Declaration
