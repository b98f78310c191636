/-
# `ApiSurface.Proofs.Declaration.ReadBack` — rendered types read as themselves

Every level of the grammar reads the renderings that it is for, provided the token after them does
not go on with what it reads (`Parses`).  A type that binds more tightly than a level is one that
the level below reads; one that binds more loosely stands in parentheses there, and is read as a
nested type.  So a type that is read at its own level is read at all of them (`ReadBack`), and the
induction over types is about that level alone (`readBack`).

Arrays are different: the brackets come after what they apply to, so a type before brackets is read
up to them, and what is left to do is to read brackets (`Bracketed`).
-/
import ApiSurface.Proofs.Declaration.Rendered

namespace ApiSurface.Declaration.Reader

variable {α : Type}

/-! ## Reading what is shown -/

/-- Where less than `b` tokens are left, the reader reads the tokens as the value and leaves off
after them, if the token there does not go on with them. -/
def Parses (b : Nat) (r : Reader α) (ks : List TokenKind) (bound : Nat) (a : α) : Prop :=
  ∀ c c', c.rest.length < b → c.Shows ks c' → Stops bound c'.next.kind → r c = .ok (a, c')

theorem Parses.mono {b b' bound bound' : Nat} {r : Reader α} {ks : List TokenKind} {a : α}
    (h : Parses b r ks bound a) (hb : b' ≤ b) (hbound : bound ≤ bound') :
    Parses b' r ks bound' a :=
  fun c c' hc hshows hstop => h c c' (by omega) hshows (hstop.mono hbound)

/-! ### Single tokens -/

section Tokens

variable {γ : Type} {c : Cursor}

@[simp]
theorem run_atPunct (p : Punct) (f : Bool → Reader γ) :
    (atPunct p >>= f) c = f (c.next.isPunct p) c :=
  rfl

@[simp]
theorem run_atWord (w : String) (f : Bool → Reader γ) :
    (atWord w >>= f) c = f (c.next.isTheWord w) c :=
  rfl

@[simp]
theorem run_arrowAhead (f : Bool → Reader γ) :
    (arrowAhead >>= f) c = f (arrowAfter 0 c.rest) c :=
  rfl

theorem expect_eq {p : Punct} (h : c.next.kind = .punct p) : expect p c = .ok ((), c.skip) :=
  if_pos (by simp [Token.isPunct, h])

end Tokens

/-! ### Lists -/

/-- Items with separators between them. -/
theorem parses_itemsAfter {sep : Punct} {item : Reader α} {f : α → List TokenKind} {bound : Nat}
    (hsep : sep.reach = bound + 1) {x : α} {xs : List α} {b n : Nat} (hb : b ≤ n)
    (h : ∀ y ∈ x :: xs, Parses b item (f y) bound y) :
    Parses b (itemsAfter sep item n) ([.punct sep].intercalate ((x :: xs).map f)) (bound + 1)
      (x :: xs) := by
  induction xs generalizing x b n with
  | nil =>
      intro c c' hc hshows hstop
      obtain ⟨n, rfl⟩ := Nat.exists_eq_add_of_le' (show 1 ≤ n by omega)
      have hitem := h x List.mem_cons_self c c' hc (by simpa using hshows) (hstop.mono (by omega))
      have hnot : c'.next.isPunct sep = false := hstop.isPunct_eq_false (by omega)
      rw [itemsAfter, run_bind, hitem]
      simp [hnot]
  | cons y xs ih =>
      intro c c' hc hshows hstop
      obtain ⟨n, rfl⟩ := Nat.exists_eq_add_of_le' (show 1 ≤ n by omega)
      have hsplit : [TokenKind.punct sep].intercalate ((x :: y :: xs).map f) =
          f x ++ (.punct sep :: [TokenKind.punct sep].intercalate ((y :: xs).map f)) := by
        simp
      rw [hsplit] at hshows
      obtain ⟨d, hfirst, hrest⟩ := Cursor.shows_append_iff.mp hshows
      have hlength := hfirst.length_eq
      cases hrest with
      | @cons t ts finish _ _ _ ht _ hrest =>
          have hstops : Stops bound (Cursor.next ⟨t :: ts, finish⟩).kind :=
            ⟨sep, ht, by omega⟩
          have hitem := h x List.mem_cons_self c _ hc hfirst hstops
          have hmore : Parses (b - 1) (itemsAfter sep item n) _ (bound + 1) (y :: xs) :=
            ih (by omega) fun z hz =>
              (h z (List.mem_cons_of_mem x hz)).mono (Nat.sub_le b 1) (Nat.le_refl bound)
          simp only [List.length_cons] at hlength
          have hrun := hmore ⟨ts, finish⟩ c' (by simp only; omega) hrest hstop
          rw [itemsAfter, run_bind, hitem]
          simp [Token.isPunct, ht, run_map, hrun]

/-- One item of a list in brackets, and the comma after it. -/
theorem run_itemsUntil {list : ListKind} {item : Reader α} {c d : Cursor} {x : α}
    (hopen : c.next.isPunct list.close = false) (hitem : item c = .ok (x, d))
    (hnext : d.next.isPunct .comma = true ∨ d.next.isPunct list.close = true) (n : Nat) :
    itemsUntil list item (n + 1) c = (List.cons x <$> itemsUntil list item n)
      (if d.next.isPunct .comma then d.skip else d) := by
  rw [itemsUntil, run_eat, hopen]
  simp only [if_neg Bool.false_ne_true]
  rw [run_bind, hitem]
  cases hcomma : d.next.isPunct .comma with
  | true => simp [hcomma]
  | false => simp [hcomma, hnext.resolve_left (Bool.eq_false_iff.mp hcomma)]

/-- Items of a list in brackets, and the bracket that closes it. -/
theorem parses_itemsUntil {list : ListKind} {item : Reader α} {f : α → List TokenKind} {b n : Nat}
    (hlist : list.close.reach = 5) {xs : List α} (hb : b ≤ n)
    (h : ∀ y ∈ xs, Parses b item (f y) 4 y)
    (hfirst : ∀ y ∈ xs, ∃ k ks, f y = k :: ks ∧ k ≠ .punct list.close) :
    Parses b (itemsUntil list item n)
      ([.punct .comma].intercalate (xs.map f) ++ [.punct list.close]) 0 xs := by
  induction xs generalizing b n with
  | nil =>
      intro c c' hc hshows hstop
      obtain ⟨n, rfl⟩ := Nat.exists_eq_add_of_le' (show 1 ≤ n by omega)
      cases hshows with
      | cons ht _ hrest =>
          cases hrest
          simp [itemsUntil, Token.isPunct, ht]
  | cons x xs ih =>
      intro c c' hc hshows hstop
      obtain ⟨n, rfl⟩ := Nat.exists_eq_add_of_le' (show 1 ≤ n by omega)
      have hsplit : [TokenKind.punct .comma].intercalate ((x :: xs).map f) ++
          [.punct list.close] = f x ++ ((if xs.isEmpty then [] else [.punct .comma]) ++
            ([TokenKind.punct .comma].intercalate (xs.map f) ++ [.punct list.close])) := by
        cases xs <;> simp
      rw [hsplit] at hshows
      obtain ⟨d, hd, hshows⟩ := Cursor.shows_append_iff.mp hshows
      obtain ⟨e, he, hshows⟩ := Cursor.shows_append_iff.mp hshows
      obtain ⟨k, ks, hx, hk⟩ := hfirst x List.mem_cons_self
      have hopen : c.next.isPunct list.close = false := by
        rw [hx] at hd
        cases hd with
        | cons ht _ _ => simpa [Token.isPunct, ht] using hk
      have hcomma : list.close ≠ .comma := by cases list <;> decide
      -- After the last item the bracket comes, and after any other a comma.
      have hafter : (if d.next.isPunct .comma then d.skip else d) = e ∧
          (d.next.isPunct .comma = true ∨ d.next.isPunct list.close = true) ∧
          Stops 4 d.next.kind := by
        cases xs with
        | nil =>
            cases he
            cases hshows with
            | cons ht _ _ => simp [Token.isPunct, ht, hcomma, Stops, hlist]
        | cons y ys =>
            cases he with
            | cons ht _ hend =>
                cases hend
                simp [Token.isPunct, ht, Stops, Punct.reach]
      obtain ⟨hskip, hnext, hstops⟩ := hafter
      have hlength := hd.length_eq
      have hfewer := he.length_eq
      rw [hx, List.length_cons] at hlength
      have hrest : Parses (b - 1) (itemsUntil list item n)
          ([.punct .comma].intercalate (xs.map f) ++ [.punct list.close]) 0 xs :=
        ih (by omega)
          (fun y hy => (h y (List.mem_cons_of_mem x hy)).mono (Nat.sub_le b 1) (Nat.le_refl 4))
          fun y hy => hfirst y (List.mem_cons_of_mem x hy)
      have hitem := h x List.mem_cons_self c d hc hd hstops
      rw [run_itemsUntil hopen hitem hnext, hskip, run_map,
        hrest e c' (by omega) hshows hstop]

theorem parses_listed (list : ListKind) {item : Reader α} {f : α → List TokenKind} {b : Nat}
    (hlist : list.close.reach = 5) {xs : List α} (h : ∀ y ∈ xs, Parses b item (f y) 4 y)
    (hfirst : ∀ y ∈ xs, ∃ k ks, f y = k :: ks ∧ k ≠ .punct list.close) :
    Parses b (listed list item)
      ([.punct .comma].intercalate (xs.map f) ++ [.punct list.close]) 0 xs := by
  intro c c' hc hshows hstop
  have hitems : ∀ y ∈ xs, Parses (c.rest.length + 1) item (f y) 4 y :=
    fun y hy => (h y hy).mono hc (Nat.le_refl 4)
  exact parses_itemsUntil hlist (Nat.le_refl _) hitems hfirst c c' (Nat.lt_succ_self _) hshows hstop

theorem parses_separated {sep : Punct} {item : Reader α} {f : α → List TokenKind} {bound b : Nat}
    (hsep : sep.reach = bound + 1) {xs : List α} (hne : xs ≠ [])
    (h : ∀ y ∈ xs, Parses b item (f y) bound y) :
    Parses b (separated sep item) ([.punct sep].intercalate (xs.map f)) (bound + 1) xs := by
  obtain ⟨x, xs, rfl⟩ := List.exists_cons_of_ne_nil hne
  intro c c' hc hshows hstop
  have hitems : ∀ y ∈ x :: xs, Parses (c.rest.length + 1) item (f y) bound y :=
    fun y hy => (h y hy).mono hc (Nat.le_refl bound)
  exact parses_itemsAfter hsep (Nat.le_refl _) hitems c c' (Nat.lt_succ_self _) hshows hstop

/-! ### Names and type arguments -/

theorem dottedRest_of_shows {ws : List String} {c c' : Cursor}
    (hshows : c.Shows (ws.flatMap fun w => [.punct .dot, .word w]) c')
    (hdot : c'.next.isPunct .dot = false) : dottedRest c.rest = (ws, c'.rest) := by
  induction ws generalizing c with
  | nil =>
      cases hshows
      obtain ⟨rest, finish⟩ := c'
      match rest with
      | [] | [t] => rfl
      | t :: u :: ts =>
          have ht : t.isPunct .dot = false := hdot
          simp [dottedRest, ht]
  | cons w ws ih =>
      cases hshows with
      | cons ht _ hshows =>
          cases hshows with
          | cons hu _ hshows =>
              have hrest := ih hshows
              simp only at hrest
              simp [dottedRest, Token.isPunct, Token.word?, ht, hu, hrest]

theorem nameTokens_cons (w : String) (ws : List String) :
    nameTokens (w :: ws) = .word w :: ws.flatMap fun w => [.punct .dot, .word w] := by
  induction ws generalizing w with
  | nil => rfl
  | cons v vs ih =>
      have hcons : nameTokens (w :: v :: vs) = .word w :: .punct .dot :: nameTokens (v :: vs) := by
        simp [nameTokens]
      rw [hcons, ih]
      rfl

theorem run_qualifiedName {name : List String} (hne : name ≠ []) {c c' : Cursor}
    (hshows : c.Shows (nameTokens name) c') (hdot : c'.next.isPunct .dot = false) :
    qualifiedName c = .ok (name, c') := by
  obtain ⟨w, ws, rfl⟩ := List.exists_cons_of_ne_nil hne
  rw [nameTokens_cons] at hshows
  cases hshows with
  | @cons t ts finish _ _ _ ht _ hshows =>
      have ht : (Cursor.next ⟨t :: ts, finish⟩).kind = .word w := ht
      have hrest := dottedRest_of_shows hshows hdot
      have hfinish := hshows.finish_eq
      simp only at hrest hfinish
      rw [qualifiedName, run_name ht]
      simp [hrest, hfinish]

variable {type : Reader TypeExpr} {b : Nat}

/-- Type arguments, where a name comes to its end. -/
theorem parses_typeArgs {args : List TypeExpr} (h : ∀ arg ∈ args, Parses b type arg.tokens 3 arg)
    (hplain : ∀ arg ∈ args, arg.Plain) :
    Parses (b + 1) (typeArgs type) (angled (tokensOfAll 3 args)) 0 args := by
  intro c c' hc hshows hstop
  cases args with
  | nil =>
      have hless : c'.next.isPunct .less = false := hstop.isPunct_eq_false (Nat.le_refl 0)
      cases hshows
      simp [typeArgs, hless]
  | cons arg args =>
      have htokens : angled (tokensOfAll 3 (arg :: args)) = .punct .less ::
          ([.punct .comma].intercalate ((arg :: args).map (TypeExpr.tokensIn 3)) ++
            [.punct ListKind.typeArgs.close]) := by
        rw [tokensOfAll_eq]
        rfl
      rw [htokens] at hshows
      cases hshows with
      | cons ht hline hshows =>
          have hitems : ∀ y ∈ arg :: args, Parses b type (y.tokensIn 3) 4 y := by
            intro y hy
            rw [y.tokensIn_three]
            exact (h y hy).mono (Nat.le_refl b) (by omega)
          have hlist := parses_listed .typeArgs rfl hitems fun y hy =>
            (begins_tokensIn (hplain y hy) 3).exists_ne_punct nofun nofun
          simp only [List.length_cons] at hc
          simp [typeArgs, Token.isPunct, ht, hline, hlist _ c' (by simp only; omega) hshows hstop]

/-! ### Items of tuples -/

/-- A mark that is there or not. -/
theorem run_eat_mark {p : Punct} {isThere : Bool} {c d : Cursor}
    (hshows : c.Shows (if isThere then [.punct p] else []) d)
    (hnot : isThere = false → d.next.isPunct p = false) (f : Bool → Reader α) :
    (eat p >>= f) c = f isThere d := by
  cases isThere with
  | false =>
      cases hshows
      simp [hnot rfl]
  | true =>
      cases hshows with
      | cons ht _ hend =>
          cases hend
          simp [Token.isPunct, ht]

/-- Where there is no colon, no label is read: the second token or the third would be one. -/
theorem not_labelled {ks : List TokenKind} {c c' : Cursor} (hne : ks ≠ [])
    (hquiet : ∀ k ∈ ks, k ≠ .punct .colon) (hshows : c.Shows ks c')
    (hstop : Stops 4 c'.next.kind) : ((c.ahead 1).isPunct .colon ||
      ((c.ahead 1).isPunct .question && (c.ahead 2).isPunct .colon)) = false := by
  have hend : c'.next.kind ≠ .punct .colon := by
    simpa [Token.isPunct] using hstop.isPunct_eq_false (p := .colon) (Nat.le_refl 4)
  cases hshows with
  | nil => exact absurd rfl hne
  | cons _ _ hshows =>
      have hrest := fun k hk => hquiet k (List.mem_cons_of_mem _ hk)
      have hsecond := hshows.next hrest hend
      cases hshows with
      | nil =>
          have hquestion := hstop.isPunct_eq_false (p := .question) (Nat.le_refl 4)
          rw [ahead_one_cons, hquestion]
          simpa [Token.isPunct] using hend
      | cons _ _ hshows =>
          have hthird := hshows.next (fun k hk => hrest k (List.mem_cons_of_mem _ hk)) hend
          simp only [ahead_one_cons, ahead_two_cons, Token.isPunct, hsecond, hthird]
          simp

theorem parses_tupleItem {ty : TypeExpr} (hplain : ty.Plain) (h : Parses b type ty.tokens 3 ty)
    (optional rest : Bool) :
    Parses b (tupleItem type) (marked optional rest ty.tokens) 4 (.mk ty optional rest) := by
  intro c c' hc hshows hstop
  have hbegins := begins_tokens hplain
  obtain ⟨d, hellipsis, hitem⟩ := Cursor.shows_append_iff.mp hshows
  have hgrouped := (grouped_tokens hplain).marked optional false
  have hne : ty.tokens ++ (if optional then [.punct .question] else []) ≠ [] := by
    obtain ⟨k, ks, heq, -⟩ := hbegins
    simp [heq]
  have hlabel := not_labelled hne (fun k hk => (hgrouped.quiet k hk).2.1) hitem hstop
  obtain ⟨e, htype, hquestion⟩ := Cursor.shows_append_iff.mp hitem
  have hrun : type d = .ok (ty, e) := by
    have := hellipsis.length_eq
    refine h d e (by omega) htype ?_
    cases optional with
    | false =>
        cases hquestion
        exact hstop.mono (by omega)
    | true =>
        cases hquestion with
        | cons ht _ _ => exact ⟨.question, ht, by decide⟩
  have hstart : ∀ f : Bool → Reader TupleItem, (eat .ellipsis >>= f) c = f rest d :=
    run_eat_mark hellipsis fun _ => htype.isPunct_eq_false hbegins nofun nofun
  have hmark : ∀ f : Bool → Reader TupleItem, (eat .question >>= f) e = f optional c' :=
    run_eat_mark hquestion fun _ => hstop.isPunct_eq_false (Nat.le_refl 4)
  rw [tupleItem, hstart]
  simp only [run_peek, run_peekAt, hlabel, Bool.and_false, if_neg Bool.false_ne_true]
  rw [pure_bind, run_bind, hrun]
  exact hmark _

/-! ## What stands alone -/

theorem parses_parenthesized {ty : TypeExpr} (h : Parses b type ty.tokens 3 ty) :
    Parses (b + 1) (primaryType type)
      (.punct .openParen :: (ty.tokens ++ [.punct .closeParen])) 0 ty := by
  intro c c' hc hshows _
  cases hshows with
  | cons ht _ hshows =>
      obtain ⟨d, htype, hclose⟩ := Cursor.shows_append_iff.mp hshows
      cases hclose with
      | @cons u us finish _ _ _ hu _ hend =>
          cases hend
          have hstop : Stops 3 (Cursor.next ⟨u :: us, finish⟩).kind := ⟨.closeParen, hu, by decide⟩
          simp only [List.length_cons] at hc
          have hrun := h _ _ (by simp only; omega) htype hstop
          have hu : (Cursor.next ⟨u :: us, finish⟩).kind = .punct .closeParen := hu
          simp [primaryType, ht, run_bind type, hrun, run_map, expect_eq hu]

theorem parses_textLiteral (s : String) :
    Parses b (primaryType type) [.text s] 0 (.textLiteral s) := by
  intro c c' _ hshows _
  cases hshows with
  | cons ht _ hend =>
      cases hend
      simp [primaryType, ht]

theorem parses_boolLiteral (value : Bool) :
    Parses b (primaryType type) [.word (if value then "true" else "false")] 0
      (.boolLiteral value) := by
  intro c c' _ hshows _
  cases hshows with
  | cons ht _ hend =>
      cases hend
      cases value <;> simp [primaryType, wordType, ht]

theorem parses_keyword (k : Keyword) :
    Parses b (primaryType type) [.word k.word] 0 (.keyword k) := by
  intro c c' _ hshows hstop
  have hdot := hstop.isPunct_eq_false (p := .dot) (Nat.le_refl 0)
  cases hshows with
  | cons ht _ hend =>
      cases hend
      have hkeyword : Keyword.ofWord? k.word = some k := by cases k <;> decide
      have hother : k.word ∉ ["true", "false", "typeof", "import"] := by cases k <;> decide
      simp only [List.mem_cons, not_or] at hother
      simp [primaryType, wordType, ht, hkeyword, hother, hdot]

theorem ofWord?_eq_none {w : String} (h : w ∉ reservedWords) : Keyword.ofWord? w = none := by
  refine List.find?_eq_none.mpr fun k hk hw => h ?_
  rw [← beq_iff_eq.mp hw]
  exact List.mem_append_left _ (List.mem_map_of_mem hk)

/-- A name with its arguments does not go on after its segments with a dot or a parenthesis. -/
theorem next_of_angled {args : List (List TokenKind)} {c c' : Cursor}
    (hshows : c.Shows (angled args) c') (hstop : Stops 0 c'.next.kind) :
    c.next.kind ≠ .punct .dot ∧ c.next.kind ≠ .punct .openParen := by
  cases args with
  | nil =>
      cases hshows
      have hdot := hstop.isPunct_eq_false (p := .dot) (Nat.le_refl 0)
      have hparen := hstop.isPunct_eq_false (p := .openParen) (Nat.le_refl 0)
      exact ⟨by simpa [Token.isPunct] using hdot, by simpa [Token.isPunct] using hparen⟩
  | cons =>
      cases hshows with
      | cons ht _ _ => simp [ht]

theorem parses_ref {name : List String} {args : List TypeExpr} (hne : name ≠ [])
    (hname : ∀ w ∈ name, w ∉ reservedWords) (hplain : ∀ arg ∈ args, arg.Plain)
    (h : ∀ arg ∈ args, Parses b type arg.tokens 3 arg) :
    Parses (b + 1) (primaryType type) (TypeExpr.ref name args).tokens 0 (.ref name args) := by
  intro c c' hc hshows hstop
  obtain ⟨d, hsegments, hargs⟩ := Cursor.shows_append_iff.mp hshows
  obtain ⟨hdot, hparen⟩ := next_of_angled hargs hstop
  have hlength := hsegments.length_eq
  have hsegment := run_qualifiedName hne hsegments (by simpa [Token.isPunct] using hdot)
  have harguments := parses_typeArgs h hplain d c' (by omega) hargs hstop
  have href : refType type c = .ok (.ref name args, c') := by
    simp [refType, run_bind qualifiedName, hsegment, run_map, harguments]
  obtain ⟨w, ws, rfl⟩ := List.exists_cons_of_ne_nil hne
  have hw := hname w List.mem_cons_self
  have hother : w ≠ "true" ∧ w ≠ "false" ∧ w ≠ "typeof" := by
    refine ⟨?_, ?_, ?_⟩ <;> rintro rfl <;> exact hw (by decide)
  rw [nameTokens_cons] at hsegments
  cases hsegments with
  | cons ht _ hsegments =>
      have hnone : ∀ k ∈ ws.flatMap fun w => [TokenKind.punct .dot, .word w],
          k ≠ .punct .openParen := by
        intro k hk
        obtain ⟨v, -, hv⟩ := List.mem_flatMap.mp hk
        rintro rfl
        simp at hv
      have hsecond := hsegments.next hnone hparen
      simp [primaryType, wordType, ht, hother, ofWord?_eq_none hw, Token.isPunct, hsecond, href]

theorem parses_tuple {items : List TupleItem}
    (hplain : ∀ ty optional rest, TupleItem.mk ty optional rest ∈ items → ty.Plain)
    (h : ∀ ty optional rest, TupleItem.mk ty optional rest ∈ items → Parses b type ty.tokens 3 ty) :
    Parses (b + 1) (primaryType type) (TypeExpr.tuple items).tokens 0 (.tuple items) := by
  intro c c' hc hshows hstop
  have hitems : ∀ item ∈ items, Parses b (tupleItem type) item.tokens 4 item := by
    rintro ⟨ty, optional, rest⟩ hitem
    exact parses_tupleItem (hplain ty optional rest hitem) (h ty optional rest hitem) optional rest
  have hfirst : ∀ item ∈ items, ∃ k ks, item.tokens = k :: ks ∧ k ≠ .punct .closeBracket := by
    rintro ⟨ty, optional, rest⟩ hitem
    cases rest with
    | false => exact ((begins_tokens (hplain _ _ _ hitem)).append _).exists_ne_punct nofun nofun
    | true => exact ⟨_, _, rfl, nofun⟩
  have htokens : (TypeExpr.tuple items).tokens = .punct .openBracket ::
      ([.punct .comma].intercalate (items.map TupleItem.tokens) ++
        [.punct ListKind.tuple.close]) := by
    rw [TypeExpr.tokens, tokensOfItems_eq]
    rfl
  rw [htokens] at hshows
  cases hshows with
  | cons ht _ hshows =>
      have hlist := parses_listed .tuple rfl hitems hfirst
      simp only [List.length_cons] at hc
      simp [primaryType, ht, run_map, hlist _ c' (by simp only; omega) hshows hstop]

/-! ## The levels of the grammar -/

/-- With nested types read at most `depth` deep, a type that may stand before brackets is read, and
what is left to do is to read brackets. -/
def Bracketed (ty : TypeExpr) : Prop :=
  ∀ depth c c', c.rest.length ≤ depth → c.Shows (ty.tokensIn 0) c' → Stops 0 c'.next.kind →
    ∃ n, c'.rest.length < n ∧
      postfixType (typeTo depth) c = brackets (typeTo depth) n ty c'

/-- The type is read where words in front may act on it. -/
def Operated (ty : TypeExpr) : Prop :=
  ∀ depth n, n ≤ depth + 1 → Parses n (operatorTo (typeTo depth) n) (ty.tokensIn 1) 1 ty

/-- The type is read as a member of a union. -/
def Intersected (ty : TypeExpr) : Prop :=
  ∀ depth, Parses (depth + 1) (intersectionType (typeTo depth)) (ty.tokensIn 2) 2 ty

/-- The type is read as one that is nested. -/
def Typed (ty : TypeExpr) : Prop :=
  ∀ depth, Parses depth (typeTo depth) ty.tokens 3 ty

variable {ty : TypeExpr}

theorem bracketed_of_primary
    (h : ∀ depth, Parses (depth + 1) (primaryType (typeTo depth)) (ty.tokensIn 0) 0 ty) :
    Bracketed ty := by
  intro depth c c' hc hshows hstop
  refine ⟨c'.rest.length + 1, Nat.lt_succ_self _, ?_⟩
  rw [postfixType, run_bind, h depth c c' (by omega) hshows hstop]
  rfl

theorem bracketed_of_typed (h : Typed ty) (hloose : 0 < ty.looseness) : Bracketed ty :=
  bracketed_of_primary fun depth => by
    rw [TypeExpr.tokensIn_of_lt hloose]
    exact parses_parenthesized (h depth)

theorem bracketed_array (h : Bracketed ty) : Bracketed (.array ty) := by
  intro depth c c' hc hshows hstop
  obtain ⟨d, hitem, hbrackets⟩ := Cursor.shows_append_iff.mp hshows
  cases hbrackets with
  | @cons t ts finish _ _ _ ht hline hclose =>
      cases hclose with
      | cons hu _ hend =>
          cases hend
          obtain ⟨n, hn, hrun⟩ := h depth c _ hc hitem ⟨.openBracket, ht, by decide⟩
          simp only [List.length_cons] at hn
          obtain ⟨n, rfl⟩ := Nat.exists_eq_add_of_le' (show 1 ≤ n by omega)
          refine ⟨n, by simp only; omega, ?_⟩
          rw [hrun]
          simp [brackets, Token.isPunct, ht, hu, hline]

theorem operated_of_bracketed (h : Bracketed ty) (hplain : ty.Plain) (hloose : ty.looseness ≠ 1) :
    Operated ty := by
  intro depth n hn c c' hc hshows hstop
  rw [TypeExpr.tokensIn_succ hloose] at hshows
  obtain ⟨m, hm, hrun⟩ := h depth c c' (by omega) hshows (hstop.mono (Nat.zero_le 1))
  obtain ⟨n, rfl⟩ := Nat.exists_eq_add_of_le' (show 1 ≤ n by omega)
  obtain ⟨m, rfl⟩ := Nat.exists_eq_add_of_le' (show 1 ≤ m by omega)
  -- Whatever the second token is, no word in front acts on the type.
  have hword : ∀ w ∈ "keyof" :: operatorWords, c.next.isTheWord w = false :=
    fun w hw => hshows.isTheWord_eq_false (begins_tokensIn_zero hplain) hw
  have hbracket : c'.next.isPunct .openBracket = false := hstop.isPunct_eq_false (Nat.le_refl 1)
  have hpassed : operatorTo (typeTo depth) (n + 1) c = postfixType (typeTo depth) c := by
    simp only [operatorWords, List.forall_mem_cons] at hword
    simp [operatorTo, hword]
  rw [hpassed, hrun]
  simp [brackets, hbracket]

theorem operated_keyof (h : Operated ty) (hplain : ty.Plain) : Operated (.keyof ty) := by
  intro depth n hn c c' hc hshows hstop
  obtain ⟨n, rfl⟩ := Nat.exists_eq_add_of_le' (show 1 ≤ n by omega)
  cases hshows with
  | cons ht _ hshows =>
      have hpunct := fun p => hshows.isPunct_eq_false (p := p) (begins_tokensIn hplain 1)
      simp only [List.length_cons] at hc
      have hrun := h depth n (by omega) _ c' (by simp only; omega) hshows hstop
      simp [operatorTo, endsOperand, hpunct, Token.isTheWord, Token.word?, ht, run_map, hrun]

/-- Types that are joined by an operator, or one alone. -/
theorem parses_joined {sep : Punct} {join : List TypeExpr → TypeExpr} (item : Reader TypeExpr)
    {bound : Nat} (hsep : sep.reach = bound + 1) (hbound : 1 ≤ bound) {members : List TypeExpr}
    (hne : members ≠ []) (hplain : ∀ m ∈ members, m.Plain)
    (h : ∀ m ∈ members, Parses b item (m.tokensIn bound) bound m) :
    Parses b (do let _ ← eat sep; return joined join (← separated sep item))
      ([.punct sep].intercalate (tokensOfAll bound members)) (bound + 1) (joined join members) := by
  intro c c' hc hshows hstop
  rw [tokensOfAll_eq] at hshows
  have hrun := parses_separated hsep hne h c c' hc hshows hstop
  obtain ⟨m, ms, rfl⟩ := List.exists_cons_of_ne_nil hne
  have hbegins := (begins_tokensIn (hplain m List.mem_cons_self) bound).intercalate (.punct sep)
    (ms.map (TypeExpr.tokensIn bound))
  have hnot : c.next.isPunct sep = false := by
    refine hshows.isPunct_eq_false hbegins ?_ ?_ <;> rintro rfl <;> simp [Punct.reach] at hsep
    omega
  simp [hnot, run_map, hrun]

theorem typed_of_union (hplain : ty.Plain)
    (h : ∀ depth, Parses (depth + 1) (unionType (typeTo depth)) ty.tokens 3 ty) : Typed ty := by
  intro depth c c' hc hshows hstop
  obtain ⟨depth, rfl⟩ := Nat.exists_eq_add_of_le' (show 1 ≤ depth by omega)
  have hrun := h depth c c' hc hshows hstop
  have hbegins := begins_tokens hplain
  have hnew : c.next.isTheWord "new" = false := hshows.isTheWord_eq_false hbegins (by decide)
  have hless : c.next.isPunct .less = false := hshows.isPunct_eq_false hbegins nofun nofun
  have hextends := hstop.isTheWord_eq_false "extends"
  have hgrouped := grouped_tokens hplain
  -- The name of a type may be `abstract`, so the token after it matters.
  have hsecond : (c.ahead 1).isTheWord "new" = false := by
    obtain ⟨k, ks, hks, -⟩ := hbegins
    have hend : c'.next.kind ≠ .word "new" := by
      obtain ⟨p, hp, -⟩ := hstop
      simp [hp]
    rw [hks] at hshows hgrouped
    cases hshows with
    | cons _ _ hshows =>
        have hnext := hshows.next (fun k' hk' => (hgrouped.quiet k' (.tail k hk')).1) hend
        simp only [ahead_one_cons, Token.isTheWord, Token.word?]
        split
        next w hw => simpa [hw] using hnext
        · rfl
  have harrow : ¬ (c.next.isPunct .openParen = true ∧ arrowAfter 0 c.rest = true) := by
    rintro ⟨hopen, hafter⟩
    have hopen : c.next.kind = .punct .openParen := by simpa [Token.isPunct] using hopen
    have hnone := arrowAfter_eq_false hgrouped hshows (hstop.mono (Nat.zero_le 3)) hopen
    exact Bool.false_ne_true (hnone.symm.trans hafter)
  simp [typeTo, typeWith, hnew, hless, hsecond, harrow, run_bind (unionType _), hrun, hextends]

theorem joined_of_two {join : List TypeExpr → TypeExpr} {members : List TypeExpr}
    (htwo : 2 ≤ members.length) : joined join members = join members := by
  match members with
  | [] | [_] => simp at htwo
  | _ :: _ :: _ => rfl

theorem parses_intersection (members : List TypeExpr) (hne : members ≠ [])
    (hplain : ∀ m ∈ members, m.Plain) (h : ∀ m ∈ members, Operated m) (depth : Nat) :
    Parses (depth + 1) (intersectionType (typeTo depth))
      ([.punct .ampersand].intercalate (tokensOfAll 1 members)) 2
      (joined .intersection members) := by
  refine parses_joined (operatorWith (typeTo depth)) rfl (Nat.le_refl 1) hne hplain
    fun m hm c c' hc hshows hstop => ?_
  exact h m hm depth (c.rest.length + 1) hc c c' (Nat.lt_succ_self _) hshows hstop

theorem parses_union (members : List TypeExpr) (hne : members ≠ [])
    (hplain : ∀ m ∈ members, m.Plain) (h : ∀ m ∈ members, Intersected m) (depth : Nat) :
    Parses (depth + 1) (unionType (typeTo depth))
      ([.punct .bar].intercalate (tokensOfAll 2 members)) 3 (joined .union members) :=
  parses_joined (intersectionType (typeTo depth)) rfl (by decide) hne hplain
    fun m hm => h m hm depth

theorem intersected_of_operated (h : Operated ty) (hplain : ty.Plain) (hloose : ty.looseness ≠ 2) :
    Intersected ty := by
  intro depth
  rw [TypeExpr.tokensIn_succ hloose]
  have hone := parses_intersection [ty] (List.cons_ne_nil _ _)
    (List.forall_mem_singleton.mpr hplain) (List.forall_mem_singleton.mpr h) depth
  simpa [tokensOfAll_eq, joined] using hone

theorem typed_of_intersected (h : Intersected ty) (hplain : ty.Plain) (hloose : ty.looseness ≠ 3) :
    Typed ty := by
  refine typed_of_union hplain fun depth => ?_
  rw [← ty.tokensIn_three, TypeExpr.tokensIn_succ hloose]
  have hone := parses_union [ty] (List.cons_ne_nil _ _)
    (List.forall_mem_singleton.mpr hplain) (List.forall_mem_singleton.mpr h) depth
  simpa [tokensOfAll_eq, joined] using hone

/-! ## All levels at once -/

/-- The type is read at every level. -/
structure ReadBack (ty : TypeExpr) : Prop where
  bracketed : Bracketed ty
  operated : Operated ty
  intersected : Intersected ty
  typed : Typed ty

namespace ReadBack

theorem of_bracketed (h : Bracketed ty) (hplain : ty.Plain) (htight : ty.looseness = 0) :
    ReadBack ty := by
  have hoperated := operated_of_bracketed h hplain (by omega)
  have hintersected := intersected_of_operated hoperated hplain (by omega)
  exact ⟨h, hoperated, hintersected, typed_of_intersected hintersected hplain (by omega)⟩

theorem of_operated (h : Operated ty) (hplain : ty.Plain) (hloose : ty.looseness = 1) :
    ReadBack ty := by
  have hintersected := intersected_of_operated h hplain (by omega)
  have htyped := typed_of_intersected hintersected hplain (by omega)
  exact ⟨bracketed_of_typed htyped (by omega), h, hintersected, htyped⟩

theorem of_intersected (h : Intersected ty) (hplain : ty.Plain) (hloose : ty.looseness = 2) :
    ReadBack ty := by
  have htyped := typed_of_intersected h hplain (by omega)
  have hbracketed := bracketed_of_typed htyped (by omega)
  exact ⟨hbracketed, operated_of_bracketed hbracketed hplain (by omega), h, htyped⟩

theorem of_typed (h : Typed ty) (hplain : ty.Plain) (hloose : ty.looseness = 3) : ReadBack ty := by
  have hbracketed := bracketed_of_typed h (by omega)
  have hoperated := operated_of_bracketed hbracketed hplain (by omega)
  exact ⟨hbracketed, hoperated, intersected_of_operated hoperated hplain (by omega), h⟩

end ReadBack

theorem readBack (hplain : ty.Plain) : ReadBack ty := by
  induction hplain with
  | keyword k =>
      exact .of_bracketed (bracketed_of_primary fun _ => parses_keyword k) (.keyword k) rfl
  | textLiteral s =>
      exact .of_bracketed (bracketed_of_primary fun _ => parses_textLiteral s) (.textLiteral s) rfl
  | boolLiteral value =>
      exact .of_bracketed (bracketed_of_primary fun _ => parses_boolLiteral value)
        (.boolLiteral value) rfl
  | ref hne hname hargs ih =>
      have hread := fun depth =>
        parses_ref hne hname hargs fun arg harg => (ih arg harg).typed depth
      exact .of_bracketed (bracketed_of_primary hread) (.ref hne hname hargs) rfl
  | array hitem ih => exact .of_bracketed (bracketed_array ih.bracketed) (.array hitem) rfl
  | tuple hitems ih =>
      have hread := fun depth => parses_tuple hitems fun ty optional rest hitem =>
        (ih ty optional rest hitem).typed depth
      exact .of_bracketed (bracketed_of_primary hread) (.tuple hitems) rfl
  | keyof hty ih => exact .of_operated (operated_keyof ih.operated hty) (.keyof hty) rfl
  | @intersection members htwo hmembers ih =>
      have hne : members ≠ [] := List.ne_nil_of_length_pos (by omega)
      have hread : Intersected (.intersection members) := by
        intro depth
        have hjoin := parses_intersection members hne hmembers (fun m hm => (ih m hm).operated) depth
        rwa [joined_of_two htwo] at hjoin
      exact .of_intersected hread (.intersection htwo hmembers) rfl
  | @union members htwo hmembers ih =>
      have hne : members ≠ [] := List.ne_nil_of_length_pos (by omega)
      have hread : Typed (.union members) := by
        refine typed_of_union (.union htwo hmembers) fun depth => ?_
        have hjoin := parses_union members hne hmembers (fun m hm => (ih m hm).intersected) depth
        rwa [joined_of_two htwo] at hjoin
      exact .of_typed hread (.union htwo hmembers) rfl

/-- **A rendered type is read as itself.**  Its tokens stand on one line, and the reader leaves off
at the semicolon after them, whatever comes next. -/
theorem typeExpr_rendered (hplain : ty.Plain) {ts : List Token}
    (hkinds : ts.map Token.kind = ty.tokens) (hline : ∀ t ∈ ts, t.onNewLine = false)
    {semicolon : Token} (hsemicolon : semicolon.kind = .punct .semicolon) (rest : List Token)
    (finish : Token) :
    typeExpr ⟨ts ++ semicolon :: rest, finish⟩ = .ok (ty, ⟨semicolon :: rest, finish⟩) := by
  have hshows := Cursor.shows_of_map hkinds hline (semicolon :: rest) finish
  have hstop : Stops 3 (Cursor.next ⟨semicolon :: rest, finish⟩).kind :=
    ⟨.semicolon, hsemicolon, by decide⟩
  exact (readBack hplain).typed _ _ _ (Nat.lt_succ_self _) hshows hstop

/-- An array of unions, beside an intersection of tuples. -/
def boxes : TypeExpr :=
  .union [.array (.union [.keyword .string, .keyof (.ref ["ns", "Box"] [.boolLiteral true])]),
    .intersection
      [.tuple [.mk (.ref ["T"] []) true false, .mk (.array (.keyword .number)) false true],
        .array (.keyof (.ref ["U"] [])), .textLiteral "|"]]

theorem typeExpr_boxes :
    boxes.tokens = [.punct .openParen, .word "string", .punct .bar, .word "keyof", .word "ns",
      .punct .dot, .word "Box", .punct .less, .word "true", .punct .greater, .punct .closeParen,
      .punct .openBracket, .punct .closeBracket, .punct .bar, .punct .openBracket, .word "T",
      .punct .question, .punct .comma, .punct .ellipsis, .word "number", .punct .openBracket,
      .punct .closeBracket, .punct .closeBracket, .punct .ampersand, .punct .openParen,
      .word "keyof", .word "U", .punct .closeParen, .punct .openBracket, .punct .closeBracket,
      .punct .ampersand, .text "|"] ∧
    typeExpr ⟨boxes.tokens.map (fun k => ⟨k, .start, false⟩) ++ [⟨.punct .semicolon, .start, true⟩],
        ⟨.finish, .start, false⟩⟩ =
      .ok (boxes, ⟨[⟨.punct .semicolon, .start, true⟩], ⟨.finish, .start, false⟩⟩) := by
  have hname : ∀ w, w ∉ reservedWords → TypeExpr.Plain (.ref [w] []) := fun w hw =>
    .ref (List.cons_ne_nil w []) (List.forall_mem_singleton.mpr hw) nofun
  have hbox : TypeExpr.Plain (.ref ["ns", "Box"] [.boolLiteral true]) :=
    .ref (List.cons_ne_nil _ _) (by decide) (List.forall_mem_singleton.mpr (.boolLiteral true))
  have hleft : TypeExpr.Plain (.union [.keyword .string, .keyof (.ref ["ns", "Box"]
      [.boolLiteral true])]) :=
    .union (by decide) (by simpa using ⟨.keyword .string, .keyof hbox⟩)
  have htuple : TypeExpr.Plain (.tuple [.mk (.ref ["T"] []) true false,
      .mk (.array (.keyword .number)) false true]) := by
    refine .tuple fun ty optional rest hitem => ?_
    simp only [List.mem_cons, TupleItem.mk.injEq, List.not_mem_nil, or_false] at hitem
    rcases hitem with ⟨rfl, -, -⟩ | ⟨rfl, -, -⟩
    · exact hname "T" (by decide)
    · exact .array (.keyword .number)
  have hright := TypeExpr.Plain.array (.keyof (hname "U" (by decide)))
  have hplain : boxes.Plain :=
    .union (by decide) (by
      simpa using ⟨.array hleft, .intersection (by decide)
        (by simpa using ⟨htuple, hright, .textLiteral "|"⟩)⟩)
  exact ⟨rfl, typeExpr_rendered hplain (by simp [Function.comp_def]) (by simp) rfl [] _⟩

end ApiSurface.Declaration.Reader
