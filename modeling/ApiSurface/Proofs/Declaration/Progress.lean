/-
# `ApiSurface.Proofs.Declaration.Progress` — reading a text moves forward until it ends

What a scan takes at a character follows rules that say nothing of the order in which they are tried
(`Scans`): a blank, a comment or a token, and a token is never the one for the end.

The tokens of a text stand in an array with the token for the end in the last place, and a cursor is
a position in it.  Four things are said about every position (`Forward`):

  * what is looked at is in the array, however far ahead;
  * taking a token goes to the next position, and stays at the last one;
  * every reader of the grammar (`Part`) leaves off at a position that is no earlier and still in
    the array, or it fails at a token (`EndsFrom`);
  * every loop and every circle of readers that call each other (`Recursion`) does the same if it is
    cut off wherever it would go on without having taken a token.

The readers of the grammar are listed for types and bodies at any depth; the bounds that make them
end are not seen in them, because they are never reached (`within_typeTo`, `within_bodyTo`).  So a
text has its statements, or an error at a place of its own (`parse_reads_forward`).
-/
import ApiSurface.Proofs.Declaration.StatementReading

namespace ApiSurface.Declaration

/-! ## What a scan takes -/

/-- The token begins with the character, and goes on for so many of the characters after it. -/
inductive ScansToken : Char → List Char → TokenKind → Nat → Prop
  | text {c : Char} {r s : List Char} {n : Nat} (hquote : c = '"' ∨ c = '\'')
      (h : textBody c r = some (n, s)) : ScansToken c r (.text (String.ofList s)) n
  | template {r : List Char} {n : Nat} (h : templateLength 0 r = some n) :
      ScansToken '\x60' r .template n
  | number {c : Char} {r : List Char} {x : Float}
      (h : numberValue? ((c :: r.takeWhile inNumber).filter (· ≠ '_')) = some x) :
      ScansToken c r (.number x) (r.takeWhile inNumber).length
  | word {c : Char} {r : List Char} (h : startsWord c = true) :
      ScansToken c r (.word (String.ofList (c :: r.takeWhile inWord))) (r.takeWhile inWord).length
  | punct {c : Char} {r : List Char} {p : Punct} (h : p.chars <+: c :: r) :
      ScansToken c r (.punct p) (p.chars.length - 1)

/-- What stands at a character is a blank, a comment, or a token that is no blank. -/
inductive Scans : Char → List Char → Piece → Nat → Prop
  | blank {c : Char} {r : List Char} (h : Text.isBlank c = true) : Scans c r .gap 0
  | line {r : List Char} : Scans '/' ('/' :: r) .gap (('/' :: r).takeWhile (· ≠ '\n')).length
  | block {r : List Char} {n : Nat} (h : commentLength r = some n) :
      Scans '/' ('*' :: r) .gap (n + 1)
  | token {c : Char} {r : List Char} {kind : TokenKind} {n : Nat}
      (hblank : Text.isBlank c = false) (h : ScansToken c r kind n) : Scans c r (.token kind) n

theorem scansToken_of_scanNumber {c : Char} {r : List Char} {piece : Piece} {n : Nat}
    (h : scanNumber c r = .ok (piece, n)) : ∃ kind, piece = .token kind ∧ ScansToken c r kind n := by
  unfold scanNumber at h
  simp only at h
  split at h
  next x hx =>
    cases h
    exact ⟨_, rfl, .number hx⟩
  · cases h

/-- The scanner keeps to the rules. -/
theorem scans_of_scan {c : Char} {r : List Char} {piece : Piece} {n : Nat}
    (h : scan c r = .ok (piece, n)) : Scans c r piece n := by
  unfold scan at h
  split at h
  next hblank =>
    cases h
    exact .blank hblank
  next hblank =>
    have hblank : Text.isBlank c = false := Bool.eq_false_iff.mpr hblank
    split at h
    next hline =>
      cases h
      obtain ⟨rfl, r, rfl⟩ : c = '/' ∧ ∃ r', r = '/' :: r' := by
        simpa [List.head?_eq_some_iff] using hline
      exact .line
    split at h
    next hblock =>
      obtain ⟨rfl, r, rfl⟩ : c = '/' ∧ ∃ r', r = '*' :: r' := by
        simpa [List.head?_eq_some_iff] using hblock
      split at h
      next m hm =>
        cases h
        exact .block hm
      · cases h
    split at h
    next hquote =>
      split at h
      next m s hm =>
        cases h
        exact .token hblank (.text (by simpa using hquote) hm)
      · cases h
    split at h
    next hquote =>
      obtain rfl := hquote
      split at h
      next m hm =>
        cases h
        exact .token hblank (.template hm)
      · cases h
    split at h
    · obtain ⟨kind, rfl, hnumber⟩ := scansToken_of_scanNumber h
      exact .token hblank hnumber
    split at h
    next hword =>
      cases h
      exact .token hblank (.word hword)
    split at h
    next p hp =>
      cases h
      have hmatch : p.chars.isPrefixOf (c :: r) = true := by simpa using List.find?_some hp
      exact .token hblank (.punct (List.isPrefixOf_iff_prefix.mp hmatch))
    · cases h

/-! ## Only the last token is the end -/

theorem scan_ne_finish (c : Char) (r : List Char) (n : Nat) :
    scan c r ≠ .ok (.token .finish, n) := by
  intro h
  cases scans_of_scan h with
  | token _ h => cases h

theorem tokensFrom_ne_finish (place : Position) (newLine : Bool) (cs : List Char) :
    ∀ ts last, tokensFrom place newLine cs = .ok (ts, last) → ∀ t ∈ ts, t.kind ≠ .finish := by
  fun_induction tokensFrom place newLine cs with
  | case1 =>
      intro ts last h
      cases h
      simp
  | case2 => exact fun _ _ h => nomatch h
  | case3 _ _ _ _ _ _ _ _ ih => exact ih
  | case4 _ _ c r n lexeme after kind us last' hus hscan ih =>
      intro ts last h
      cases h
      intro t ht
      rcases List.mem_cons.mp ht with rfl | ht
      · rintro rfl
        exact scan_ne_finish c r n hscan
      · exact ih us _ hus t ht
  | case5 => exact fun _ _ h => nomatch h

/-! ## Positions -/

/-- The cursor at a position among the tokens of a text. -/
def Cursor.atIndex (ts : List Token) (finish : Token) (p : Nat) : Cursor :=
  ⟨ts.drop p, finish⟩

namespace Reader

variable {ts : List Token} {finish : Token} {p : Nat}

/-- A reader that begins at a position ends at one that is no earlier, or fails at a token that is
not. -/
def EndsFrom (ts : List Token) (finish : Token) (p : Nat) {α : Type} (r : Reader α) : Prop :=
  (∃ a q, p ≤ q ∧ q ≤ ts.length ∧ r (.atIndex ts finish p) = .ok (a, .atIndex ts finish q)) ∨
    ∃ t ∈ (ts ++ [finish]).drop p, ∃ x,
      r (.atIndex ts finish p) = .error (.unexpected t.place x t.kind)

theorem Agree.endsFrom {α : Type} {r r' : Reader α} (h : Agree 0 r r' (.atIndex ts finish p))
    (hp : p ≤ ts.length) : EndsFrom ts finish p r := by
  rcases hr : r (.atIndex ts finish p) with e | ⟨a, c'⟩
  · obtain ⟨t, ht, x, rfl⟩ := h.fails e hr
    refine .inr ⟨t, ?_, x, hr⟩
    rwa [List.drop_append_of_le_length hp]
  · have htakes := h.takes a c' hr
    have hrest : c'.rest = ts.drop (p + ((ts.drop p).length - c'.rest.length)) := by
      rw [← List.drop_drop]
      exact List.suffix_iff_eq_drop.mp htakes.suffix
    refine .inl ⟨a, p + ((ts.drop p).length - c'.rest.length), Nat.le_add_right _ _, ?_, ?_⟩
    · rw [List.length_drop]
      omega
    · rw [hr, Cursor.atIndex, ← hrest, ← show c'.finish = finish from htakes.finish]

theorem getElem?_ahead (n : Nat) :
    (ts ++ [finish])[min (p + n) ts.length]? = some ((Cursor.atIndex ts finish p).ahead n) := by
  rw [Cursor.ahead, Cursor.atIndex, List.getD_eq_getElem?_getD, List.getElem?_drop]
  rcases Nat.lt_or_ge (p + n) ts.length with hlt | hge
  · rw [Nat.min_eq_left (Nat.le_of_lt hlt), List.getElem?_append_left hlt]
    simp [hlt]
  · rw [Nat.min_eq_right hge, List.getElem?_append_right (Nat.le_refl _), List.getElem?_eq_none hge]
    simp

theorem skip_atIndex :
    (Cursor.atIndex ts finish p).skip = .atIndex ts finish (min (p + 1) ts.length) := by
  rw [Cursor.skip, Cursor.atIndex, Cursor.atIndex, List.tail_drop]
  rcases Nat.le_total (p + 1) ts.length with hle | hge
  · rw [Nat.min_eq_left hle]
  · rw [Nat.min_eq_right hge, List.drop_eq_nil_of_le hge, List.drop_length]

/-! ## The readers of the grammar -/

/-- The readers of the items of a list. -/
inductive Item : {α : Type} → ListKind → Reader α → Prop
  | exportName : Item .exportList exportName
  | enumMember : Item .enumeration enumMember
  | typeParam : Item .typeParams (typeParam typeExpr)
  | param : Item .params (param typeExpr)
  | typeArg : Item .typeArgs typeExpr
  | tupleItem : Item .tuple (tupleItem typeExpr)

/-- The readers of what stands between separators. -/
inductive Operand : {α : Type} → Punct → Reader α → Prop
  | variableItem : Operand .comma variableItem
  | parent : Operand .comma operatorType
  | intersection : Operand .bar (intersectionType typeExpr)
  | operator : Operand .ampersand (operatorWith typeExpr)

/-- The words that may stand in front of something, and what a token after them has to be. -/
inductive Leading : List String → (Token → Bool) → Prop
  | typeParam : Leading ["const", "in", "out"] Token.isWord
  | param : Leading ["public", "private", "protected", "readonly", "override"] Token.isWord
  | member : Leading memberModifiers startsMember

/-- The loops, and the circles of readers that call each other: a reader, and what it does in one
pass with the readers that it goes on with. -/
inductive Recursion :
    {ι α : Type} → (ι → Reader α) → ((ι → Reader α) → ι → Reader α) → Prop
  | semicolons : Recursion (fun _ => semicolons) semicolonsRound
  | dottedNames : Recursion (fun _ => dottedNames) dottedNamesRound
  | words {words : List String} {followed : Token → Bool} (h : Leading words followed) :
      Recursion (fun _ => takeWords words followed) (wordsRound words followed)
  | groups (opening closing : Punct) :
      Recursion (groups opening closing) (groupsRound opening closing)
  | value : Recursion valueFrom valueRound
  | statement : Recursion (fun i => statementFrom i.1 i.2) statementRound
  | arrow : Recursion arrowFrom arrowRound
  | mapped : Recursion (fun _ => mappedFrom) mappedRound
  | listed {α : Type} {list : ListKind} {item : Reader α} (h : Item list item) :
      Recursion (fun _ => listed list item) (untilRound list item)
  | separated {α : Type} {sep : Punct} {item : Reader α} (h : Operand sep item) :
      Recursion (fun _ => separated sep item) (afterRound sep item)
  | members (inClass : Bool) :
      Recursion (fun _ => members typeExpr inClass) (membersRound typeExpr inClass)
  | importNames : Recursion (looped fun k _ => dotNames k) dotNamesRound
  | brackets : Recursion (looped (brackets typeExpr)) (bracketsRound typeExpr)
  | operators : Recursion (fun _ => operatorWith typeExpr) (operatorRound typeExpr)
  | types : Recursion (fun _ => typeExpr) typeRound
  | statements : Recursion statementsIn blocksRound

/-- The readers of the grammar, where a cursor may come to them. -/
inductive Part (c : Cursor) : {α : Type} → Reader α → Prop
  | bump : Part c bump
  | eat (p : Punct) : Part c (eat p)
  | eatWord (w : String) : Part c (eatWord w)
  | expect (p : Punct) : Part c (expect p)
  | name : Part c name
  | propertyName : Part c propertyName
  | qualifiedName : Part c qualifiedName
  | recursion {ι α : Type} {read : ι → Reader α} {round : (ι → Reader α) → ι → Reader α}
      (h : Recursion read round) (i : ι) : Part c (read i)
  | item {α : Type} {list : ListKind} {r : Reader α} (h : Item list r) : Part c r
  | operand {α : Type} {sep : Punct} {r : Reader α} (h : Operand sep r) : Part c r
  | skipGroup (opening closing : Punct) : Part c (skipGroup opening closing)
  | skipValue : Part c skipValue
  | skipStatement : Part c skipStatement
  | arrowAhead : Part c arrowAhead
  | mappedAhead : Part c mappedAhead
  | typeParams : Part c (typeParams typeExpr)
  | paramName : Part c paramName
  | params : Part c (params typeExpr)
  | returnType : Part c (returnType typeExpr)
  | fnSig : Part c (fnSig typeExpr)
  | fnType : Part c (fnType typeExpr)
  | typeArgs : Part c (typeArgs typeExpr)
  | skipBody : Part c skipBody
  | bracketMember (modifiers : Modifiers) : Part c (bracketMember typeExpr modifiers)
  | namedMember (words : List String) : Part c (namedMember typeExpr words)
  | member (inClass : Bool) : Part c (member typeExpr inClass)
  | importType : Part c (importType typeExpr)
  | refType : Part c (refType typeExpr)
  | wordType {w : String} (h : c.next.kind = .word w) : Part c (wordType typeExpr w)
  | primaryType : Part c (primaryType typeExpr)
  | postfixType : Part c (postfixType typeExpr)
  | unionType : Part c (unionType typeExpr)
  | typeWith : Part c (typeWith typeExpr)
  | functionName : Part c functionName
  | functionDecl : Part c functionDecl
  | className : Part c className
  | heritage (word : String) : Part c (heritage word)
  | classDecl : Part c classDecl
  | interfaceDecl : Part c interfaceDecl
  | aliasDecl : Part c aliasDecl
  | enumDecl : Part c enumDecl
  | variableName : Part c variableName
  | variableDecls : Part c variableDecls
  | namespaceDecl : Part c (namespaceDecl (statementsIn true))
  | declarationOf (word : String) : Part c (declarationOf (statementsIn true) word)
  | skipBefore (word other : String) : Part c (skipBefore word other)
  | declaration : Part c (declaration (statementsIn true))
  | exportSource : Part c exportSource
  | defaultExport : Part c (defaultExport (statementsIn true))
  | exported : Part c (exported (statementsIn true))
  | statement : Part c (statement (statementsIn true))
  | statements : Part c statements

variable {α ι : Type} {b : Nat} {c : Cursor}

theorem Item.within {list : ListKind} {r : Reader α} (h : Item list r) : Within b 1 r r := by
  cases h with
  | exportName => exact within_exportName
  | enumMember => exact within_enumMember
  | typeParam => exact (within_typeParam within_typeExpr).mono (Nat.le_succ b) (Nat.le_refl 1)
  | param => exact (within_param within_typeExpr).mono (Nat.le_succ b) (Nat.le_refl 1)
  | typeArg => exact within_typeExpr
  | tupleItem => exact within_tupleItem within_typeExpr

theorem Operand.within {sep : Punct} {r : Reader α} (h : Operand sep r) : Within b 1 r r := by
  cases h with
  | variableItem => exact within_variableItem
  | parent => exact within_operatorType
  | intersection =>
      exact (within_intersectionType within_typeExpr).mono (Nat.le_succ b) (Nat.le_refl 1)
  | operator => exact (within_operatorWith within_typeExpr).mono (Nat.le_succ b) (Nat.le_refl 1)

/-- The words in front are not taken at the end of a text. -/
theorem Leading.stops {words : List String} {followed : Token → Bool} (h : Leading words followed)
    {t : Token} (ht : t.kind = .finish) : followed t = false := by
  cases h with
  | typeParam => exact Token.isWord_of_finish ht
  | param => exact Token.isWord_of_finish ht
  | member => simp [startsMember, ht]

section Recursions

variable {read : ι → Reader α} {round : (ι → Reader α) → ι → Reader α}

theorem Recursion.within (h : Recursion read round) (i : ι) : Within b 0 (read i) (read i) := by
  cases h with
  | semicolons => exact within_semicolons
  | dottedNames => exact within_dottedNames
  | words => exact within_takeWords _ _
  | groups => exact within_groups _ _ i
  | value => exact within_valueFrom i
  | statement => exact within_statementFrom _ _
  | arrow => exact within_look _
  | mapped => exact within_look _
  | listed h => exact (within_listed _ h.within).weaken
  | separated h => exact (within_separated _ h.within).weaken
  | members => exact (within_members within_typeExpr _).later
  | importNames => exact within_looped (fun _ _ => rfl) (fun _ _ => rfl) advances_dotNamesRound i
  | brackets =>
      exact (within_looped (fun _ _ => rfl) (fun _ _ => rfl)
        (advances_bracketsRound within_typeExpr) i).later
  | operators => exact (within_operatorWith within_typeExpr).later
  | types => exact within_typeExpr.weaken
  | statements => exact within_statementsIn i

/-- **Each pass goes on with fewer tokens.** -/
theorem Recursion.eq (h : Recursion read round) (hc : c.finish.kind = .finish) (i : ι) :
    read i c = round (fun j => past (read j) c) i c := by
  cases h with
  | semicolons => exact semicolons_eq hc
  | dottedNames => exact dottedNames_eq hc
  | words h => exact takeWords_eq (h.stops hc) hc
  | groups => exact groups_eq _ _ i
  | value => exact valueFrom_eq i
  | statement => exact statementFrom_eq i.1 i.2
  | arrow => exact arrowFrom_eq hc i
  | mapped => exact mappedFrom_eq hc
  | @listed _ list item h =>
      exact unroll (F := fun k _ => itemsUntil list item k) (fun _ _ => rfl)
        (fun _ => advances_untilRound list h.within) hc i
  | @separated _ sep item h =>
      exact unroll (F := fun k _ => itemsAfter sep item k) (fun _ _ => rfl)
        (fun _ => advances_afterRound sep h.within) hc i
  | members inClass =>
      exact unroll (F := fun k _ => membersTo typeExpr inClass k) (fun _ _ => rfl)
        (fun B => (advances_membersRound within_typeExpr inClass).mono (Nat.le_succ B)) hc i
  | importNames => exact unroll (fun _ _ => rfl) (fun _ => advances_dotNamesRound) hc i
  | brackets =>
      exact unroll (fun _ _ => rfl)
        (fun B => (advances_bracketsRound within_typeExpr).mono (Nat.le_succ B)) hc i
  | operators =>
      exact unroll (F := fun k _ => operatorTo typeExpr k) (fun _ _ => rfl)
        (fun B => (advances_operatorRound within_typeExpr).mono (Nat.le_succ B)) hc i
  | types =>
      exact unroll (F := fun k _ => typeTo k) (fun _ _ => rfl) (fun _ => advances_typeRound) hc i
  | statements => exact statementsIn_eq hc i

end Recursions

/-- A reader of the grammar takes tokens or fails at one, wherever it is come to. -/
theorem Part.agree {r : Reader α} (h : Part c r) (hc : c.finish.kind = .finish) :
    Agree 0 r r c := by
  have hunder : c.Under (c.rest.length + 1) := ⟨Nat.lt_succ_self _, hc⟩
  have hbody : Within c.rest.length 0 (statementsIn true) (statementsIn true) :=
    within_statementsIn true
  cases h with
  | bump => exact within_bump c hunder
  | eat p => exact (within_eat p) c hunder
  | eatWord w => exact (within_eatWord w) c hunder
  | expect p => exact (within_expect p).weaken c hunder
  | name => exact within_name.weaken c hunder
  | propertyName => exact within_propertyName.weaken c hunder
  | qualifiedName => exact within_qualifiedName.weaken c hunder
  | recursion h i => exact (h.within i) c hunder
  | item h => exact h.within.weaken c hunder
  | operand h => exact h.within.weaken c hunder
  | skipGroup => exact (within_skipGroup _ _).weaken c hunder
  | skipValue => exact within_skipValue c hunder
  | skipStatement => exact within_skipStatement c hunder
  | arrowAhead => exact (within_look _) c hunder
  | mappedAhead => exact (within_look _) c hunder
  | typeParams => exact (within_typeParams within_typeExpr) c hunder
  | paramName => exact within_paramName.weaken c hunder
  | params => exact (within_params within_typeExpr).weaken c hunder
  | returnType => exact (within_returnType within_typeExpr) c hunder
  | fnSig => exact (within_fnSig within_typeExpr).weaken c hunder
  | fnType => exact (within_fnType within_typeExpr).weaken c hunder
  | typeArgs => exact (within_typeArgs within_typeExpr) c hunder
  | skipBody => exact within_skipBody c hunder
  | bracketMember => exact (within_bracketMember within_typeExpr _).weaken c hunder
  | namedMember => exact (within_namedMember within_typeExpr _).weaken c hunder
  | member => exact (within_member within_typeExpr _).weaken c hunder
  | importType => exact (within_importType within_typeExpr).weaken c hunder
  | refType => exact (within_refType within_typeExpr).weaken c hunder
  | wordType h =>
      refine (agree_wordType within_typeExpr _ hunder ?_).weaken (Nat.zero_le 1)
      exact Cursor.rest_ne_nil hc fun hk => nomatch h.symm.trans hk
  | primaryType => exact (within_primaryType within_typeExpr).weaken c hunder
  | postfixType => exact (within_postfixType within_typeExpr).weaken c hunder
  | unionType => exact (within_unionType within_typeExpr).weaken c hunder
  | typeWith => exact (within_typeWith within_typeExpr).weaken c hunder
  | functionName => exact within_functionName c hunder
  | functionDecl => exact within_functionDecl.weaken c hunder
  | className => exact within_className c hunder
  | heritage => exact (within_heritage _) c hunder
  | classDecl => exact within_classDecl.weaken c hunder
  | interfaceDecl => exact within_interfaceDecl.weaken c hunder
  | aliasDecl => exact within_aliasDecl.weaken c hunder
  | enumDecl => exact within_enumDecl.weaken c hunder
  | variableName => exact within_variableName.weaken c hunder
  | variableDecls => exact within_variableDecls.weaken c hunder
  | namespaceDecl => exact (within_namespaceDecl hbody).weaken c hunder
  | declarationOf => exact (within_declarationOf hbody _).weaken c hunder
  | skipBefore => exact (within_skipBefore _ _) c hunder
  | declaration => exact (within_declaration hbody).weaken c hunder
  | exportSource => exact within_exportSource c hunder
  | defaultExport => exact (within_defaultExport hbody).weaken c hunder
  | exported => exact (within_exported hbody) c hunder
  | statement => exact (within_statement hbody).weaken c hunder
  | statements => exact (within_statementsIn false) c hunder

end Reader

/-! ## Reading a text -/

open Reader

/-- What holds at a position among the tokens of a text. -/
structure Forward (ts : List Token) (finish : Token) (p : Nat) : Prop where
  /-- What is looked at is in the array, whose last token stands for all that lie ahead of it. -/
  looks : ∀ n,
    (ts ++ [finish])[min (p + n) ts.length]? = some ((Cursor.atIndex ts finish p).ahead n)
  /-- Taking a token goes to the next position, except at the last one. -/
  takes : (Cursor.atIndex ts finish p).skip = .atIndex ts finish (min (p + 1) ts.length)
  /-- A reader of the grammar leaves off at a position that is no earlier, or fails. -/
  reads : ∀ {α : Type} {r : Reader α}, Part (.atIndex ts finish p) r → EndsFrom ts finish p r
  /-- A loop or a circle of readers goes on only after a token has been taken: it does the same if
  going on without one is an error, of a kind that no reader of the grammar ends with. -/
  goes : ∀ {ι α : Type} {read : ι → Reader α} {round : (ι → Reader α) → ι → Reader α},
    Recursion read round → ∀ i, read i (.atIndex ts finish p) =
      round (fun j => past (read j) (.atIndex ts finish p)) i (.atIndex ts finish p)

theorem forward {ts : List Token} {finish : Token} {p : Nat} (hfinish : finish.kind = .finish)
    (hp : p ≤ ts.length) : Forward ts finish p where
  looks := getElem?_ahead
  takes := skip_atIndex
  reads h := (h.agree hfinish).endsFrom hp
  goes h i := h.eq hfinish i

/-- **A text has its statements, or an error at one of its own places.**  Its tokens come before the
one that stands for the end, and at each of their positions reading goes forward. -/
theorem parse_reads_forward (text : String) :
    match tokens text.toList with
    | .error e => parse text = .error (.lexical e)
    | .ok (ts, last) =>
      ((∃ ss, parse text = .ok ss) ∨
        ∃ t ∈ ts ++ [⟨.finish, last, true⟩], ∃ x,
          parse text = .error (.unexpected t.place x t.kind)) ∧
      (∀ t ∈ ts, t.kind ≠ .finish) ∧
      ∀ p ≤ ts.length, Forward ts ⟨.finish, last, true⟩ p := by
  rcases htokens : tokens text.toList with e | ⟨ts, last⟩
  · rw [parse, htokens]
  · have hforward : ∀ p ≤ ts.length, Forward ts ⟨.finish, last, true⟩ p := fun p hp =>
      forward rfl hp
    refine ⟨?_, tokensFrom_ne_finish _ _ _ ts last htokens, hforward⟩
    have hparse : parse text =
        Prod.fst <$> Reader.statements (.atIndex ts ⟨.finish, last, true⟩ 0) := by
      rw [parse, htokens]
      rfl
    rcases (hforward 0 (Nat.zero_le _)).reads .statements with ⟨ss, _, _, _, h⟩ | ⟨t, ht, x, h⟩
    · refine .inl ⟨ss, ?_⟩
      rw [hparse, h]
      rfl
    · refine .inr ⟨t, ht, x, ?_⟩
      rw [hparse, h]
      rfl

end ApiSurface.Declaration
