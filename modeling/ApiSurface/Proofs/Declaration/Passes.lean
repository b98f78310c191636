/-
# `ApiSurface.Proofs.Declaration.Passes` — loops over the tokens, one pass at a time

Some readers take several tokens at once: names after dots, words of a list, a group in brackets,
the rest of a value or of a statement.  Each of them is a function on the list of tokens.  As a loop
it looks at the next token, takes it or stops, and goes on; that pass is written down here in terms
of single tokens, and the reader is shown to be the pass followed by itself at a cursor with fewer
tokens (`semicolons_eq`, `dottedNames_eq`, `takeWords_eq`, `groups_eq`, `valueFrom_eq`,
`statementFrom_eq`).  Two loops only look ahead; they are cut off in the same way, one token further
on (`beyond`).

Lists of items are loops of the other kind, with a bound on their passes (`within_listed`,
`within_separated`).
-/
import ApiSurface.Declaration.TypeReader
import ApiSurface.Proofs.Declaration.Cursors

namespace ApiSurface.Declaration.Reader

variable {α : Type} {b n : Nat} {c : Cursor}

theorem within_rest {g : List Token → α × List Token} (hg : ∀ ts, (g ts).2 <:+ ts) :
    Within b 0 (fun c => .ok ((g c.rest).1, { c with rest := (g c.rest).2 }))
      (fun c => .ok ((g c.rest).1, { c with rest := (g c.rest).2 })) :=
  fun c _ => agree_ok rfl (Cursor.takes_rest (hg c.rest))

/-! ## One step of a reader -/

section Steps

variable {γ : Type} (finish t : Token) (ts : List Token)

@[simp]
theorem next_nil : Cursor.next ⟨[], finish⟩ = finish :=
  rfl

@[simp]
theorem next_cons : Cursor.next ⟨t :: ts, finish⟩ = t :=
  rfl

@[simp]
theorem skip_cons : Cursor.skip ⟨t :: ts, finish⟩ = ⟨ts, finish⟩ :=
  rfl

@[simp]
theorem ahead_one_cons : Cursor.ahead ⟨t :: ts, finish⟩ 1 = Cursor.next ⟨ts, finish⟩ :=
  rfl

@[simp]
theorem ahead_two_cons (u : Token) :
    Cursor.ahead ⟨t :: u :: ts, finish⟩ 2 = Cursor.next ⟨ts, finish⟩ :=
  rfl

@[simp]
theorem run_pure (a : α) : (pure a : Reader α) c = .ok (a, c) :=
  rfl

theorem run_map (g : α → γ) (r : Reader α) (c : Cursor) : (g <$> r) c = match r c with
    | .ok (a, c') => .ok (g a, c')
    | .error e => .error e := by
  show (r c >>= fun p => .ok (g p.1, p.2)) = _
  rcases r c with e | ⟨a, c'⟩ <;> rfl

@[simp]
theorem run_expected_bind (x : Expected) (f : α → Reader γ) :
    (expected x >>= f) c = .error (.unexpected c.next.place x c.next.kind) :=
  rfl

@[simp]
theorem run_peek (f : Token → Reader γ) : (peek >>= f) c = f c.next c :=
  rfl

@[simp]
theorem run_peekAt (k : Nat) (f : Token → Reader γ) : (peekAt k >>= f) c = f (c.ahead k) c :=
  rfl

@[simp]
theorem run_map_peekAt (k : Nat) (f : Token → γ) : (f <$> peekAt k) c = .ok (f (c.ahead k), c) :=
  rfl

@[simp]
theorem run_bump (f : Token → Reader γ) : (bump >>= f) c = f c.next c.skip :=
  rfl

@[simp]
theorem run_map_bump (f : Token → γ) : (f <$> bump) c = .ok (f c.next, c.skip) :=
  rfl

@[simp]
theorem run_atEnd (f : Bool → Reader γ) : (atEnd >>= f) c = f c.rest.isEmpty c :=
  rfl

@[simp]
theorem run_eat (p : Punct) (f : Bool → Reader γ) :
    (eat p >>= f) c = if c.next.isPunct p then f true c.skip else f false c := by
  rw [run_bind, eat]
  cases c.next.isPunct p <;> rfl

@[simp]
theorem run_name {w : String} (h : c.next.kind = .word w) (f : String → Reader γ) :
    (name >>= f) c = f w c.skip := by
  rw [run_bind, name, h]

/-- A reader that is cut off goes on after a token. -/
@[simp]
theorem past_cons (r : Reader α) : past r ⟨t :: ts, finish⟩ ⟨ts, finish⟩ = r ⟨ts, finish⟩ :=
  if_pos (Nat.lt_succ_self _)

@[simp]
theorem past_cons_cons (r : Reader α) (u : Token) :
    past r ⟨t :: u :: ts, finish⟩ ⟨ts, finish⟩ = r ⟨ts, finish⟩ :=
  if_pos (Nat.lt_add_of_pos_right (Nat.zero_lt_two))

end Steps

/-! ## Semicolons and names -/

theorem within_semicolons : Within b 0 semicolons semicolons :=
  within_rest (g := fun ts => ((), ts.dropWhile _)) fun _ => List.dropWhile_suffix _

/-- A semicolon and the ones after it. -/
def semicolonsRound (again : Unit → Reader Unit) (_ : Unit) : Reader Unit := do
  if ← eat .semicolon then again ()

theorem semicolons_eq (hc : c.finish.kind = .finish) :
    semicolons c = semicolonsRound (fun _ => past semicolons c) () c := by
  obtain ⟨rest, finish⟩ := c
  cases rest with
  | nil => simp [semicolonsRound, semicolons, Token.isPunct_of_finish hc]
  | cons t ts =>
      by_cases ht : t.isPunct .semicolon = true <;> simp [semicolonsRound, semicolons, ht]

/-- The names that come after dots. -/
def dottedNames : Reader (List String) := fun c =>
  .ok ((dottedRest c.rest).1, { c with rest := (dottedRest c.rest).2 })

theorem dottedRest_suffix (ts : List Token) : (dottedRest ts).2 <:+ ts := by
  fun_induction dottedRest ts with
  | case1 t u r _ w _ ws r' heq ih =>
      rw [heq] at ih
      exact ih.trans ((List.suffix_cons u r).trans (List.suffix_cons t _))
  | case2 => exact List.suffix_refl _
  | case3 => exact List.suffix_refl _

theorem within_dottedNames : Within b 0 dottedNames dottedNames :=
  within_rest dottedRest_suffix

theorem within_qualifiedName : Within b 1 qualifiedName qualifiedName :=
  within_name.takes fun w c hc => ((within_dottedNames.map (w :: ·)) c hc).congr rfl rfl

/-- A name after a dot, and the ones after it. -/
def dottedNamesRound (again : Unit → Reader (List String)) (_ : Unit) : Reader (List String) := do
  if (← peek).isPunct .dot && (← peekAt 1).isWord then
    let _ ← bump
    let w ← name
    return w :: (← again ())
  else return []

theorem dottedNames_eq (hc : c.finish.kind = .finish) :
    dottedNames c = dottedNamesRound (fun _ => past dottedNames c) () c := by
  obtain ⟨rest, finish⟩ := c
  have hdot : finish.isPunct .dot = false := Token.isPunct_of_finish hc _
  have hword : finish.isWord = false := Token.isWord_of_finish hc
  match rest with
  | [] => simp [dottedNamesRound, dottedNames, dottedRest, hdot]
  | [t] => simp [dottedNamesRound, dottedNames, dottedRest, hword]
  | t :: u :: r =>
      by_cases hdot : t.isPunct .dot = true
      · cases hu : u.kind <;> simp [dottedNamesRound, dottedNames, dottedRest, Token.isWord,
          Token.word?, hdot, hu, run_map]
      · simp [dottedNamesRound, dottedNames, dottedRest, hdot]

theorem leadingWords_suffix (words : List String) (followed : Token → Bool) (ts : List Token) :
    (leadingWords words followed ts).2 <:+ ts := by
  fun_induction leadingWords words followed ts with
  | case1 t u r w _ _ ws ts' heq ih =>
      rw [heq] at ih
      exact ih.trans (List.suffix_cons t _)
  | case2 | case3 | case4 => exact List.suffix_refl _

theorem within_takeWords (words : List String) (followed : Token → Bool) :
    Within b 0 (takeWords words followed) (takeWords words followed) :=
  within_rest (leadingWords_suffix words followed)

/-- The words of a list that come next, each before a token of the given sort. -/
def wordsRound (words : List String) (followed : Token → Bool)
    (again : Unit → Reader (List String)) (_ : Unit) : Reader (List String) := do
  match (← peek).word? with
  | some w =>
    if words.contains w && followed (← peekAt 1) then
      let _ ← bump
      return w :: (← again ())
    else return []
  | none => return []

theorem takeWords_eq {words : List String} {followed : Token → Bool}
    (hfollowed : followed c.finish = false) (hc : c.finish.kind = .finish) :
    takeWords words followed c =
      wordsRound words followed (fun _ => past (takeWords words followed) c) () c := by
  obtain ⟨rest, finish⟩ := c
  have hword : finish.word? = none := Token.word?_of_finish hc
  have hstop : followed finish = false := hfollowed
  match rest with
  | [] => simp [wordsRound, takeWords, leadingWords, hword]
  | [t] => cases hw : t.word? <;> simp [wordsRound, takeWords, leadingWords, hw, hstop]
  | t :: u :: r =>
      cases hw : t.word? with
      | none => simp [wordsRound, takeWords, leadingWords, hw]
      | some w =>
          by_cases hgo : w ∈ words ∧ followed u = true
          · simp [wordsRound, takeWords, leadingWords, hw, hgo, run_map]
          · simp [wordsRound, takeWords, leadingWords, hw, hgo]

/-! ## Skipping -/

/-- The rest of `depth` groups. -/
def groups (opening closing : Punct) (depth : Nat) : Reader Unit := fun c =>
  match afterGroups opening closing depth c.rest with
  | some ts => .ok ((), { c with rest := ts })
  | none => .error (.unexpected c.finish.place (.punct closing) c.finish.kind)

theorem afterGroups_suffix (opening closing : Punct) (depth : Nat) (ts : List Token) :
    ∀ us, afterGroups opening closing depth ts = some us → us <:+ ts := by
  fun_induction afterGroups opening closing depth ts with
  | case1 ts =>
      intro us h
      cases h
      exact List.suffix_refl _
  | case2 =>
      intro us h
      cases h
  | case3 _ t ts _ ih | case4 _ t ts _ _ ih | case5 _ t ts _ _ ih =>
      intro us h
      exact (ih us h).trans (List.suffix_cons t ts)

theorem within_groups (opening closing : Punct) (depth : Nat) :
    Within b 0 (groups opening closing depth) (groups opening closing depth) := by
  intro c _
  cases h : afterGroups opening closing depth c.rest with
  | some ts =>
      refine agree_ok (a := ()) ?_ (Cursor.takes_rest (afterGroups_suffix _ _ _ _ ts h))
      simp only [groups, h]
  | none =>
      refine agree_error (e := .unexpected c.finish.place (.punct closing) c.finish.kind) ?_
        ⟨c.finish, List.mem_append_right _ List.mem_cons_self, _, rfl⟩
      simp only [groups, h]

theorem within_skipGroup (opening closing : Punct) :
    Within b 1 (skipGroup opening closing) (skipGroup opening closing) :=
  (within_expect opening).takes fun _ => within_groups opening closing 1

/-- A token of some groups, and the ones after it. -/
def groupsRound (opening closing : Punct) (again : Nat → Reader Unit) (depth : Nat) :
    Reader Unit := do
  if depth == 0 then return
  if ← atEnd then expected (.punct closing)
  let t ← bump
  if t.isPunct opening then again (depth + 1)
  else if t.isPunct closing then again (depth - 1)
  else again depth

theorem groups_eq (opening closing : Punct) (depth : Nat) :
    groups opening closing depth c =
      groupsRound opening closing (fun d => past (groups opening closing d) c) depth c := by
  obtain ⟨rest, finish⟩ := c
  cases depth with
  | zero => simp [groups, groupsRound, afterGroups]
  | succ depth =>
      cases rest with
      | nil => simp [groups, groupsRound, afterGroups]
      | cons t ts =>
          by_cases hopen : t.isPunct opening = true
          · simp [groups, groupsRound, afterGroups, hopen]
          by_cases hclose : t.isPunct closing = true <;>
            simp [groups, groupsRound, afterGroups, hopen, hclose]

/-- The rest of an initial value, inside `depth` groups of it. -/
def valueFrom (depth : Nat) : Reader Unit := fun c =>
  .ok ((), { c with rest := afterValue depth c.rest })

theorem afterValue_suffix (depth : Nat) (ts : List Token) : afterValue depth ts <:+ ts := by
  fun_induction afterValue depth ts with
  | case1 | case2 => exact List.suffix_refl _
  | case3 t ts _ _ ih | case4 t ts _ _ ih | case5 _ t ts _ ih | case6 _ t ts _ _ ih
  | case7 _ t ts _ _ ih => exact ih.trans (List.suffix_cons t ts)

theorem within_valueFrom (depth : Nat) : Within b 0 (valueFrom depth) (valueFrom depth) :=
  within_rest (g := fun ts => ((), afterValue depth ts)) (afterValue_suffix depth)

theorem within_skipValue : Within b 0 skipValue skipValue :=
  within_valueFrom 0

/-- A token of an initial value, and the ones after it. -/
def valueRound (again : Nat → Reader Unit) (depth : Nat) : Reader Unit := do
  if ← atEnd then return
  let t ← peek
  if depth == 0 && endsValue t then return
  let _ ← bump
  if t.opens then again (depth + 1)
  else if t.closes then again (depth - 1)
  else again depth

theorem valueFrom_eq (depth : Nat) :
    valueFrom depth c = valueRound (fun d => past (valueFrom d) c) depth c := by
  obtain ⟨rest, finish⟩ := c
  cases rest with
  | nil => simp [valueFrom, valueRound, afterValue]
  | cons t ts =>
      cases depth with
      | zero =>
          by_cases hends : endsValue t = true
          · simp [valueFrom, valueRound, afterValue, hends]
          by_cases hopens : t.opens = true <;>
            simp [valueFrom, valueRound, afterValue, hends, hopens]
      | succ depth =>
          by_cases hopens : t.opens = true
          · simp [valueFrom, valueRound, afterValue, hopens]
          by_cases hcloses : t.closes = true <;>
            simp [valueFrom, valueRound, afterValue, hopens, hcloses]

/-- The rest of a statement, inside `depth` groups of it; its first token may be on a new line. -/
def statementFrom (first : Bool) (depth : Nat) : Reader Unit := fun c =>
  .ok ((), { c with rest := afterStatement first depth c.rest })

theorem afterStatement_suffix (first : Bool) (depth : Nat) (ts : List Token) :
    afterStatement first depth ts <:+ ts := by
  fun_induction afterStatement first depth ts with
  | case1 | case3 | case4 => exact List.suffix_refl _
  | case2 _ t ts _ => exact List.suffix_cons t ts
  | case5 _ t ts _ _ _ _ ih | case6 _ t ts _ _ _ _ ih | case7 _ _ t ts _ ih
  | case8 _ _ t ts _ _ ih | case9 _ _ t ts _ _ ih => exact ih.trans (List.suffix_cons t ts)

theorem within_statementFrom (first : Bool) (depth : Nat) :
    Within b 0 (statementFrom first depth) (statementFrom first depth) :=
  within_rest (g := fun ts => ((), afterStatement first depth ts))
    (afterStatement_suffix first depth)

theorem within_skipStatement : Within b 0 skipStatement skipStatement :=
  within_statementFrom true 0

/-- A statement that begins with a token of its own is not skipped without taking that. -/
theorem agree_skipStatement (hc : c.finish.kind = .finish) (hne : c.next.kind ≠ .finish)
    (hbrace : c.next.isPunct .closeBrace = false) : Agree 1 skipStatement skipStatement c := by
  obtain ⟨t, ts, hrest⟩ := List.exists_cons_of_ne_nil (Cursor.rest_ne_nil hc hne)
  have hnext : c.next = t := by simp [Cursor.next, Cursor.ahead, hrest]
  rw [hnext] at hbrace
  have hsuffix : afterStatement true 0 c.rest <:+ ts := by
    rw [hrest, afterStatement, hbrace]
    split
    · exact List.suffix_refl ts
    · simp only [Bool.false_eq_true, if_false, Bool.not_true, Bool.false_and]
      split <;> exact afterStatement_suffix _ _ _
  have hlen : (afterStatement true 0 c.rest).length + 1 ≤ c.rest.length := by
    rw [hrest] at hsuffix ⊢
    exact Nat.succ_le_succ hsuffix.length_le
  exact agree_ok (a := ()) rfl ⟨hsuffix.trans (hrest ▸ List.suffix_cons t ts), rfl, hlen⟩

/-- A token of a statement, and the ones after it. -/
def statementRound (again : Bool × Nat → Reader Unit) (i : Bool × Nat) : Reader Unit := do
  if ← atEnd then return
  let t ← peek
  if i.2 == 0 then
    if t.isPunct .semicolon then
      let _ ← bump
      return
    if t.isPunct .closeBrace then return
    if !i.1 && t.onNewLine && t.isOneOf statementStarts then return
  let _ ← bump
  if t.opens then again (false, i.2 + 1)
  else if t.closes then again (false, i.2 - 1)
  else again (false, i.2)

theorem statementFrom_eq (first : Bool) (depth : Nat) :
    statementFrom first depth c =
      statementRound (fun i => past (statementFrom i.1 i.2) c) (first, depth) c := by
  obtain ⟨rest, finish⟩ := c
  cases rest with
  | nil => simp [statementFrom, statementRound, afterStatement]
  | cons t ts =>
      cases depth with
      | zero =>
          by_cases hsemicolon : t.isPunct .semicolon = true
          · simp [statementFrom, statementRound, afterStatement, hsemicolon]
          by_cases hbrace : t.isPunct .closeBrace = true
          · simp [statementFrom, statementRound, afterStatement, hsemicolon, hbrace]
          by_cases hstarts : (first = false ∧ t.onNewLine = true) ∧ t.isOneOf statementStarts = true
          · simp [statementFrom, statementRound, afterStatement, hsemicolon, hbrace, hstarts]
          by_cases hopens : t.opens = true <;>
            simp [statementFrom, statementRound, afterStatement, hsemicolon, hbrace, hstarts,
              hopens]
      | succ depth =>
          by_cases hopens : t.opens = true
          · simp [statementFrom, statementRound, afterStatement, hopens]
          by_cases hcloses : t.closes = true <;>
            simp [statementFrom, statementRound, afterStatement, hopens, hcloses]

/-! ## Looking ahead -/

/-- What a reader finds one token further on; the cursor stays where it is. -/
def beyond (r : Reader α) : Reader α := fun c =>
  match r c.skip with
  | .ok (a, _) => .ok (a, c)
  | .error e => .error e

/-- Whether an arrow follows where `depth` groups are closed. -/
def arrowFrom (depth : Nat) : Reader Bool := fun c => .ok (arrowAfter depth c.rest, c)

/-- A look at the next token, and at the ones beyond it. -/
def arrowRound (again : Nat → Reader Bool) (depth : Nat) : Reader Bool := do
  if ← atEnd then return false
  let t ← peek
  if t.opens then beyond (again (depth + 1))
  else if t.closes then
    if depth ≤ 1 then return (← peekAt 1).isPunct .arrow else beyond (again (depth - 1))
  else beyond (again depth)

theorem arrowFrom_eq (hc : c.finish.kind = .finish) (depth : Nat) :
    arrowFrom depth c = arrowRound (fun d => past (arrowFrom d) c) depth c := by
  obtain ⟨rest, finish⟩ := c
  have harrow : finish.isPunct .arrow = false := Token.isPunct_of_finish hc _
  cases rest with
  | nil => simp [arrowFrom, arrowRound, arrowAfter]
  | cons t ts =>
      by_cases hopens : t.opens = true
      · simp [arrowFrom, arrowRound, arrowAfter, beyond, hopens]
      by_cases hcloses : t.closes = true
      · by_cases hdepth : depth ≤ 1
        · cases ts <;> simp [arrowFrom, arrowRound, arrowAfter, hopens, hcloses, hdepth, harrow]
        · simp [arrowFrom, arrowRound, arrowAfter, beyond, hopens, hcloses, hdepth]
      · simp [arrowFrom, arrowRound, arrowAfter, beyond, hopens, hcloses]

/-- Whether the key of a mapped type comes next, after its modifiers. -/
def mappedFrom : Reader Bool := fun c =>
  let r : Bool := match afterKeyModifiers c.rest with
    | t :: u :: v :: _ => t.isPunct .openBracket && u.isWord && v.isTheWord "in"
    | _ => false
  .ok (r, c)

/-- What may come before the key of a mapped type. -/
def isKeyModifier (t : Token) : Bool :=
  t.isTheWord "readonly" || t.isPunct .plus || t.isPunct .minus

theorem afterKeyModifiers_cons (t : Token) (ts : List Token) :
    afterKeyModifiers (t :: ts) = if isKeyModifier t then afterKeyModifiers ts else t :: ts :=
  List.dropWhile_cons

/-- A look at the next token, and at the ones beyond it if it is a modifier. -/
def mappedRound (again : Unit → Reader Bool) (_ : Unit) : Reader Bool := do
  let t ← peek
  if isKeyModifier t then beyond (again ())
  else return t.isPunct .openBracket && (← peekAt 1).isWord && (← peekAt 2).isTheWord "in"

theorem mappedFrom_eq (hc : c.finish.kind = .finish) :
    mappedFrom c = mappedRound (fun _ => past mappedFrom c) () c := by
  obtain ⟨rest, finish⟩ := c
  have hmodifier : isKeyModifier finish = false := by
    simp [isKeyModifier, Token.isTheWord_of_finish hc, Token.isPunct_of_finish hc]
  have hopen : finish.isPunct .openBracket = false := Token.isPunct_of_finish hc _
  have hword : finish.isWord = false := Token.isWord_of_finish hc
  have hin : finish.isTheWord "in" = false := Token.isTheWord_of_finish hc _
  cases rest with
  | nil => simp [mappedFrom, mappedRound, afterKeyModifiers, hmodifier, hopen]
  | cons t ts =>
      by_cases ht : isKeyModifier t = true
      · simp [mappedFrom, mappedRound, afterKeyModifiers_cons, beyond, ht]
      match ts with
      | [] => simp [mappedFrom, mappedRound, afterKeyModifiers_cons, ht, hword]
      | [u] => simp [mappedFrom, mappedRound, afterKeyModifiers_cons, ht, hin]
      | u :: v :: r => simp [mappedFrom, mappedRound, afterKeyModifiers_cons, ht]

/-! ## Lists -/

/-- An item of a list and what comes after it, or its closing punctuator. -/
def untilRound (list : ListKind) (item : Reader α) (again : Unit → Reader (List α)) (_ : Unit) :
    Reader (List α) := do
  if ← eat list.close then return []
  let first ← item
  if !(← eat .comma) && !(← atPunct list.close) then expected (.commaOrClose list)
  return first :: (← again ())

/-- An item and, if `sep` is next, the ones after it. -/
def afterRound (sep : Punct) (item : Reader α) (again : Unit → Reader (List α)) (_ : Unit) :
    Reader (List α) := do
  let first ← item
  if ← eat sep then return first :: (← again ()) else return [first]

theorem advances_untilRound (list : ListKind) (hitem : Within b 1 r r') :
    Advances b 1 (untilRound list r) (untilRound list r') := by
  intro k hk again again' hagain _
  refine within_ifEat _ (within_pure _) ?_
  refine (hitem.mono hk (Nat.le_refl 1)).first fun first => ?_
  refine (within_eat .comma).bind fun _ => (within_atPunct _).bind fun _ => ?_
  exact .before (within_expected _) ((hagain ()).weaken.bind fun _ => within_pure _)

theorem advances_afterRound (sep : Punct) (hitem : Within b 1 r r') :
    Advances b 1 (afterRound sep r) (afterRound sep r') := by
  intro k hk again again' hagain _
  refine (hitem.mono hk (Nat.le_refl 1)).first fun first => ?_
  refine (within_eat sep).bind fun _ => .ite ?_ (within_pure _)
  exact (hagain ()).weaken.bind fun others => within_pure (first :: others)

theorem within_listed (list : ListKind) (hitem : Within b 1 r r') :
    Within b 1 (listed list r) (listed list r') :=
  within_looped (F := fun k _ => itemsUntil list r k) (G := fun k _ => itemsUntil list r' k)
    (fun _ _ => rfl) (fun _ _ => rfl) (advances_untilRound list hitem) ()

theorem within_separated (sep : Punct) (hitem : Within b 1 r r') :
    Within b 1 (separated sep r) (separated sep r') :=
  within_looped (F := fun k _ => itemsAfter sep r k) (G := fun k _ => itemsAfter sep r' k)
    (fun _ _ => rfl) (fun _ _ => rfl) (advances_afterRound sep hitem) ()

theorem within_annotated (p : Punct) (h : Within b 0 r r') :
    Within b 0 (annotated p r) (annotated p r') :=
  (within_eat p).bind fun _ => .ite (h.bind fun _ => within_pure _) (within_pure _)

end ApiSurface.Declaration.Reader
