/-
# `ApiSurface.Proofs.Declaration.TypeReading` — reading a type takes tokens

The readers of types call each other through the one of nested types, which they have as a
parameter.  Each of them takes a token before it calls it; so two of these that agree where less
than `b` tokens are left make readers that agree where less than `b + 1` are left.  That is one
lemma for each reader, along its definition.

Tied together, they give readers that never reach their bound (`within_typeTo`).
-/
import ApiSurface.Proofs.Declaration.Passes

namespace ApiSurface.Declaration.Reader

variable {b : Nat}

section Types

variable {type type' : Reader TypeExpr} (h : Within b 1 type type')

/-! ## Signatures -/

theorem within_paramName : Within b 1 paramName paramName := by
  refine (within_atPunct _).bind fun _ => .ite ?_ ((within_atPunct _).bind fun _ => .ite ?_ ?_)
  · exact (within_skipGroup _ _).takes fun _ => within_pure _
  · exact (within_skipGroup _ _).takes fun _ => within_pure _
  · exact within_name

theorem within_skipBody : Within b 0 skipBody skipBody :=
  (within_atPunct _).bind fun _ => .ite (within_skipGroup _ _).weaken (within_pure _)

include h

theorem within_typeParam : Within (b + 1) 1 (typeParam type) (typeParam type') := by
  refine (within_takeWords _ _).bind fun _ => within_name.first fun w => ?_
  refine (within_eatWord _).bind fun _ => .either (h.map some).weaken (within_pure none) ?_
  exact fun bound => (within_eat _).bind fun _ => .before h.weaken (within_pure _)

theorem within_typeParams : Within (b + 1) 0 (typeParams type) (typeParams type') :=
  (within_eat _).bind fun _ =>
    .ite (within_listed _ (within_typeParam h)).weaken (within_pure _)

theorem within_param : Within (b + 1) 1 (param type) (param type') := by
  refine (within_takeWords _ _).bind fun _ => (within_eat _).bind fun rest => ?_
  refine within_paramName.first fun name => (within_eat _).bind fun optional => ?_
  refine (within_annotated _ h.weaken).bind fun ty => (within_eat _).bind fun _ => ?_
  exact .before within_skipValue (within_pure _)

theorem within_params : Within (b + 1) 1 (params type) (params type') :=
  (within_expect _).first fun _ =>
    (within_listed _ (within_param h)).later.bind fun _ => within_pure _

theorem within_returnType : Within b 0 (returnType type) (returnType type') := by
  refine (within_look _).bind fun t => (within_look _).bind fun u => .ite ?_ (.ite ?_ h.weaken)
  · refine within_bump.bind fun _ => within_bump.bind fun _ => ?_
    exact (within_eatWord _).bind fun _ => .before h.weaken (within_pure _)
  · refine within_bump.bind fun _ => within_bump.bind fun _ => ?_
    exact h.weaken.bind fun _ => within_pure _

theorem within_fnSig : Within (b + 1) 1 (fnSig type) (fnSig type') := by
  refine (within_typeParams h).bind fun tps => (within_params h).first fun ps => ?_
  exact (within_annotated _ (within_returnType h)).bind fun ret => within_pure _

theorem within_fnType : Within (b + 1) 1 (fnType type) (fnType type') := by
  refine (within_typeParams h).bind fun tps => (within_params h).first fun ps => ?_
  refine (within_expect _).weaken.bind fun _ => ?_
  exact (within_returnType h).bind fun ret => within_pure _

theorem within_typeArgs : Within b 0 (typeArgs type) (typeArgs type') := by
  refine (within_look _).bind fun t => .ite ?_ (within_pure _)
  exact within_bump.bind fun _ => (within_listed _ h).weaken

/-! ## Members -/

theorem within_bracketMember (modifiers : Modifiers) :
    Within (b + 1) 1 (bracketMember type modifiers) (bracketMember type' modifiers) := by
  intro c hc
  refine .look (.look (.ite (fun hahead => ?_) fun _ => ?_))
  · have hword : (c.ahead 1).isWord = true := ((Bool.and_eq_true _ _).mp hahead).1
    have hrest := Cursor.rest_ne_nil_of_ahead hc.ends (Token.ne_finish_of_isWord hword)
    refine .bump hc hrest fun _ => within_bump.bind fun _ => within_bump.bind fun _ => ?_
    refine h.weaken.bind fun _ => (within_expect _).weaken.bind fun _ => ?_
    refine (within_eat _).bind fun _ => (within_annotated _ h.weaken).bind fun _ => ?_
    exact within_pure _
  · refine (within_skipGroup _ _).first (fun _ => ?_) c hc
    refine (within_eat _).bind fun _ => (within_look _).bind fun t => .ite ?_ ?_
    · exact (within_fnSig h).later.bind fun _ => within_pure _
    · exact (within_annotated _ h.weaken).bind fun _ => within_pure _

theorem within_namedMember (words : List String) :
    Within (b + 1) 1 (namedMember type words) (namedMember type' words) := by
  refine within_propertyName.first fun name => (within_eat _).bind fun optional => ?_
  refine (within_eat _).bind fun _ => (within_look _).bind fun t => .ite ?_ ?_
  · refine (within_fnSig h).later.bind fun sig => within_skipBody.bind fun _ => ?_
    split <;> exact within_pure _
  · refine (within_annotated _ h.weaken).bind fun ty => (within_eat _).bind fun _ => ?_
    exact .before within_skipValue (within_pure _)

theorem within_member (inClass : Bool) :
    Within (b + 1) 1 (member type inClass) (member type' inClass) := by
  refine (within_takeWords _ _).bind fun words => (within_eat _).bind fun _ => ?_
  refine (within_look _).bind fun t => (within_look _).bind fun u => ?_
  refine .ite (within_bracketMember h _) (.ite ?_ (.ite ?_ (.ite ?_ (within_namedMember h words))))
  · exact (within_fnSig h).first fun _ => within_pure _
  · exact within_bump.bind fun _ => (within_fnSig h).first fun _ => within_pure _
  · refine within_bump.bind fun _ => (within_fnSig h).first fun _ => ?_
    exact within_skipBody.bind fun _ => within_pure _

omit h in
/-- A member and the ones after it, or the closing brace. -/
def membersRound (type : Reader TypeExpr) (inClass : Bool) (again : Unit → Reader (List Member))
    (_ : Unit) : Reader (List Member) := do
  if ← eat .closeBrace then return []
  if ← atEnd then expected (.punct .closeBrace)
  if ← eat .semicolon then return ← again ()
  if ← eat .comma then return ← again ()
  let first ← member type inClass
  let others ← again ()
  return first.toList ++ others

theorem advances_membersRound (inClass : Bool) :
    Advances (b + 1) 1 (membersRound type inClass) (membersRound type' inClass) := by
  intro k hk again again' hagain _
  have hfirst := within_member (h.mono (Nat.le_of_lt_succ hk) (Nat.le_refl 1)) inClass
  have hmembers := hfirst.first fun first =>
    (hagain ()).weaken.bind fun others => within_pure (first.toList ++ others)
  have hrest := within_ifEat .semicolon (hagain ()).weaken
    (within_ifEat .comma (hagain ()).weaken hmembers)
  refine within_ifEat _ (within_pure _) ?_
  exact (within_look _).bind fun _ => .before (within_expected _) hrest

theorem within_members (inClass : Bool) :
    Within (b + 1) 1 (members type inClass) (members type' inClass) :=
  within_looped (F := fun k _ => membersTo type inClass k)
    (G := fun k _ => membersTo type' inClass k) (fun _ _ => rfl) (fun _ _ => rfl)
    (advances_membersRound h inClass) ()

/-! ## Types -/

theorem within_tupleItem : Within b 1 (tupleItem type) (tupleItem type') := by
  refine (within_eat _).bind fun rest => (within_look _).bind fun t => ?_
  refine (within_look _).bind fun u => (within_look _).bind fun v => .ite ?_ ?_
  · refine within_bump.bind fun _ => (within_eat _).bind fun optional => ?_
    refine (within_expect _).weaken.bind fun _ => (within_pure optional).bind fun _ => ?_
    exact h.takes fun ty => (within_eat _).bind fun marked => within_pure _
  · refine (within_pure false).bind fun _ => ?_
    exact h.takes fun ty => (within_eat _).bind fun marked => within_pure _

omit h in
/-- A name after a dot, and the ones after it. -/
def dotNamesRound (again : Unit → Reader Unit) (_ : Unit) : Reader Unit := do
  if ← eat .dot then
    let _ ← name
    again ()

omit h in
theorem advances_dotNamesRound : Advances b 0 dotNamesRound dotNamesRound := by
  intro k _ again again' hagain _
  refine (within_eat _).bind fun _ => .ite ?_ (within_pure _)
  exact (within_name.first fun _ => hagain ()).weaken

theorem within_importType : Within (b + 1) 1 (importType type) (importType type') := by
  refine within_bump.bind fun _ => (within_skipGroup _ _).first fun _ => within_left fun k hk => ?_
  have hnames : Within (k + 1) 0 (dotNames (k + 1)) (dotNames (k + 1)) :=
    within_steps (F := fun k _ => dotNames k) (G := fun k _ => dotNames k) (fun _ _ => rfl)
      (fun _ _ => rfl) advances_dotNamesRound (k + 1) (Nat.le_refl _) _ _ (Nat.le_refl _)
      (Nat.le_refl _) ()
  have hargs := within_typeArgs (h.mono hk (Nat.le_refl 1))
  exact hnames.bind fun _ => hargs.bind fun _ => within_pure _

theorem within_refType : Within (b + 1) 1 (refType type) (refType type') :=
  within_qualifiedName.first fun _ => (within_typeArgs h).bind fun _ => within_pure _

theorem agree_wordType (word : String) {c : Cursor} (hc : c.Under (b + 1)) (hrest : c.rest ≠ []) :
    Agree 1 (wordType type word) (wordType type' word) c := by
  refine .look (.ite (fun _ => ?_) fun _ => .ite (fun _ => ?_) fun _ => .ite (fun _ => ?_) ?_)
  · exact .bump hc hrest fun _ => within_pure _
  · refine .bump hc hrest fun _ => (within_atWord _).bind fun _ => .ite ?_ ?_
    · exact (within_importType h).later.bind fun _ => within_pure _
    · refine within_qualifiedName.weaken.bind fun _ => ?_
      exact (within_typeArgs h).bind fun _ => within_pure _
  · exact (within_importType h).first (fun _ => within_pure _) c hc
  · intro _
    cases Keyword.ofWord? word with
    | none => exact within_refType h c hc
    | some k =>
        refine .ite (fun _ => within_refType h c hc) fun _ => ?_
        exact .bump hc hrest fun _ => within_pure _

theorem within_primaryType : Within (b + 1) 1 (primaryType type) (primaryType type') := by
  intro c hc
  by_cases hfinish : c.next.kind = .finish
  · refine .look ?_
    rw [hfinish]
    exact within_expected (b := b + 1) .type c hc
  have hrest := Cursor.rest_ne_nil hc.ends hfinish
  refine .look ?_
  split
  · refine .bump hc hrest fun _ => h.weaken.bind fun ty => ?_
    exact (within_expect _).weaken.bind fun _ => within_pure ty
  · refine .look (.ite (fun _ => ?_) fun _ => ?_)
    · exact (within_skipGroup _ _).first (fun _ => within_pure _) c hc
    · exact .bump hc hrest fun _ => (within_members h false).later.bind fun _ => within_pure _
  · refine .bump hc hrest fun _ => ?_
    exact (within_listed _ (within_tupleItem h)).weaken.bind fun items => within_pure _
  · refine .bump hc hrest fun _ => within_bump.bind fun t => ?_
    split
    · exact within_pure _
    · exact within_expected _
  · exact .bump hc hrest fun _ => within_pure _
  · exact .bump hc hrest fun _ => within_pure _
  · exact .bump hc hrest fun _ => within_pure _
  · exact agree_wordType h _ hc hrest
  · exact within_expected (b := b + 1) .type c hc

omit h in
/-- The brackets that are next, and the ones after them. -/
def bracketsRound (type : Reader TypeExpr) (again : TypeExpr → Reader TypeExpr) (ty : TypeExpr) :
    Reader TypeExpr := do
  let t ← peek
  if t.isPunct .openBracket && !t.onNewLine then
    let _ ← bump
    if ← eat .closeBracket then again (.array ty)
    else
      let _ ← type
      expect .closeBracket
      again .computed
  else return ty

theorem advances_bracketsRound : Advances (b + 1) 0 (bracketsRound type) (bracketsRound type') := by
  intro k hk again again' hagain ty c hc
  have hnested := h.mono (Nat.le_of_lt_succ hk) (Nat.zero_le 1)
  refine .look (.ite (fun hnext => ?_) fun _ => within_pure ty c hc)
  have hopen : c.next.isPunct .openBracket = true := ((Bool.and_eq_true _ _).mp hnext).1
  have hrest := Cursor.rest_ne_nil hc.ends (Token.ne_finish_of_isPunct hopen)
  refine Agree.weaken (.bump hc hrest fun _ => ?_) (Nat.zero_le 1)
  refine (within_eat _).bind fun _ => .ite ?_ ?_
  · exact hagain _
  · exact hnested.bind fun _ => (within_expect _).weaken.bind fun _ => hagain _

theorem within_postfixType : Within (b + 1) 1 (postfixType type) (postfixType type') :=
  (within_primaryType h).first fun ty =>
    (within_looped (F := brackets type) (G := brackets type') (fun _ _ => rfl) (fun _ _ => rfl)
      (advances_bracketsRound h) ty).mono (Nat.le_succ b) (Nat.le_refl 0)

omit h in
/-- A word that acts on a type, and the type with the words after it. -/
def operatorRound (type : Reader TypeExpr) (again : Unit → Reader TypeExpr) (_ : Unit) :
    Reader TypeExpr := do
  let t ← peek
  if endsOperand (← peekAt 1) then postfixType type
  else if t.isTheWord "keyof" then
    let _ ← bump
    return .keyof (← again ())
  else if t.isTheWord "unique" || t.isTheWord "readonly" then
    let _ ← bump
    again ()
  else if t.isTheWord "infer" then
    let _ ← bump
    let _ ← name
    if ← eatWord "extends" then
      let _ ← again ()
    return .computed
  else postfixType type

theorem advances_operatorRound : Advances (b + 1) 1 (operatorRound type) (operatorRound type') := by
  intro k hk again again' hagain _
  have hpostfix := within_postfixType (h.mono (Nat.le_of_lt_succ hk) (Nat.le_refl 1))
  intro c hc
  refine .look (.look (.ite (fun _ => hpostfix c hc) fun _ => ?_))
  refine .ite (fun hkeyof => ?_) fun _ => .ite (fun hmark => ?_) fun _ => .ite (fun hinfer => ?_) ?_
  · have hrest := Cursor.rest_ne_nil hc.ends (Token.ne_finish_of_isTheWord hkeyof)
    exact .bump hc hrest fun _ => (hagain ()).weaken.bind fun _ => within_pure _
  · have hrest : c.rest ≠ [] := by
      refine Cursor.rest_ne_nil hc.ends ?_
      exact ((Bool.or_eq_true _ _).mp hmark).elim Token.ne_finish_of_isTheWord
        Token.ne_finish_of_isTheWord
    exact .bump hc hrest fun _ => (hagain ()).weaken
  · have hrest := Cursor.rest_ne_nil hc.ends (Token.ne_finish_of_isTheWord hinfer)
    refine .bump hc hrest fun _ => within_name.weaken.bind fun _ => ?_
    exact (within_eatWord _).bind fun _ => .before (hagain ()).weaken (within_pure _)
  · exact fun _ => hpostfix c hc

theorem within_operatorWith : Within (b + 1) 1 (operatorWith type) (operatorWith type') :=
  within_looped (F := fun k _ => operatorTo type k) (G := fun k _ => operatorTo type' k)
    (fun _ _ => rfl) (fun _ _ => rfl) (advances_operatorRound h) ()

theorem within_intersectionType :
    Within (b + 1) 1 (intersectionType type) (intersectionType type') :=
  (within_eat _).bind fun _ =>
    (within_separated _ (within_operatorWith h)).first fun _ => within_pure _

theorem within_unionType : Within (b + 1) 1 (unionType type) (unionType type') :=
  (within_eat _).bind fun _ =>
    (within_separated _ (within_intersectionType h)).first fun _ => within_pure _

theorem within_typeWith : Within (b + 1) 1 (typeWith type) (typeWith type') := by
  refine (within_atWord _).bind fun _ => (within_look _).bind fun _ => .before within_bump ?_
  refine (within_look _).bind fun t => (within_look _).bind fun u => .ite ?_ ?_
  · exact within_bump.bind fun _ => within_fnType h
  · refine (within_look _).bind fun _ => .ite (within_fnType h) ?_
    refine (within_unionType h).first fun ty => ?_
    refine (within_look _).bind fun t => .ite ?_ (within_pure _)
    refine within_bump.bind fun _ => (within_unionType h).later.bind fun _ => ?_
    refine (within_expect _).weaken.bind fun _ => h.weaken.bind fun _ => ?_
    exact (within_expect _).weaken.bind fun _ => h.weaken.bind fun _ => within_pure _

end Types

/-! ## Types in types -/

/-- A type, with `again` for those nested in it. -/
def typeRound (again : Unit → Reader TypeExpr) (_ : Unit) : Reader TypeExpr :=
  typeWith (again ())

theorem advances_typeRound : Advances b 1 typeRound typeRound :=
  fun _ _ _ _ hagain _ => within_typeWith (hagain ())

/-- **The bound on the nesting of types makes no difference** where it is as large as the number of
tokens. -/
theorem within_typeTo {k k' : Nat} (hk : b ≤ k) (hk' : b ≤ k') :
    Within b 1 (typeTo k) (typeTo k') :=
  within_steps (F := fun k _ => typeTo k) (G := fun k _ => typeTo k) (fun _ _ => rfl)
    (fun _ _ => rfl) advances_typeRound b (Nat.le_refl b) k k' hk hk' ()

theorem within_typeExpr : Within b 1 typeExpr typeExpr :=
  within_left fun _ _ => within_typeTo (Nat.le_refl _) (Nat.le_refl _)

theorem within_operatorType : Within b 1 operatorType operatorType :=
  within_left fun _ _ => within_operatorWith (within_typeTo (Nat.le_refl _) (Nat.le_refl _))

end ApiSurface.Declaration.Reader
