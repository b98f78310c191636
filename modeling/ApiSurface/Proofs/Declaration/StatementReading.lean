/-
# `ApiSurface.Proofs.Declaration.StatementReading` — reading statements takes tokens

The readers of declarations have the one of a body in braces as a parameter, and take a token before
they call it, as those of types do with nested types.  There are two bounds here: one on how deep
bodies are nested (`within_bodyTo`), and in each body one on the number of its statements
(`within_statementsWith`).  With neither in sight, a list of statements is one statement, whose body
is again a list of statements, and the statements after it (`statementsIn_eq`); both are read with
fewer tokens.
-/
import ApiSurface.Declaration.StatementReader
import ApiSurface.Proofs.Declaration.TypeReading

namespace ApiSurface.Declaration.Reader

variable {b : Nat}

/-! ## Declarations -/

theorem within_functionName : Within b 0 functionName functionName :=
  (within_look _).bind fun _ => .ite (within_pure _) within_name.weaken

theorem within_functionDecl : Within (b + 1) 1 functionDecl functionDecl := by
  refine within_bump.bind fun _ => (within_eat _).bind fun _ => within_functionName.bind fun _ => ?_
  exact (within_fnSig within_typeExpr).first fun _ => within_semicolons.bind fun _ => within_pure _

theorem within_className : Within b 0 className className := by
  refine (within_look _).bind fun t => ?_
  cases t.word? with
  | none => exact within_pure _
  | some w => exact .ite within_name.weaken (within_pure _)

theorem within_heritage (word : String) : Within b 0 (heritage word) (heritage word) :=
  (within_eatWord _).bind fun _ =>
    .ite (within_separated _ within_operatorType).weaken (within_pure _)

theorem within_classDecl : Within (b + 1) 1 classDecl classDecl := by
  refine within_bump.bind fun _ => within_className.bind fun name => ?_
  refine (within_typeParams within_typeExpr).bind fun tps => (within_eatWord _).bind fun _ => ?_
  refine .either (within_operatorType.map some).weaken (within_pure none) fun parent => ?_
  refine (within_heritage _).bind fun interfaces => (within_expect _).first fun _ => ?_
  exact (within_members within_typeExpr true).later.bind fun ms => within_pure _

theorem within_interfaceDecl : Within (b + 1) 1 interfaceDecl interfaceDecl := by
  refine within_bump.bind fun _ => within_name.first fun name => ?_
  refine (within_typeParams within_typeExpr).later.bind fun tps => ?_
  refine (within_heritage _).bind fun parents => (within_expect _).weaken.bind fun _ => ?_
  exact (within_members within_typeExpr false).later.bind fun ms => within_pure _

theorem within_aliasDecl : Within (b + 1) 1 aliasDecl aliasDecl := by
  refine within_bump.bind fun _ => within_name.first fun name => ?_
  refine (within_typeParams within_typeExpr).later.bind fun tps => ?_
  refine (within_expect _).weaken.bind fun _ => within_typeExpr.weaken.bind fun ty => ?_
  exact within_semicolons.bind fun _ => within_pure _

theorem within_enumMember : Within b 1 enumMember enumMember := by
  refine within_propertyName.takes fun name => (within_eat _).bind fun _ => .ite ?_ (within_pure _)
  exact (within_look _).bind fun _ => within_skipValue.bind fun _ => within_pure _

theorem within_enumDecl : Within (b + 1) 1 enumDecl enumDecl := by
  refine within_bump.bind fun _ => within_name.first fun name => ?_
  refine (within_expect _).weaken.bind fun _ => ?_
  exact (within_listed _ within_enumMember).weaken.bind fun ms => within_pure _

theorem within_variableName : Within b 1 variableName variableName := by
  refine (within_atPunct _).bind fun _ => .ite ?_ ((within_atPunct _).bind fun _ => .ite ?_ ?_)
  · exact (within_skipGroup _ _).takes fun _ => within_pure _
  · exact (within_skipGroup _ _).takes fun _ => within_pure _
  · exact within_name.map some

theorem within_variableItem : Within b 1 variableItem variableItem := by
  refine within_variableName.takes fun name => (within_eat _).bind fun _ => ?_
  refine (within_annotated _ within_typeExpr.weaken).bind fun ty => (within_eat _).bind fun _ => ?_
  exact .before within_skipValue (within_pure _)

theorem within_variableDecls : Within b 1 variableDecls variableDecls :=
  (within_separated _ within_variableItem).takes fun _ =>
    within_semicolons.bind fun _ => within_pure _

theorem within_skipBefore (word other : String) :
    Within b 0 (skipBefore word other) (skipBefore word other) := by
  refine (within_atWord _).bind fun _ => (within_look _).bind fun _ => .before within_bump ?_
  exact within_pure _

/-! ## Export lists -/

theorem within_exportName : Within b 1 exportName exportName := by
  refine (within_eatWord _).bind fun _ => within_propertyName.takes fun inner => ?_
  refine (within_eatWord _).bind fun _ => .either within_propertyName.weaken (within_pure _) ?_
  exact fun outer => within_pure _

theorem within_exportSource : Within b 0 exportSource exportSource := by
  refine (within_eatWord _).bind fun _ => .ite (within_bump.bind fun t => ?_) (within_pure _)
  split
  · exact within_pure _
  · exact within_expected _

/-! ## Statements with bodies -/

section Bodies

variable {body body' : Reader (List Statement)} (h : Within b 0 body body')

include h

theorem within_namespaceDecl : Within (b + 1) 1 (namespaceDecl body) (namespaceDecl body') := by
  refine within_bump.bind fun _ c hc => .look ?_
  split
  next path hpath =>
    have hrest := Cursor.rest_ne_nil hc.ends fun hk => nomatch hpath.symm.trans hk
    refine .bump hc hrest fun _ => (within_eat _).bind fun _ => .ite ?_ ?_
    · exact h.bind fun _ => within_pure _
    · exact within_semicolons.bind fun _ => within_pure _
  next =>
    refine within_qualifiedName.first (fun path => ?_) c hc
    exact (within_expect _).weaken.bind fun _ => h.bind fun _ => within_pure _

theorem within_declarationOf (word : String) :
    Within (b + 1) 1 (declarationOf body word) (declarationOf body' word) := by
  unfold declarationOf
  split
  · exact within_functionDecl.first fun _ => within_pure _
  · exact within_classDecl.first fun _ => within_pure _
  · exact within_interfaceDecl.first fun _ => within_pure _
  · exact within_aliasDecl.first fun _ => within_pure _
  · exact within_enumDecl.first fun _ => within_pure _
  · refine (within_look _).bind fun u => within_bump.bind fun _ => .ite ?_ within_variableDecls
    exact within_enumDecl.first fun _ => within_pure _
  · exact within_bump.bind fun _ => within_variableDecls
  · exact within_bump.bind fun _ => within_variableDecls
  · exact within_namespaceDecl h
  · exact within_namespaceDecl h
  · exact within_bump.bind fun _ => (within_skipGroup _ _).first fun _ => within_pure _
  · exact within_expected _

theorem within_declaration : Within (b + 1) 1 (declaration body) (declaration body') := by
  refine (within_eatWord _).bind fun _ => (within_skipBefore _ _).bind fun _ => ?_
  refine (within_skipBefore _ _).bind fun _ => (within_look _).bind fun t => ?_
  cases t.word? with
  | none => exact within_expected _
  | some w => exact within_declarationOf h w

theorem within_defaultExport :
    Within (b + 1) 1 (defaultExport body) (defaultExport body') := by
  refine (within_look _).bind fun t => .ite ?_ ?_
  · exact (within_declaration h).first fun _ => within_pure _
  · exact within_qualifiedName.first fun name => within_skipStatement.bind fun _ => within_pure _

theorem within_exported : Within (b + 1) 0 (exported body) (exported body') := by
  refine (within_eat _).bind fun _ => .ite ?_ ((within_look _).bind fun t => .ite ?_ ?_)
  · exact within_qualifiedName.weaken.bind fun _ => within_semicolons.bind fun _ => within_pure _
  · exact within_skipStatement.bind fun _ => within_pure _
  refine (within_look _).bind fun u => .before within_bump ((within_eat _).bind fun _ => .ite ?_ ?_)
  · refine (within_listed _ within_exportName).weaken.bind fun names => ?_
    exact within_exportSource.bind fun _ => within_semicolons.bind fun _ => within_pure _
  · refine (within_eatWord _).bind fun _ => .ite (within_defaultExport h).weaken ?_
    exact (within_declaration h).weaken.bind fun _ => within_pure _

theorem within_statement : Within (b + 1) 1 (statement body) (statement body') := by
  refine fun c hc => .look (.ite (fun himport => ?_) fun _ => ?_)
  · have hskip := agree_skipStatement hc.ends (Token.ne_finish_of_isTheWord himport)
      (Token.isPunct_of_isTheWord himport)
    exact hskip.bind hc fun _ => within_pure _
  · refine within_ifEatWord "export" (within_exported h).later ?_ c hc
    exact (within_declaration h).first fun _ => within_pure _

omit h in
/-- A statement and the ones after it, or the end of the statements. -/
def statementsRound (body : Reader (List Statement)) (inBraces : Bool)
    (again : Unit → Reader (List Statement)) (_ : Unit) : Reader (List Statement) := do
  if ← atEnd then
    if inBraces then expected (.punct .closeBrace) else return []
  if inBraces && (← atPunct .closeBrace) then
    let _ ← bump
    return []
  if ← eat .semicolon then return ← again ()
  let first ← statement body
  return first ++ (← again ())

theorem advances_statementsRound (inBraces : Bool) :
    Advances (b + 1) 0 (statementsRound body inBraces) (statementsRound body' inBraces) := by
  intro k hk again again' hagain _
  have hfirst := within_statement (h.mono (Nat.le_of_lt_succ hk) (Nat.le_refl 0))
  have hstatements := hfirst.first fun first =>
    (hagain ()).bind fun others => within_pure (first ++ others)
  have hrest := within_ifEat .semicolon (hagain ()) hstatements.weaken
  have hclose := (within_atPunct .closeBrace).bind fun x =>
    Within.ite (p := (inBraces && x) = true) (within_bump.bind fun _ => within_pure []) hrest
  refine (within_look _).bind fun _ => .ite (.ite ?_ (within_pure [])) hclose
  exact (within_expected _).bind fun _ => hclose

end Bodies

/-! ## Bodies in bodies -/

/-- A body in braces, with `again` for those nested in it. -/
def bodyRound (again : Unit → Reader (List Statement)) (_ : Unit) : Reader (List Statement) := do
  statementsWith (again ()) true ((← left) + 1)

theorem advances_bodyRound : Advances b 0 bodyRound bodyRound := by
  intro k _ again again' hagain _
  exact within_looped (F := fun k _ => statementsWith (again ()) true k)
    (G := fun k _ => statementsWith (again' ()) true k) (fun _ _ => rfl) (fun _ _ => rfl)
    (advances_statementsRound (hagain ()) true) ()

/-- **The bound on the nesting of bodies makes no difference** where it is as large as the number of
tokens. -/
theorem within_bodyTo {d d' : Nat} (hd : b ≤ d) (hd' : b ≤ d') :
    Within b 0 (bodyTo d) (bodyTo d') :=
  within_steps (F := fun d _ => bodyTo d) (G := fun d _ => bodyTo d) (fun _ _ => rfl)
    (fun _ _ => rfl) advances_bodyRound b (Nat.le_refl b) d d' hd hd' ()

/-- Neither that bound nor the one on the number of statements makes a difference. -/
theorem within_statementsWith (inBraces : Bool) {d d' k k' : Nat} (hd : b ≤ d) (hd' : b ≤ d')
    (hk : b < k) (hk' : b < k') :
    Within (b + 1) 0 (statementsWith (bodyTo d) inBraces k)
      (statementsWith (bodyTo d') inBraces k') :=
  within_steps (F := fun k _ => statementsWith (bodyTo d) inBraces k)
    (G := fun k _ => statementsWith (bodyTo d') inBraces k) (fun _ _ => rfl) (fun _ _ => rfl)
    (advances_statementsRound (within_bodyTo hd hd') inBraces) (b + 1) (Nat.le_refl _) k k' hk hk'
    ()

/-- The statements of a text, or of a body in braces. -/
def statementsIn (inBraces : Bool) : Reader (List Statement) := do
  let n ← left
  statementsWith (bodyTo n) inBraces (n + 1)

theorem within_statementsIn (inBraces : Bool) :
    Within b 0 (statementsIn inBraces) (statementsIn inBraces) :=
  within_left fun k _ => within_statementsWith inBraces (Nat.le_refl k) (Nat.le_refl k)
    (Nat.lt_succ_self k) (Nat.lt_succ_self k)

/-- A statement, whose body is again made of statements, and the statements after it. -/
def blocksRound (again : Bool → Reader (List Statement)) (inBraces : Bool) :
    Reader (List Statement) :=
  statementsRound (again true) inBraces (fun _ => again inBraces) ()

theorem within_statementsWith_statementsIn (inBraces : Bool) :
    Within b 0 (statementsWith (bodyTo b) inBraces b) (statementsIn inBraces) := by
  intro c hc
  have hwith := within_statementsWith inBraces (Nat.le_of_lt hc.few) (Nat.le_refl _) hc.few
    (Nat.lt_succ_self _)
  exact (hwith c ⟨Nat.lt_succ_self _, hc.ends⟩).congr rfl rfl

theorem within_bodyTo_statementsIn : Within b 0 (bodyTo b) (statementsIn true) := by
  cases b with
  | zero => exact within_zero _ _
  | succ d =>
      exact within_left fun k hk => within_statementsWith true (Nat.le_of_lt_succ hk)
        (Nat.le_refl k) (Nat.lt_succ_self k) (Nat.lt_succ_self k)

/-- **Both the body of a statement and the statements after it begin with fewer tokens.** -/
theorem statementsIn_eq {c : Cursor} (hc : c.finish.kind = .finish) (inBraces : Bool) :
    statementsIn inBraces c = blocksRound (fun i => past (statementsIn i) c) inBraces c := by
  have hround := advances_statementsRound (within_past within_bodyTo_statementsIn) inBraces
    c.rest.length (Nat.lt_succ_self _) _ _
    (fun _ => within_past (within_statementsWith_statementsIn inBraces)) ()
  exact (hround c ⟨Nat.lt_succ_self _, hc⟩).eq.symm

end ApiSurface.Declaration.Reader
