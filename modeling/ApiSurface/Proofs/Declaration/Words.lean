/-
# `ApiSurface.Proofs.Declaration.Words` — the names that a text declares are words

The name of a declaration is a word of the text, or it is the default one (`undotted_of_parse`).  A
word has no dot in it, because a dot is a token of its own.  `Reads r P` says that where no word
that is left has a dot in it, what the reader gives has the property `P`.  A reader that takes
tokens leaves such words behind, whatever it gives, so those that give no names need no rule of
their own (`reads_of_within`).
-/
import ApiSurface.Proofs.Declaration.Progress
import ApiSurface.Proofs.Declaration.Regions

namespace ApiSurface.Declaration

/-! ## Words of a text -/

/-- No word among the tokens has a dot in it. -/
def Worded (ts : List Token) : Prop :=
  ∀ t ∈ ts, ∀ w, t.kind = .word w → Undotted w

theorem undotted_of_scan {c : Char} {r : List Char} {w : String} {n : Nat}
    (h : scan c r = .ok (.token (.word w), n)) : Undotted w := by
  have hstart : startsWord '.' = false := by decide +kernel
  have hinside : inWord '.' = false := by decide +kernel
  cases scans_of_scan h with
  | token _ htoken =>
      cases htoken with
      | word hc =>
          intro hdot
          rw [String.toList_ofList] at hdot
          rcases List.mem_cons.mp hdot with rfl | hdot
          · exact Bool.false_ne_true (hstart.symm.trans hc)
          · exact Bool.false_ne_true (hinside.symm.trans (List.mem_takeWhile_imp hdot))

/-- No word of a text has a dot in it. -/
theorem worded_of_tokensFrom (place : Position) (newLine : Bool) (cs : List Char) :
    ∀ ts last, tokensFrom place newLine cs = .ok (ts, last) → Worded ts := by
  fun_induction tokensFrom place newLine cs with
  | case1 =>
      intro ts last h
      cases h
      exact List.forall_mem_nil _
  | case2 | case5 =>
      intro ts last h
      cases h
  | case3 _ _ _ _ _ _ _ _ ih => exact ih
  | case4 place newLine c r n lexeme after kind ts last hrest hscan ih =>
      intro ts' last' h
      cases h
      refine List.forall_mem_cons.mpr ⟨fun w hw => ?_, ih ts last hrest⟩
      obtain rfl : kind = .word w := hw
      exact undotted_of_scan hscan

theorem undotted_default : Undotted "default" := by
  unfold Undotted
  decide

/-- Whether a declaration has a scope of its own, as namespaces and modules have. -/
def Decl.opensScope : Decl → Bool
  | .namespaceDecl .. | .moduleDecl .. => true
  | _ => false

/-- The declarations, all of them exported. -/
def exportedAll (ds : List Decl) : List Statement :=
  ds.map fun d => .decl d true

namespace Reader

/-! ## What readers give -/

variable {α γ : Type}

/-- Where no word that is left has a dot in it, what the reader gives has the property. -/
def Reads (r : Reader α) (P : α → Prop) : Prop :=
  ∀ c, c.finish.kind = .finish → Worded c.rest → ∀ a c', r c = .ok (a, c') →
    P a ∧ c'.finish.kind = .finish ∧ Worded c'.rest

/-- A reader that takes tokens. -/
theorem reads_of_within {r : Reader α} {n : Nat} (h : ∀ b, Within b n r r) :
    Reads r fun _ => True := by
  intro c hc hwords a c' heq
  have htakes := (h _ c ⟨Nat.lt_succ_self _, hc⟩).takes a c' heq
  exact ⟨trivial, htakes.finish ▸ hc, fun t ht => hwords t (htakes.suffix.subset ht)⟩

namespace Reads

theorem pure {P : α → Prop} {a : α} (h : P a) : Reads (pure a) P := by
  intro c hc hwords b c' heq
  cases heq
  exact ⟨h, hc, hwords⟩

theorem expected {P : α → Prop} (x : Expected) : Reads (expected x) P := by
  intro _ _ _ _ _ heq
  cases heq

theorem bind {r : Reader α} {f : α → Reader γ} {P : α → Prop} {Q : γ → Prop} (hr : Reads r P)
    (hf : ∀ a, P a → Reads (f a) Q) : Reads (r >>= f) Q := by
  intro c hc hwords b c' heq
  rw [run_bind] at heq
  split at heq
  next a c₁ hra =>
    obtain ⟨ha, hc₁, hwords₁⟩ := hr c hc hwords a c₁ hra
    exact hf a ha c₁ hc₁ hwords₁ b c' heq
  · cases heq

/-- After a reader that takes tokens, whatever it gives. -/
theorem after {r : Reader α} {f : α → Reader γ} {Q : γ → Prop} {n : Nat}
    (hr : ∀ b, Within b n r r) (hf : ∀ a, Reads (f a) Q) : Reads (r >>= f) Q :=
  (reads_of_within hr).bind fun a _ => hf a

theorem ite {p : Prop} [Decidable p] {r r' : Reader α} {P : α → Prop} (hr : Reads r P)
    (hr' : Reads r' P) : Reads (if p then r else r') P := by
  split
  · exact hr
  · exact hr'

/-- One of two readers, and then another one. -/
theorem either {p : Prop} [Decidable p] {r r' : Reader α} {f : α → Reader γ} {P : α → Prop}
    {Q : γ → Prop} (hr : Reads r P) (hr' : Reads r' P) (hf : ∀ a, P a → Reads (f a) Q) :
    Reads (if p then r >>= f else r' >>= f) Q :=
  .ite (hr.bind hf) (hr'.bind hf)

theorem imp {r : Reader α} {P Q : α → Prop} (hr : Reads r P) (h : ∀ a, P a → Q a) :
    Reads r Q :=
  fun c hc hwords a c' heq => (hr c hc hwords a c' heq).imp_left (h a)

end Reads

theorem reads_look (g : Cursor → α) : Reads (fun c => .ok (g c, c)) fun _ => True :=
  reads_of_within fun _ => within_look g

theorem reads_peek : Reads peek fun _ => True :=
  reads_of_within fun _ => within_look _

theorem reads_name : Reads name Undotted := by
  intro c hc hwords a c' heq
  unfold name at heq
  split at heq
  next hw =>
    cases heq
    have hnext : c.next ∈ c.rest := by
      cases hrest : c.rest with
      | nil =>
          rw [Cursor.next, Cursor.ahead, hrest] at hw
          cases hw.symm.trans hc
      | cons t ts =>
          rw [Cursor.next, Cursor.ahead, hrest]
          exact List.mem_cons_self
    exact ⟨hwords _ hnext _ hw, hc, fun t ht => hwords t (List.mem_of_mem_tail ht)⟩
  · cases heq

theorem reads_separated {item : Reader α} {P : α → Prop} (h : Reads item P) (sep : Punct) :
    Reads (separated sep item) fun as => ∀ a ∈ as, P a := by
  have hafter : ∀ fuel, Reads (itemsAfter sep item fuel) fun as => ∀ a ∈ as, P a := by
    intro fuel
    induction fuel with
    | zero =>
        intro _ _ _ _ _ heq
        cases heq
    | succ fuel ih =>
        refine h.bind fun a ha => .after (fun _ => within_eat _) fun _ => ?_
        exact .ite (ih.bind fun as has => .pure (List.forall_mem_cons.mpr ⟨ha, has⟩))
          (.pure (List.forall_mem_singleton.mpr ha))
  exact .after (fun _ => within_look _) fun n => hafter (n + 1)

/-! ## Declarations -/

/-- The declaration has a scope of its own, or a name without a dot. -/
def Named (d : Decl) : Prop :=
  d.opensScope = false → Undotted d.name

theorem reads_functionName : Reads functionName Undotted :=
  reads_peek.bind fun _ _ => .ite (.pure undotted_default) reads_name

theorem reads_className : Reads className Undotted := by
  refine reads_peek.bind fun t _ => ?_
  cases t.word? with
  | none => exact .pure undotted_default
  | some w => exact .ite reads_name (.pure undotted_default)

theorem reads_functionDecl : Reads functionDecl Named := by
  refine .after (fun _ => within_bump) fun _ => ?_
  refine .after (fun _ => within_eat _) fun _ => ?_
  refine reads_functionName.bind fun name hname => ?_
  refine .after (fun _ => (within_fnSig within_typeExpr).later) fun sig => ?_
  exact .after (fun _ => within_semicolons) fun _ => .pure fun _ => hname

theorem reads_classDecl : Reads classDecl Named := by
  refine .after (fun _ => within_bump) fun _ => ?_
  refine reads_className.bind fun name hname => ?_
  refine .after (fun _ => (within_typeParams within_typeExpr).later) fun tps => ?_
  refine .after (fun _ => within_eatWord _) fun _ => ?_
  refine .either (reads_of_within fun _ => within_operatorType.map some)
    (reads_of_within fun _ => within_pure none) fun parent _ => ?_
  refine .after (fun _ => within_heritage _) fun interfaces => ?_
  refine .after (fun _ => within_expect _) fun _ => ?_
  refine .after (fun _ => (within_members within_typeExpr true).later) fun ms => ?_
  exact .pure fun _ => hname

theorem reads_interfaceDecl : Reads interfaceDecl Named := by
  refine .after (fun _ => within_bump) fun _ => ?_
  refine reads_name.bind fun name hname => ?_
  refine .after (fun _ => (within_typeParams within_typeExpr).later) fun tps => ?_
  refine .after (fun _ => within_heritage _) fun parents => ?_
  refine .after (fun _ => within_expect _) fun _ => ?_
  refine .after (fun _ => (within_members within_typeExpr false).later) fun ms => ?_
  exact .pure fun _ => hname

theorem reads_aliasDecl : Reads aliasDecl Named := by
  refine .after (fun _ => within_bump) fun _ => ?_
  refine reads_name.bind fun name hname => ?_
  refine .after (fun _ => (within_typeParams within_typeExpr).later) fun tps => ?_
  refine .after (fun _ => within_expect _) fun _ => ?_
  refine .after (fun _ => within_typeExpr) fun ty => ?_
  exact .after (fun _ => within_semicolons) fun _ => .pure fun _ => hname

theorem reads_enumDecl : Reads enumDecl Named := by
  refine .after (fun _ => within_bump) fun _ => ?_
  refine reads_name.bind fun name hname => ?_
  refine .after (fun _ => within_expect _) fun _ => ?_
  refine .after (fun _ => within_listed _ within_enumMember) fun ms => ?_
  exact .pure fun _ => hname

theorem reads_variableItem : Reads variableItem fun d? => ∀ d ∈ d?, Named d := by
  have hname : Reads variableName fun n? => ∀ n ∈ n?, Undotted n := by
    refine .after (fun _ => within_atPunct _) fun _ => .ite ?_ ?_
    · exact .after (fun _ => within_skipGroup _ _) fun _ => .pure nofun
    · refine .after (fun _ => within_atPunct _) fun _ => .ite ?_ ?_
      · exact .after (fun _ => within_skipGroup _ _) fun _ => .pure nofun
      · refine reads_name.bind fun n hn => .pure ?_
        rintro _ ⟨rfl⟩
        exact hn
  refine hname.bind fun name hname => .after (fun _ => within_eat _) fun _ => ?_
  refine .after (fun _ => within_annotated _ within_typeExpr.weaken) fun ty => ?_
  have hlast : Reads (Pure.pure (name.map fun n => Decl.variableDecl n ty)) fun d? =>
      ∀ d ∈ d?, Named d := by
    refine .pure fun d hd _ => ?_
    obtain ⟨n, hn, rfl⟩ := Option.map_eq_some_iff.mp hd
    exact hname n hn
  refine .after (fun _ => within_eat _) fun _ => .ite ?_ hlast
  exact .after (fun _ => within_skipValue) fun _ => hlast

/-- The property holds of all that is read. -/
abbrev AllNamed (ds : List Decl) : Prop :=
  ∀ d ∈ ds, Named d

theorem reads_one {r : Reader Decl} (h : Reads r Named) :
    Reads (do return [← r]) AllNamed :=
  h.bind fun _ hd => .pure (List.forall_mem_singleton.mpr hd)

theorem reads_variableDecls : Reads variableDecls AllNamed := by
  refine (reads_separated reads_variableItem .comma).bind fun ds hds => ?_
  refine .after (fun _ => within_semicolons) fun _ => .pure fun d hd => ?_
  obtain ⟨d?, hd?, hsome⟩ := List.mem_filterMap.mp hd
  exact hds d? hd? d hsome

section Bodies

variable {body : Reader (List Statement)} (hbody : Reads body fun _ => True)

include hbody

theorem reads_namespaceDecl : Reads (namespaceDecl body) AllNamed := by
  have hnested : ∀ path ss, (nested path ss).opensScope = true := by
    intro path ss
    match path with
    | [] | [_] | _ :: _ :: _ => rfl
  refine .after (fun _ => within_bump) fun _ => reads_peek.bind fun t _ => ?_
  split
  · refine .after (fun _ => within_bump) fun _ => ?_
    refine .after (fun _ => within_eat _) fun _ => .ite ?_ ?_
    · exact hbody.bind fun _ _ => .pure (List.forall_mem_singleton.mpr nofun)
    · exact .after (fun _ => within_semicolons) fun _ => .pure
        (List.forall_mem_nil _)
  · refine .after (fun _ => within_qualifiedName) fun path => ?_
    refine .after (fun _ => within_expect _) fun _ => ?_
    refine hbody.bind fun ss _ => .pure (List.forall_mem_singleton.mpr fun hscope => ?_)
    cases (hnested path ss).symm.trans hscope

theorem reads_declaration : Reads (declaration body) AllNamed := by
  have hof : ∀ word, Reads (declarationOf body word) AllNamed := by
    intro word
    unfold declarationOf
    split
    · exact reads_one reads_functionDecl
    · exact reads_one reads_classDecl
    · exact reads_one reads_interfaceDecl
    · exact reads_one reads_aliasDecl
    · exact reads_one reads_enumDecl
    · refine (reads_look _).bind fun _ _ => .after (fun _ => within_bump) fun _ => ?_
      exact .ite (reads_one reads_enumDecl) reads_variableDecls
    · exact .after (fun _ => within_bump) fun _ => reads_variableDecls
    · exact .after (fun _ => within_bump) fun _ => reads_variableDecls
    · exact reads_namespaceDecl hbody
    · exact reads_namespaceDecl hbody
    · refine .after (fun _ => within_bump) fun _ => ?_
      exact .after (fun _ => within_skipGroup _ _) fun _ => .pure
        (List.forall_mem_nil _)
    · exact .expected _
  refine .after (fun _ => within_eatWord _) fun _ => ?_
  refine .after (fun _ => within_skipBefore _ _) fun _ => ?_
  refine .after (fun _ => within_skipBefore _ _) fun _ => ?_
  refine reads_peek.bind fun t _ => ?_
  cases t.word? with
  | none => exact .expected _
  | some w => exact hof w

end Bodies

/-- Every declaration among the statements has a scope of its own, or a name without a dot. -/
def StatementsNamed (ss : List Statement) : Prop :=
  ∀ d exported, .decl d exported ∈ ss → Named d

theorem statementsNamed_map {ds : List Decl} (h : AllNamed ds) (exported : Bool) :
    StatementsNamed (ds.map fun d => .decl d exported) := by
  intro d e hmem
  obtain ⟨d', hd', heq⟩ := List.mem_map.mp hmem
  cases heq
  exact h d hd'

/-- A statement that declares nothing. -/
theorem statementsNamed_singleton {st : Statement} (h : ∀ d e, st ≠ .decl d e) :
    StatementsNamed [st] :=
  fun d e hmem => absurd (List.mem_singleton.mp hmem).symm (h d e)

section Bodies

variable {body : Reader (List Statement)} (hbody : Reads body fun _ => True)

include hbody

theorem reads_exportedDecls (exported : Bool) :
    Reads (do return (← declaration body).map fun d => .decl d exported) StatementsNamed :=
  (reads_declaration hbody).bind fun _ hds => .pure (statementsNamed_map hds exported)

theorem reads_defaultExport : Reads (defaultExport body) StatementsNamed := by
  refine reads_peek.bind fun t _ => .ite (reads_exportedDecls hbody true) ?_
  refine .after (fun _ => within_qualifiedName) fun name => ?_
  exact .after (fun _ => within_skipStatement) fun _ => .pure (statementsNamed_singleton nofun)

theorem reads_exported : Reads (exported body) StatementsNamed := by
  refine .after (fun _ => within_eat _) fun _ => .ite ?_ (reads_peek.bind fun t _ => .ite ?_ ?_)
  · refine .after (fun _ => within_qualifiedName) fun name => ?_
    exact .after (fun _ => within_semicolons) fun _ => .pure (statementsNamed_singleton nofun)
  · exact .after (fun _ => within_skipStatement) fun _ => .pure (statementsNamed_singleton nofun)
  have hlist : Reads (do
      let names ← listed .exportList exportName
      let source ← exportSource
      semicolons
      return [Statement.exportList names source]) StatementsNamed := by
    refine .after (fun _ => within_listed _ within_exportName) fun names => ?_
    refine .after (fun _ => within_exportSource) fun source => ?_
    exact .after (fun _ => within_semicolons) fun _ => .pure (statementsNamed_singleton nofun)
  have hrest : Reads (do
      if ← eat .openBrace then
        let names ← listed .exportList exportName
        let source ← exportSource
        semicolons
        return [.exportList names source]
      if ← eatWord "default" then defaultExport body
      else return (← declaration body).map fun d => .decl d true) StatementsNamed := by
    refine .after (fun _ => within_eat _) fun _ => .ite hlist ?_
    refine .after (fun _ => within_eatWord _) fun _ => ?_
    exact .ite (reads_defaultExport hbody) (reads_exportedDecls hbody true)
  refine .after (fun _ => within_look _) fun _ => .ite ?_ hrest
  exact .after (fun _ => within_bump) fun _ => hrest

theorem reads_statement : Reads (statement body) StatementsNamed := by
  refine .after (fun _ => within_atWord _) fun _ => .ite ?_ ?_
  · exact .after (fun _ => within_skipStatement) fun _ => .pure (statementsNamed_singleton nofun)
  · refine .after (fun _ => within_eatWord _) fun _ => .ite (reads_exported hbody) ?_
    exact reads_exportedDecls hbody false

theorem reads_statementsWith (inBraces : Bool) (fuel : Nat) :
    Reads (statementsWith body inBraces fuel) StatementsNamed := by
  induction fuel with
  | zero =>
      intro _ _ _ _ _ heq
      cases heq
  | succ fuel ih =>
      have hnil : StatementsNamed [] := fun _ _ hmem => absurd hmem List.not_mem_nil
      have hrest : Reads (do
          if ← eat .semicolon then return ← statementsWith body inBraces fuel
          let first ← statement body
          return first ++ (← statementsWith body inBraces fuel)) StatementsNamed := by
        refine .after (fun _ => within_eat _) fun _ => .ite ih ?_
        refine (reads_statement hbody).bind fun first hfirst => ih.bind fun others hothers => ?_
        exact .pure fun d e hmem => (List.mem_append.mp hmem).elim (hfirst d e) (hothers d e)
      have hclosing : Reads (do
          if inBraces && (← atPunct .closeBrace) then
            let _ ← bump
            return []
          if ← eat .semicolon then return ← statementsWith body inBraces fuel
          let first ← statement body
          return first ++ (← statementsWith body inBraces fuel)) StatementsNamed := by
        refine .after (fun _ => within_atPunct _) fun _ => .ite ?_ hrest
        exact .after (fun _ => within_bump) fun _ => .pure hnil
      refine .after (fun _ => within_look _) fun _ => .ite (.ite ?_ (.pure hnil)) hclosing
      exact .bind (P := fun _ => True) (.expected _) fun _ _ => hclosing

end Bodies

end Reader

/-- **A declaration of a text has a scope of its own, or a name without a dot.** -/
theorem undotted_of_parse {text : String} {ss : List Statement} (h : parse text = .ok ss)
    {d : Decl} {exported : Bool} (hd : .decl d exported ∈ ss) (hscope : d.opensScope = false) :
    Undotted d.name := by
  have hbody : ∀ depth, Reader.Reads (Reader.bodyTo depth) fun _ => True := by
    intro depth
    induction depth with
    | zero =>
        intro _ _ _ _ _ heq
        cases heq
    | succ depth ih =>
        refine .after (fun _ => Reader.within_look _) fun n => ?_
        exact (Reader.reads_statementsWith ih true _).imp fun _ _ => trivial
  unfold parse at h
  split at h
  · cases h
  next ts last htokens =>
    have hwords := worded_of_tokensFrom _ _ _ ts last htokens
    have hread : Reader.Reads Reader.statements Reader.StatementsNamed :=
      .after (fun _ => Reader.within_look _) fun n => Reader.reads_statementsWith (hbody n) false _
    unfold StateT.run' at h
    cases hrun : Reader.statements ⟨ts, ⟨.finish, last, true⟩⟩ with
    | error e =>
        rw [hrun] at h
        cases h
    | ok p =>
        rw [hrun] at h
        cases h
        exact (hread _ rfl hwords p.1 p.2 hrun).1 d exported hd hscope

end ApiSurface.Declaration
