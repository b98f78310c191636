/-
# `ApiSurface.Proofs.Declaration.Divided` — a declaration in two parts

Declarations of one name merge, so it does not matter whether they are written in one piece.  A
namespace may be divided into two if both bodies export by the same rule, and an interface if both
parts have the same type parameters (`Splits`).

The second part of a namespace finds the scope of the first one, with all that the first part
declared in it.  What has happened to the scope around it in between is that the name was exported.
That scope has a smaller number than the namespace and all that is declared in it, and scopes with
smaller numbers are neither read nor changed (`addStatements_modify`), so that the export may as
well come later, where it is made again without effect.  The parts of an interface do not give the
same scopes, but the same joined ones, and what comes after them keeps that
(`joined_addStatements`).

**Main result** (`derive_eq_of_splits`): a text with divided declarations has the same schema.
-/
import ApiSurface.Proofs.Declaration.Derived
import ApiSurface.Proofs.Declaration.Enclosing
import ApiSurface.Proofs.Declaration.Joined

namespace ApiSurface.Declaration

open Relation (ReflTransGen)

/-! ## Statements with a divided declaration -/

/-- The second statements have in two parts what is one declaration in the first ones, at any depth
in namespaces and modules. -/
inductive Splits : List Statement → List Statement → Prop
  | ofNamespace {name : String} {body body' rest : List Statement} {exported : Bool}
      (alike : Scopes.exportsAll body = Scopes.exportsAll body') :
      Splits (.decl (.namespaceDecl name (body ++ body')) exported :: rest)
        (.decl (.namespaceDecl name body) exported ::
          .decl (.namespaceDecl name body') exported :: rest)
  | ofInterface {name : String} {typeParams : List TypeParam} {parents parents' : List TypeExpr}
      {members members' : List Member} {rest : List Statement} {exported : Bool} :
      Splits
        (.decl (.interfaceDecl ⟨name, typeParams, parents ++ parents', members ++ members'⟩)
          exported :: rest)
        (.decl (.interfaceDecl ⟨name, typeParams, parents, members⟩) exported ::
          .decl (.interfaceDecl ⟨name, typeParams, parents', members'⟩) exported :: rest)
  | later {st : Statement} {ss ss' : List Statement} (h : Splits ss ss') :
      Splits (st :: ss) (st :: ss')
  | inNamespace {name : String} {body body' rest : List Statement} {exported : Bool}
      (h : Splits body body') :
      Splits (.decl (.namespaceDecl name body) exported :: rest)
        (.decl (.namespaceDecl name body') exported :: rest)
  | inModule {path : String} {body body' rest : List Statement} {exported : Bool}
      (h : Splits body body') :
      Splits (.decl (.moduleDecl path body) exported :: rest)
        (.decl (.moduleDecl path body') exported :: rest)

/-- Whether a body exports all that it declares does not change. -/
theorem Splits.exportsAll_eq {ss ss' : List Statement} (h : Splits ss ss') :
    Scopes.exportsAll ss = Scopes.exportsAll ss' := by
  induction h with
  | later _ ih =>
      simp only [Scopes.exportsAll, List.any_cons, Bool.not_or] at ih ⊢
      rw [ih]
  | ofNamespace | ofInterface | inNamespace | inModule =>
      simp [Scopes.exportsAll, Statement.isExport]

theorem exportsAll_append (ss ss' : List Statement) :
    Scopes.exportsAll (ss ++ ss') = (Scopes.exportsAll ss && Scopes.exportsAll ss') := by
  simp only [Scopes.exportsAll, List.any_append, Bool.not_or]

/-! ## Single scopes -/

namespace Scope

/-- The exports with one more name, if it is to be exported and is not yet. -/
def withExport (exported : Bool) (name : String) (es : List ExportName) : List ExportName :=
  if exported && !es.any (fun x => x.outer == name) then es ++ [⟨name, name⟩] else es

/-- The scope with the name exported, if it is to be. -/
def exportedIf (exported : Bool) (name : String) (sc : Scope) : Scope :=
  { sc with exports := withExport exported name sc.exports }

theorem exportedIf_true (name : String) (sc : Scope) :
    sc.exportedIf true name = sc.addExport ⟨name, name⟩ := by
  unfold exportedIf withExport addExport
  cases sc.exports.any fun x => x.outer == name <;> rfl

theorem exportedIf_exportedIf (exported : Bool) (name : String) (sc : Scope) :
    (sc.exportedIf exported name).exportedIf exported name = sc.exportedIf exported name := by
  have hagain : ∀ es, withExport exported name (withExport exported name es) =
      withExport exported name es := by
    intro es
    cases exported with
    | false => rfl
    | true =>
        cases hany : es.any fun x => x.outer == name with
        | true => simp only [withExport, hany, Bool.not_true, Bool.and_false, Bool.false_eq_true,
            if_false]
        | false => simp [withExport, hany]
  exact congrArg (fun es => { sc with exports := es }) (hagain sc.exports)

theorem declare_exportedIf (exported : Bool) (name : String) (d : Decl) (sc : Scope) :
    (sc.exportedIf exported name).declare d = (sc.declare d).exportedIf exported name := by
  cases d <;> rfl

end Scope

namespace Scopes

variable {s s' : Scopes}

/-- A declaration that is no module is declared, and then its name exported. -/
theorem addStatement_decl (id : Nat) (all : Bool) {d : Decl} (hd : isModule d = false)
    (exported : Bool) (s : Scopes) : addStatement id all (.decl d exported) s =
      (addDecl id d s).modify id (Scope.exportedIf (exported || all) d.name) := by
  rw [addStatement, hd]
  cases exported || all with
  | true =>
      have hexport : Scope.exportedIf true d.name = (·.addExport ⟨d.name, d.name⟩) :=
        funext (Scope.exportedIf_true d.name)
      rw [hexport]
      rfl
  | false => exact (modify_id (addDecl id d s) id).symm

theorem addStatements_append (id : Nat) (all : Bool) (ss ss' : List Statement) (s : Scopes) :
    addStatements id all (ss ++ ss') s = addStatements id all ss' (addStatements id all ss s) := by
  induction ss generalizing s with
  | nil => rw [List.nil_append, addStatements]
  | cons st ss ih => rw [List.cons_append, addStatements, addStatements, ih]

/-! ## Scopes with smaller numbers -/

/-- The scope of a namespace has a larger number than the one around it. -/
theorem Nested.lt_namespaceIn {id : Nat} (h : s.Nested) (hid : id < s.all.length) (name : String) :
    id < (s.namespaceIn id name).1 := by
  unfold namespaceIn
  split
  next ns hns =>
    obtain ⟨sc, hsc, hfound⟩ := Option.bind_eq_some_iff.mp hns
    obtain ⟨inner, hinner, hparent⟩ := h.contains id sc ns hsc
      (Or.inl (List.mem_map_of_mem (Table.mem_of_find? hfound)))
    exact h.parent_lt hinner hparent
  · exact hid

section

variable {id j : Nat} (hj : j < id) (f : Scope → Scope)

include hj

theorem get?_modify_of_lt (s : Scopes) : (s.modify j f).get? id = s.get? id := by
  rw [get?_modify]
  simp only [if_neg (Nat.ne_of_lt hj), Option.map_id']

theorem addChild_modify (hid : id < s.all.length) (outer : Nat) :
    (s.modify j f).addChild outer = ((s.addChild outer).1, (s.addChild outer).2.modify j f) := by
  have hlt : j < s.all.length := Nat.lt_trans hj hid
  have happend : ∀ sc : Scope, s.all.modify j f ++ [sc] = (s.all ++ [sc]).modify j f := by
    intro sc
    refine List.ext_getElem? fun i => ?_
    rw [List.getElem?_modify, List.getElem?_append, List.getElem?_append, List.length_modify,
      List.getElem?_modify]
    split
    · rfl
    next hge =>
      have hne : j ≠ i := by omega
      simp only [if_neg hne, Option.map_eq_map, Option.map_id']
  exact Prod.ext (List.length_modify f s.all j) (congrArg Scopes.mk (happend _))

theorem namespaceIn_modify (hid : id < s.all.length) (name : String) :
    (s.modify j f).namespaceIn id name =
      ((s.namespaceIn id name).1, (s.namespaceIn id name).2.modify j f) := by
  unfold namespaceIn
  rw [get?_modify_of_lt hj f s]
  split
  · rfl
  · simp only [addChild_modify hj f hid, modify_comm (Nat.ne_of_lt hj)]

theorem moduleIn_modify (hid : id < s.all.length) :
    (s.modify j f).moduleIn id = ((s.moduleIn id).1, (s.moduleIn id).2.modify j f) := by
  simp only [moduleIn, addChild_modify hj f hid, modify_comm (Nat.ne_of_lt hj)]

end

mutual

/-- The statements of a body neither read nor change a scope with a smaller number. -/
theorem addStatements_modify {j : Nat} (f : Scope → Scope) : ∀ (id : Nat) (all : Bool)
    (ss : List Statement) (s : Scopes), s.Nested → id < s.all.length → j < id →
      addStatements id all ss (s.modify j f) = (addStatements id all ss s).modify j f
  | id, all, [], s, _, _, _ => by rw [addStatements, addStatements]
  | id, all, st :: ss, s, h, hid, hj => by
      have hst := later_addStatement id all st s h hid
      rw [addStatements, addStatements, addStatement_modify f id all st s h hid hj]
      exact addStatements_modify f id all ss _ hst.nested (Nat.lt_of_lt_of_le hid hst.length) hj

theorem addStatement_modify {j : Nat} (f : Scope → Scope) : ∀ (id : Nat) (all : Bool)
    (st : Statement) (s : Scopes), s.Nested → id < s.all.length → j < id →
      addStatement id all st (s.modify j f) = (addStatement id all st s).modify j f
  | id, all, .decl d exported, s, h, hid, hj => by
      rw [addStatement, addStatement, addDecl_modify f id d s h hid hj]
      split
      · exact modify_comm (Nat.ne_of_lt hj) _ _ _
      · rfl
  | id, all, .exportAssignment name, s, _, _, hj => by
      rw [addStatement, addStatement]
      exact modify_comm (Nat.ne_of_lt hj) _ _ _
  | id, all, .exportList names none, s, _, _, hj => by
      rw [addStatement, addStatement]
      unfold addExports
      refine List.foldl_hom (fun s : Scopes => s.modify j f) fun s n => ?_
      exact modify_comm (Nat.ne_of_lt hj) s f _
  | id, all, .exportList _ (some _), s, _, _, _ => by rw [addStatement, addStatement]
  | id, all, .other, s, _, _, _ => by rw [addStatement, addStatement]

theorem addDecl_modify {j : Nat} (f : Scope → Scope) : ∀ (id : Nat) (d : Decl) (s : Scopes),
    s.Nested → id < s.all.length → j < id →
      addDecl id d (s.modify j f) = (addDecl id d s).modify j f
  | id, .namespaceDecl name body, s, h, hid, hj => by
      obtain ⟨hns, hlt⟩ := h.later_namespaceIn hid name
      rw [addDecl, addDecl, namespaceIn_modify hj f hid]
      exact addStatements_modify f _ _ body _ hns.nested hlt
        (Nat.lt_trans hj (h.lt_namespaceIn hid name))
  | id, .moduleDecl path body, s, h, hid, hj => by
      obtain ⟨hm, hlt⟩ := h.later_moduleIn hid
      rw [addDecl, addDecl, moduleIn_modify hj f hid]
      exact addStatements_modify f _ _ body _ hm.nested hlt (Nat.lt_trans hj hid)
  | id, .functionDecl _ _, s, _, _, hj | id, .classDecl _, s, _, _, hj
  | id, .interfaceDecl _, s, _, _, hj | id, .aliasDecl _, s, _, _, hj
  | id, .enumDecl _, s, _, _, hj | id, .variableDecl _ _, s, _, _, hj => by
      rw [addDecl, addDecl]
      exact modify_comm (Nat.ne_of_lt hj) _ _ _

end

/-- A scope with a smaller number stays as it is. -/
theorem get?_addStatements {id j : Nat} (h : s.Nested) (hid : id < s.all.length) (hj : j < id)
    (all : Bool) (ss : List Statement) : (addStatements id all ss s).get? j = s.get? j := by
  obtain ⟨sc, hsc⟩ := exists_get? (Nat.lt_trans hj hid)
  have hsame : s.modify j (fun _ => sc) = s := by
    refine ext_get? fun i => ?_
    rw [get?_modify]
    by_cases hi : j = i
    · rw [← hi, hsc, Option.map_some, if_pos rfl]
    · simp only [if_neg hi, Option.map_id']
  -- Putting the scope there is no change before, so it is none after.
  have hafter := addStatements_modify (fun _ => sc) id all ss s h hid hj
  rw [hsame] at hafter
  have hlength := (later_addStatements id all ss s h hid).length
  obtain ⟨sc', hsc'⟩ := exists_get? (Nat.lt_of_lt_of_le (Nat.lt_trans hj hid) hlength)
  rw [hafter, get?_modify, hsc', Option.map_some, if_pos rfl, hsc]

/-! ## A namespace in two parts -/

theorem find?_namespaceIn {id : Nat} (hid : id < s.all.length) (name : String) :
    (((s.namespaceIn id name).2.get? id).bind fun sc => Table.find? sc.namespaces name) =
      some (s.namespaceIn id name).1 := by
  unfold namespaceIn
  split
  next hns => exact hns
  · obtain ⟨sc, hsc⟩ := exists_get? hid
    rw [get?_modify, get?_addChild s id id hid, hsc, Option.map_some, if_pos rfl]
    exact Table.find?_insert_self _ _ _

/-- A namespace that is there has the scope that it had. -/
theorem namespaceIn_of_find? {id ns : Nat} {name : String}
    (h : ((s.get? id).bind fun sc => Table.find? sc.namespaces name) = some ns) :
    s.namespaceIn id name = (ns, s) := by
  unfold namespaceIn
  rw [h]

/-- Two bodies of a namespace, one after the other, give the scopes of one body. -/
theorem addStatement_namespace {id : Nat} (h : s.Nested) (hid : id < s.all.length) (all : Bool)
    {name : String} {body body' : List Statement} (alike : exportsAll body = exportsAll body')
    (exported : Bool) :
    addStatement id all (.decl (.namespaceDecl name body') exported)
      (addStatement id all (.decl (.namespaceDecl name body) exported) s) =
        addStatement id all (.decl (.namespaceDecl name (body ++ body')) exported) s := by
  obtain ⟨hns, hlt⟩ := h.later_namespaceIn hid name
  have hid' := h.lt_namespaceIn hid name
  have hfind := find?_namespaceIn hid name
  have hwhole : exportsAll (body ++ body') = exportsAll body := by
    rw [exportsAll_append, ← alike, Bool.and_self]
  have hdecl : ∀ body s, addStatement id all (.decl (.namespaceDecl name body) exported) s =
      (addDecl id (.namespaceDecl name body) s).modify id
        (Scope.exportedIf (exported || all) name) :=
    fun _ s => addStatement_decl id all rfl exported s
  simp only [hdecl, addDecl, hwhole, ← alike, addStatements_append]
  generalize hscope : s.namespaceIn id name = r at *
  obtain ⟨ns, s₁⟩ := r
  have hfirst := later_addStatements ns (exportsAll body) body s₁ hns.nested hlt
  have hlt' := Nat.lt_of_lt_of_le hlt hfirst.length
  -- The second part finds the scope of the first one.
  have hagain : ((((addStatements ns (exportsAll body) body s₁).modify id
      (Scope.exportedIf (exported || all) name)).get? id).bind fun sc =>
        Table.find? sc.namespaces name) = some ns := by
    rw [get?_modify, get?_addStatements hns.nested hlt hid', Option.bind_map]
    simp only [if_true]
    exact hfind
  simp only [namespaceIn_of_find? hagain]
  rw [addStatements_modify _ ns _ body' _ hfirst.nested hlt' hid', modify_modify]
  simp only [Scope.exportedIf_exportedIf]

end Scopes

/-! ## An interface in two parts -/

namespace Scope

/-- Two declarations of an interface say what a single one does. -/
theorem joined_declare_declare (sc : Scope) {i i' whole : InterfaceDecl}
    (hname : i.name = whole.name) (hname' : i'.name = whole.name)
    (hsame : SameContents [i, i'] [whole]) :
    ((sc.declare (.interfaceDecl i)).declare (.interfaceDecl i')).joined =
      (sc.declare (.interfaceDecl whole)).joined := by
  have hinterfaces : (appended (appended sc.interfaces i.name i) i'.name i').map
      (fun p => (p.1, joinDecls p.2)) =
        (appended sc.interfaces whole.name whole).map fun p => (p.1, joinDecls p.2) := by
    have hdecls : SameContents
        (((Table.find? sc.interfaces whole.name).getD [] ++ [i]) ++ [i'])
        ((Table.find? sc.interfaces whole.name).getD [] ++ [whole]) := by
      rw [List.append_assoc]
      exact .append (.refl _) hsame
    rw [hname, hname', joined_appended, joined_appended, joined_appended, Table.insert_insert,
      appended, Table.find?_insert_self, Option.getD_some, hdecls.joinDecls_eq]
  exact congrArg (fun is => { sc with interfaces := is }) hinterfaces

end Scope

namespace Scopes

/-- Two declarations of an interface, one after the other, give the joined scopes of one. -/
theorem joined_interface (s : Scopes) (id : Nat) (all : Bool) {i i' whole : InterfaceDecl}
    (hname : i.name = whole.name) (hname' : i'.name = whole.name)
    (hsame : SameContents [i, i'] [whole]) (exported : Bool) :
    (addStatement id all (.decl (.interfaceDecl i') exported)
      (addStatement id all (.decl (.interfaceDecl i) exported) s)).joined =
        (addStatement id all (.decl (.interfaceDecl whole) exported) s).joined := by
  have hdecl : ∀ i s, addStatement id all (.decl (.interfaceDecl i) exported) s =
      s.modify id fun sc =>
        (sc.declare (.interfaceDecl i)).exportedIf (exported || all) i.name := by
    intro i s
    rw [addStatement_decl id all rfl, addDecl, modify_modify, Decl.name]
  have hexport : ∀ b name (sc : Scope),
      (sc.exportedIf b name).joined = sc.joined.exportedIf b name :=
    fun _ _ _ => rfl
  rw [hdecl, hdecl, hdecl, modify_modify]
  refine joined_modify_congr s id fun sc => ?_
  rw [hname, hname', Scope.declare_exportedIf, Scope.exportedIf_exportedIf, hexport, hexport,
    sc.joined_declare_declare hname hname' hsame]

/-! ## Divided statements -/

/-- Statements with a divided declaration have the same joined scopes. -/
theorem joined_addStatements_of_splits {ss ss' : List Statement} (hsplits : Splits ss ss') :
    ∀ {id : Nat} {s : Scopes}, s.Nested → id < s.all.length → ∀ all,
      (addStatements id all ss s).joined = (addStatements id all ss' s).joined := by
  induction hsplits with
  | @ofNamespace name body body' rest exported alike =>
      intro id s h hid all
      rw [addStatements, addStatements, addStatements, addStatement_namespace h hid all alike]
  | @ofInterface name typeParams parents parents' members members' rest exported =>
      intro id s h hid all
      have hsame : SameContents
          [⟨name, typeParams, parents, members⟩, ⟨name, typeParams, parents', members'⟩]
          [⟨name, typeParams, parents ++ parents', members ++ members'⟩] := by
        refine ⟨rfl, ?_, ?_⟩ <;> simp
      rw [addStatements, addStatements, addStatements]
      refine joined_addStatements id all rest (Eq.symm ?_)
      exact joined_interface s id all (by rfl) (by rfl) hsame exported
  | @later st ss ss' _ ih =>
      intro id s h hid all
      have hst := later_addStatement id all st s h hid
      rw [addStatements, addStatements]
      exact ih hst.nested (Nat.lt_of_lt_of_le hid hst.length) all
  | @inNamespace name body body' rest exported hbody ih =>
      intro id s h hid all
      obtain ⟨hns, hlt⟩ := h.later_namespaceIn hid name
      have hinner := ih hns.nested hlt (exportsAll body)
      rw [addStatements, addStatements]
      refine joined_addStatements id all rest ?_
      rw [addStatement_decl id all rfl, addStatement_decl id all rfl, addDecl_namespace,
        addDecl_namespace, ← hbody.exportsAll_eq]
      exact joined_modify hinner id (.of_commutes fun _ => rfl)
  | @inModule path body body' rest exported hbody ih =>
      intro id s h hid all
      obtain ⟨hm, hlt⟩ := h.later_moduleIn hid
      have hinner := ih hm.nested hlt (exportsAll body)
      rw [addStatements, addStatements]
      refine joined_addStatements id all rest ?_
      rw [addStatement, addStatement, addDecl_module, addDecl_module, ← hbody.exportsAll_eq]
      exact hinner

end Scopes

theorem Splits.deriveStatements_eq {ss ss' : List Statement} (h : Splits ss ss') :
    deriveStatements ss = deriveStatements ss' := by
  have hjoined : (Scopes.ofStatements ss).joined = (Scopes.ofStatements ss').joined := by
    rw [Scopes.ofStatements, Scopes.ofStatements, ← h.exportsAll_eq]
    exact Scopes.joined_addStatements_of_splits h Scopes.nested_root (Nat.lt_succ_self 0) _
  exact deriveStatements_eq_of_joined hjoined

/-- **Declarations of one name merge**: a text in which namespaces and interfaces are divided, each
into two parts and these again, has the schema, or the error, of the one in which they are not.  A
dotted name stands for namespaces inside one another, so its declaration is divided in several
steps. -/
theorem derive_eq_of_splits {text text' : String} {ss ss' : List Statement}
    (h : parse text = .ok ss) (h' : parse text' = .ok ss') (hsplits : ReflTransGen Splits ss ss') :
    derive text = derive text' := by
  have hsame : deriveStatements ss = deriveStatements ss' := by
    clear h h'
    induction hsplits with
    | refl => rfl
    | tail _ hlast ih => exact ih.trans hlast.deriveStatements_eq
  rw [derive, derive, h, h']
  exact hsame

/-! ## Texts -/

namespace Shelf

/-- A property of the interface. -/
@[match_pattern]
def title : Member :=
  .property "title" false (some (.keyword .string)) ⟨false, false⟩

/-- A method of the interface. -/
@[match_pattern]
def lend : Member :=
  .method "lend" false
    (.mk [] [.mk "days" (some (.keyword .number)) false false] (some (.keyword .void)))
    ⟨false, false⟩

/-- An interface inside the namespace. -/
@[match_pattern]
def book (members : List Member) : Statement :=
  .decl (.interfaceDecl ⟨"Book", [], [], members⟩) false

/-- A function inside the namespace. -/
@[match_pattern]
def holds : Statement :=
  .decl (.functionDecl "holds" (.mk [] [.mk "it" (some (.ref ["Book"] [])) false false]
    (some (.keyword .boolean)))) false

/-- The namespace. -/
@[match_pattern]
def shelf (body : List Statement) : Statement :=
  .decl (.namespaceDecl "Shelf" body) true

/-- All in one piece. -/
def wholeText : String :=
  "export namespace Shelf \x7b interface Book \x7b title: string; lend(days: number): void \x7d " ++
    "function holds(it: Book): boolean \x7d"

/-- The namespace in two parts, and the interface as well. -/
def dividedText : String :=
  "export namespace Shelf \x7b interface Book \x7b title: string \x7d " ++
    "interface Book \x7b lend(days: number): void \x7d \x7d " ++
    "export namespace Shelf \x7b function holds(it: Book): boolean \x7d"

/-- Whether these are the statements of `wholeText`. -/
def isWhole : List Statement → Bool
  | [shelf [book [title, lend], holds]] => true
  | _ => false

/-- Whether these are the statements of `dividedText`. -/
def isDivided : List Statement → Bool
  | [shelf [book [title], book [lend]], shelf [holds]] => true
  | _ => false

theorem parse_wholeText : parse wholeText = .ok [shelf [book [title, lend], holds]] := by
  have hwhole : (parse wholeText).toOption.any isWhole = true := by decide +kernel
  refine eq_ok_of_any hwhole fun ss hss => ?_
  unfold isWhole at hss
  split at hss
  · rfl
  · cases hss

theorem parse_dividedText :
    parse dividedText = .ok [shelf [book [title], book [lend]], shelf [holds]] := by
  have hdivided : (parse dividedText).toOption.any isDivided = true := by decide +kernel
  refine eq_ok_of_any hdivided fun ss hss => ?_
  unfold isDivided at hss
  split at hss
  · rfl
  · cases hss

/-- First the namespace is divided, then the interface in its first part. -/
theorem derive_dividedText : ∃ ss ss', parse wholeText = .ok ss ∧ parse dividedText = .ok ss' ∧
    ReflTransGen Splits ss ss' ∧ derive wholeText = derive dividedText := by
  have hnamespace : Splits [shelf [book [title, lend], holds]]
      [shelf [book [title, lend]], shelf [holds]] :=
    @Splits.ofNamespace "Shelf" [book [title, lend]] [holds] [] true rfl
  have hinterface : Splits [shelf [book [title, lend]], shelf [holds]]
      [shelf [book [title], book [lend]], shelf [holds]] :=
    .inNamespace (@Splits.ofInterface "Book" [] [] [] [title] [lend] [] false)
  have hsplits := (ReflTransGen.single hnamespace).tail hinterface
  exact ⟨_, _, parse_wholeText, parse_dividedText, hsplits,
    derive_eq_of_splits parse_wholeText parse_dividedText hsplits⟩

end Shelf

end ApiSurface.Declaration
