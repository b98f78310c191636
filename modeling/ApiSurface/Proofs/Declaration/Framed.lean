/-
# `ApiSurface.Proofs.Declaration.Framed` — what conversions leave of the state that they work on

The conversions that are asked for from outside are those of a type, a union, a name, an interface,
the members of a type, an object, the type of a value, a name that the text does not declare, and
the arguments for type parameters (`Job`).  Each leaves no mark behind, adds only to the classes
that are pending, and gives a guess that the scopes, the names of the classes and the marks alone
decide (`Job.run_framed`).
-/
import ApiSurface.Proofs.Declaration.Tracked

namespace ApiSurface.Declaration

open Session (Working Worker)

variable {w : World} {active : List DeclKey} {α : Type}

/-! ## Jobs -/

/-- What a conversion can be asked for, by what it gives. -/
inductive Job : Type → Type
  | bindParams (caller : Env) (scope : Nat) (params : List TypeParam) (args : List TypeExpr) :
      Job (List (String × Guess))
  | convert (env : Env) (ty : TypeExpr) : Job Guess
  | union (env : Env) (ty : TypeExpr) (orUndefined : Bool) : Job Guess
  | ref (env : Env) (name : List String) (args : List TypeExpr) : Job Guess
  | interface (env : Env) (scope : Nat) (decls : List InterfaceDecl) (args : List TypeExpr) :
      Job Guess
  | members (env : Env) (ty : TypeExpr) : Job (Option (List PlacedMember))
  | object (ms : List PlacedMember) : Job Guess
  | query (env : Env) (path : List String) : Job Guess
  | global (env : Env) (name : List String) (args : List TypeExpr) : Job Guess

namespace Job

/-- A job done in a session, at most `depth` steps deep. -/
def run (depth : Nat) : Job α → Working α
  | bindParams caller scope params args =>
    Session.bindParams (Session.convertTo depth) caller scope params args
  | convert env ty => Session.convertTo depth env ty
  | union env ty orUndefined => Session.convertUnion (Session.convertTo depth) env ty orUndefined
  | ref env name args => Session.convertRef (Session.convertTo depth) env name args
  | interface env scope decls args =>
    Session.convertInterface (Session.convertTo depth) env scope decls args
  | members env ty => Session.membersOfType (Session.convertTo depth) depth env ty
  | object ms => Session.objectOfMembers (Session.convertTo depth) ms
  | query env path => Session.convertQuery (Session.convertTo depth) env path
  | global env name args => Session.convertGlobal (Session.convertTo depth) env name args

/-- A job done without a session, at most `depth` steps deep. -/
def result (w : World) (active : List DeclKey) (depth : Nat) : Job α → Conversion α
  | bindParams caller scope params args =>
    Declaration.bindParams (convertTo w depth) active caller scope params args
  | convert env ty => convertTo w depth active env ty
  | union env ty orUndefined => convertUnion w (convertTo w depth) active env ty orUndefined
  | ref env name args => convertRef w (convertTo w depth) active env name args
  | interface env scope decls args =>
    convertInterface w (convertTo w depth) active env scope decls args
  | members env ty => membersOfType w (convertTo w depth) depth active env ty
  | object ms => objectOfMembers w (convertTo w depth) active ms
  | query env path => convertQuery w (convertTo w depth) active env path
  | global env name args => convertGlobal w (convertTo w depth) active env name args

theorem tracks (job : Job α) {less depth more : Nat} (hless : less ≤ depth) (hmore : depth ≤ more) :
    Tracks w active id (job.result w active less) (job.run depth) (job.result w active more) := by
  have h : Covers w (convertTo w less) (Session.convertTo depth) (convertTo w more) :=
    covers_convertTo depth hless hmore
  cases job with
  | bindParams caller scope params args => exact tracks_bindParams h caller scope params args
  | convert env ty => exact h active env ty
  | union env ty orUndefined => exact tracks_convertUnion h env ty orUndefined
  | ref env name args => exact tracks_convertRef h env name args
  | interface env scope decls args => exact tracks_convertInterface h env scope decls args
  | members env ty => exact tracks_membersOfType h depth hless hmore active env ty
  | object ms => exact tracks_objectOfMembers h ms
  | query env path => exact tracks_convertQuery h env path
  | global env name args => exact tracks_convertGlobal h env name args

end Job

/-! ## The state that is left -/

namespace Session

theorem exists_noting (refs : List ClassRef) (s : Session) :
    ∃ new, s.noting refs = { s with pending := new ++ s.pending } := by
  obtain ⟨d, world, pass, active⟩ := s
  cases pass with
  | naming => exact ⟨[], rfl⟩
  | emitting => exact ⟨_, rfl⟩

/-- While entries are added, a conversion without a session notes the same classes. -/
theorem converted_eq {s : Session} (hs : s.pass = .emitting) (c : Conversion α) :
    Derive.converted s.world c s.toDeriver =
      c.map fun r => (r.1, (s.noting r.2).toDeriver) := by
  obtain ⟨d, world, pass, active⟩ := s
  cases hs
  cases c <;> rfl

end Session

namespace Job

/-- **What a conversion leaves of a session.** A job that is done in a session ends with no error
and leaves everything as it was but for classes that it adds to those that are pending: the marks,
the entries, what is emitted, the scopes and the names of the classes.  What it gives is what it
gives without a session.  It gives the same in every session with the same scopes, names and marks,
whatever has been derived there, and to whatever depth it is done. -/
theorem run_framed (job : Job α) (depth : Nat) {s s' : Session} {r : Except DeriveError α}
    (h : job.run depth s = some (r, s')) : ∃ a, r = .ok a ∧
      (∃ new, s' = { s with pending := new ++ s.pending }) ∧
      (∀ active, (∀ k, k ∈ s.active ↔ k ∈ active) →
        ∃ refs, job.result s.world active depth = some (a, refs) ∧ s' = s.noting refs) ∧
      ∀ t : Session, t.world = s.world → t.active = s.active →
        (∃ t', job.run depth t = some (.ok a, t')) ∧
        ∀ depth' r' t', job.run depth' t = some (r', t') → r' = .ok a := by
  have hself : s.At s.world s.active.toList := ⟨rfl, fun _ => Finset.mem_toList.symm⟩
  obtain ⟨a, refs, ha, hr, hs'⟩ := (job.tracks le_rfl le_rfl).given s hself r s' h
  refine ⟨a, hr, hs' ▸ s.exists_noting refs, fun active hactive => ?_, fun t hworld hmarks => ?_⟩
  · obtain ⟨b, refs, hb, hr', hs'⟩ := (job.tracks le_rfl le_rfl).given s ⟨rfl, hactive⟩ r s' h
    cases hr.symm.trans hr'
    exact ⟨refs, hb, hs'⟩
  · have ht : t.At s.world s.active.toList := ⟨hworld, fun k => hmarks ▸ hself.active k⟩
    refine ⟨⟨_, (job.tracks le_rfl le_rfl).gives t ht a refs ha⟩, fun depth' r' t' h' => ?_⟩
    -- Both answers are those of the deeper of the two conversions.
    obtain ⟨b, more, hb, hr₁, -⟩ :=
      (job.tracks le_rfl (le_max_left depth depth')).given s hself r s' h
    obtain ⟨c, more', hc, hr₂, -⟩ :=
      (job.tracks le_rfl (le_max_right depth depth')).given t ht r' t' h'
    cases hb.symm.trans hc
    rw [hr₂, ← hr₁, hr]

/-! ### A tree -/

/-- A class for what hangs on a tree. -/
def leafClass : ClassDecl := ⟨"Leaf", [], none, [], []⟩

/-- A name with a type parameter for an object type in which the name and a class come up. -/
def treeAlias : AliasDecl :=
  ⟨"Tree", [.mk "T" none], .object
    [.property "left" false (some (.ref ["Tree"] [.ref ["T"] []])) {},
      .property "leaf" false (some (.ref ["Leaf"] [])) {},
      .property "item" false (some (.ref ["T"] [])) {}]⟩

/-- A session in which entries are added and a class is pending, inside another declaration. -/
def treeSession : Session :=
  { schema := .empty, emitted := ["Root"], pending := [⟨0, ⟨"Branch", [], none, [], []⟩⟩],
    world := ⟨Scopes.ofStatements [.decl (.classDecl leafClass) true,
      .decl (.aliasDecl treeAlias) true], []⟩,
    pass := .emitting, active := {(0, "Forest")} }

/-- The guess for a tree of numbers; inside itself nothing is known of it. -/
def treeGuess : Guess :=
  .object [("item", .number), ("leaf", .ofClass "Leaf"), ("left", .any)]

/-- The same scopes, names and marks while classes get their names and nothing is derived yet. -/
def namingSession : Session :=
  { treeSession with emitted := [], pending := [], pass := .naming }

/-- The conversion of a tree refers to the class, which is then pending, and the tree is no longer
marked.  The guess is the same while classes get their names. -/
theorem run_framed_tree :
    (convert { scope := 0 } (.ref ["Tree"] [.keyword .number])).run 9 treeSession =
        some (.ok treeGuess,
          { treeSession with pending := ⟨0, leafClass⟩ :: treeSession.pending }) ∧
      (∃ refs, convertTo treeSession.world 9 [(0, "Forest")] { scope := 0 }
        (.ref ["Tree"] [.keyword .number]) = some (treeGuess, refs)) ∧
      ∃ s', (convert { scope := 0 } (.ref ["Tree"] [.keyword .number])).run 9 namingSession =
        some (.ok treeGuess, s') := by
  have hrun : (convert { scope := 0 } (.ref ["Tree"] [.keyword .number])).run 9 treeSession =
      some (.ok treeGuess,
        { treeSession with pending := ⟨0, leafClass⟩ :: treeSession.pending }) := by
    with_unfolding_all rfl
  obtain ⟨a, ⟨⟩, -, hresult, hsame⟩ := run_framed _ 9 hrun
  obtain ⟨refs, hrefs, -⟩ := hresult [(0, "Forest")] fun k => by
    rw [List.mem_singleton]
    exact Finset.mem_singleton
  exact ⟨hrun, ⟨refs, hrefs⟩, (hsame namingSession rfl rfl).1⟩

end Job

end ApiSurface.Declaration
