/-
# `ApiSurface.Proofs.Declaration.Tracked` — conversions with and without a state

A conversion that works on a session gives what the one without a session gives, notes the classes
that this refers to, and leaves the rest of the session as it found it.  That is proved function by
function, from what a few kinds of step do: to return, to do one step after another, to read the
names, to refer to a class, and to do something while a declaration is marked (`Tracks.mark`).

A step is compared with two conversions at once.  It gives what the first one gives, if that has an
answer, and what it gives is given by the second one (`Tracks`).  With one that goes less deep and
one that goes deeper this says at the same time that a conversion never gives something else because
it is given more depth (`covers_convertTo`).
-/
import ApiSurface.Proofs.Declaration.Asks
import ApiSurface.Proofs.Declaration.Sessions

namespace ApiSurface.Declaration

open Session (Working Worker)

variable {w : World} {active : List DeclKey} {α β : Type}

namespace Session

/-- What a conversion leaves behind: the references to classes without entries, the latest first,
while entries are added. -/
def noting (refs : List ClassRef) (s : Session) : Session :=
  match s.pass with
  | .naming => s
  | .emitting =>
    let new := refs.filter fun r => !s.emitted.contains (s.world.className r)
    { s with pending := new.reverse ++ s.pending }

theorem noting_nil (s : Session) : s.noting [] = s := by
  obtain ⟨d, world, pass, active⟩ := s
  cases pass <;> rfl

theorem world_noting (refs : List ClassRef) (s : Session) : (s.noting refs).world = s.world := by
  rw [noting]
  cases s.pass <;> rfl

theorem active_noting (refs : List ClassRef) (s : Session) :
    (s.noting refs).active = s.active := by
  rw [noting]
  cases s.pass <;> rfl

theorem noting_append (refs more : List ClassRef) (s : Session) :
    s.noting (refs ++ more) = (s.noting refs).noting more := by
  obtain ⟨d, world, pass, active⟩ := s
  cases pass with
  | naming => rfl
  | emitting => simp only [noting, List.filter_append, List.reverse_append, List.append_assoc]

theorem refer_eq (c : ClassRef) (s : Session) : refer c s = some (.ok (), s.noting [c]) := by
  obtain ⟨d, world, pass, active⟩ := s
  cases pass with
  | naming => rfl
  | emitting =>
      by_cases hc : world.className c ∈ d.emitted
      · simp [refer, noting, hc]
      · simp [refer, noting, hc]

theorem bind_eq (x : Working α) (f : α → Working β) (s : Session) :
    (x >>= f) s = match x s with
      | some (.ok a, s') => f a s'
      | some (.error e, s') => some (.error e, s')
      | none => none := by
  show (x s).bind _ = _
  rcases x s with _ | ⟨_ | _, _⟩ <;> rfl

section Mark

variable {key : DeclKey} {s : Session} (a : α) (x : Working α)

theorem run_of_marked (hkey : key ∈ s.active) :
    (do if !(← mark key) then return a else x) s = some (.ok a, s) := by
  have hmark : mark key s = some (.ok false, s) := by
    rw [mark, decide_eq_false (not_not_intro hkey), Finset.insert_eq_self.mpr hkey]
  rw [bind_eq, hmark]
  rfl

theorem run_of_unmarked (hkey : key ∉ s.active) :
    (do if !(← mark key) then return a else x) s = x { s with active := insert key s.active } := by
  have hmark : mark key s = some (.ok true, { s with active := insert key s.active }) := by
    rw [mark, decide_eq_true hkey]
  rw [bind_eq, hmark]
  rfl

theorem unmark_noting (hkey : key ∉ s.active) (refs : List ClassRef) :
    unmark key (noting refs { s with active := insert key s.active }) = s.noting refs := by
  obtain ⟨d, world, pass, active⟩ := s
  cases pass <;> simp only [unmark, noting, Finset.erase_insert hkey]

end Mark

end Session

/-! ## Steps between conversions -/

/-- A session in which the scopes and names are the given ones and the declarations in the list are
marked. -/
structure Session.At (w : World) (active : List DeclKey) (s : Session) : Prop where
  world : s.world = w
  active : ∀ k, k ∈ s.active ↔ k ∈ active

theorem Session.At.noting {s : Session} (hs : s.At w active) (refs : List ClassRef) :
    (s.noting refs).At w active where
  world := (s.world_noting refs).trans hs.world
  active := by
    rw [s.active_noting refs]
    exact hs.active

/-- In every such session a step gives what the first conversion gives, if that has an answer, and
whatever it gives is what the second one gives.  It stops with no error, notes the classes that are
referred to, and does nothing else to the session than `leave` says. -/
structure Tracks (w : World) (active : List DeclKey) (leave : Session → Session)
    (lo : Conversion α) (x : Working α) (hi : Conversion α) : Prop where
  gives : ∀ s, s.At w active → ∀ a refs, lo = some (a, refs) →
    x s = some (.ok a, leave (s.noting refs))
  given : ∀ s, s.At w active → ∀ r s', x s = some (r, s') →
    ∃ a refs, hi = some (a, refs) ∧ r = .ok a ∧ s' = leave (s.noting refs)

namespace Tracks

variable {leave : Session → Session} {lo hi : Conversion α} {x : Working α}

theorem pure (a : α) : Tracks w active id (pure a) (pure a) (pure a) where
  gives := by
    rintro s _ _ _ ⟨⟩
    rw [s.noting_nil]
    rfl
  given := by
    rintro s _ _ _ ⟨⟩
    exact ⟨a, [], rfl, rfl, s.noting_nil.symm⟩

theorem outOfDepth : Tracks w active leave .outOfDepth Session.outOfDepth hi :=
  ⟨fun _ _ _ _ h => (nomatch h), fun _ _ _ _ h => (nomatch h)⟩

/-- Without an answer the first conversion says nothing. -/
theorem weaken (hx : Tracks w active leave lo x hi) : Tracks w active leave .outOfDepth x hi :=
  ⟨fun _ _ _ _ h => (nomatch h), hx.given⟩

theorem bind (hx : Tracks w active id lo x hi) {flo fhi : α → Conversion β} {f : α → Working β}
    (hf : ∀ a, Tracks w active leave (flo a) (f a) (fhi a)) :
    Tracks w active leave (lo >>= flo) (x >>= f) (hi >>= fhi) := by
  constructor
  · intro s hs b refs heq
    obtain ⟨a, first, more, ha, hb, rfl⟩ := Conversion.bind_eq_some_iff.mp heq
    rw [Session.bind_eq, hx.gives s hs a first ha, Session.noting_append]
    exact (hf a).gives _ (hs.noting first) b more hb
  · intro s hs r s' heq
    rw [Session.bind_eq] at heq
    cases hrun : x s with
    | none =>
        rw [hrun] at heq
        cases heq
    | some p =>
        obtain ⟨a, first, ha, hr, hs'⟩ := hx.given s hs p.1 p.2 hrun
        obtain ⟨p, s₁⟩ := p
        subst hr hs'
        rw [hrun] at heq
        obtain ⟨b, more, hb, hr, hs'⟩ := (hf a).given _ (hs.noting first) r s' heq
        refine ⟨b, first ++ more,
          Conversion.bind_eq_some_iff.mpr ⟨a, first, more, ha, hb, rfl⟩, hr, ?_⟩
        rw [Session.noting_append]
        exact hs'

theorem refer (c : ClassRef) :
    Tracks w active id (.refer c) (Session.refer c) (.refer c) where
  gives := by
    rintro s _ _ _ ⟨⟩
    exact s.refer_eq c
  given := by
    intro s _ r s' heq
    cases (s.refer_eq c).symm.trans heq
    exact ⟨(), [c], rfl, rfl, rfl⟩

/-- The scopes and the names of the classes are read. -/
theorem getWorld {f : World → Working α} (hf : Tracks w active leave lo (f w) hi) :
    Tracks w active leave lo (Session.getWorld >>= f) hi := by
  have hrun : ∀ s : Session, s.At w active → (Session.getWorld >>= f) s = f w s := by
    intro s hs
    rw [Session.bind_eq, Session.getWorld, hs.world]
  constructor
  · intro s hs a refs heq
    rw [hrun s hs]
    exact hf.gives s hs a refs heq
  · intro s hs r s' heq
    rw [hrun s hs] at heq
    exact hf.given s hs r s' heq

/-- A step that is done while a declaration is marked, after which it is not. -/
theorem thenUnmark {key : DeclKey} (hx : Tracks w active id lo x hi) :
    Tracks w active (Session.unmark key) lo (Session.thenUnmark key x) hi := by
  constructor
  · intro s hs a refs heq
    rw [Session.thenUnmark, hx.gives s hs a refs heq]
    rfl
  · intro s hs r s' heq
    obtain ⟨p, hrun, hp⟩ := Option.map_eq_some_iff.mp heq
    cases hp
    obtain ⟨a, refs, ha, hr, hs'⟩ := hx.given s hs p.1 p.2 hrun
    exact ⟨a, refs, ha, hr, congrArg (Session.unmark key) hs'⟩

/-- A declaration is marked, unless it is already; what is done then takes the mark away again. -/
theorem mark {key : DeclKey} {a : α}
    (hx : Tracks w (key :: active) (Session.unmark key) lo x hi) :
    Tracks w active id (if active.contains key then Pure.pure a else lo)
      (do if !(← Session.mark key) then return a else x)
      (if active.contains key then Pure.pure a else hi) := by
  by_cases hkey : key ∈ active
  · rw [if_pos (List.contains_iff_mem.mpr hkey), if_pos (List.contains_iff_mem.mpr hkey)]
    have hpure : Tracks w active id (Pure.pure a) (Pure.pure a) (Pure.pure a) := .pure a
    constructor
    · intro s hs b refs heq
      rw [Session.run_of_marked a x ((hs.active key).mpr hkey)]
      exact hpure.gives s hs b refs heq
    · intro s hs r s' heq
      rw [Session.run_of_marked a x ((hs.active key).mpr hkey)] at heq
      exact hpure.given s hs r s' heq
  · rw [if_neg (List.contains_iff_mem.not.mpr hkey), if_neg (List.contains_iff_mem.not.mpr hkey)]
    have hat : ∀ s : Session, s.At w active →
        Session.At w (key :: active) { s with active := insert key s.active } := fun s hs =>
      ⟨hs.world, fun k => by simp only [Finset.mem_insert, List.mem_cons, hs.active k]⟩
    constructor
    · intro s hs b refs heq
      have hnew := (hs.active key).not.mpr hkey
      rw [Session.run_of_unmarked a x hnew, hx.gives _ (hat s hs) b refs heq,
        Session.unmark_noting hnew]
      rfl
    · intro s hs r s' heq
      have hnew := (hs.active key).not.mpr hkey
      rw [Session.run_of_unmarked a x hnew] at heq
      obtain ⟨b, refs, hb, hr, hs'⟩ := hx.given _ (hat s hs) r s' heq
      exact ⟨b, refs, hb, hr, hs'.trans (Session.unmark_noting hnew refs)⟩

theorem mapM {γ : Type} {flo fhi : γ → Conversion α} {f : γ → Working α}
    (hf : ∀ c, Tracks w active id (flo c) (f c) (fhi c)) (l : List γ) :
    Tracks w active id (l.mapM flo) (l.mapM f) (l.mapM fhi) := by
  induction l with
  | nil => exact .pure []
  | cons c l ih =>
      simp only [List.mapM_cons]
      exact (hf c).bind fun _ => ih.bind fun _ => .pure _

end Tracks

/-! ## Unions -/

section Flatten

variable {elo ehi : List String → List TypeExpr → Conversion (Option (List PlacedType))}
  {expand : List String → List TypeExpr → Working (Option (List PlacedType))} {env : Env}

mutual

theorem tracks_flattenWith
    (hexpand : ∀ name args, Tracks w active id (elo name args) (expand name args) (ehi name args)) :
    ∀ ty, Tracks w active id (flattenWith elo env ty) (Session.flattenWith expand env ty)
      (flattenWith ehi env ty)
  | .union members => by
      simp only [flattenWith, Session.flattenWith]
      exact tracks_flattenAll hexpand members
  | .ref name args => by
      simp only [flattenWith, Session.flattenWith]
      refine (hexpand name args).bind fun found => ?_
      cases found with
      | some members => exact .pure _
      | none => exact .pure _
  | .keyword _ | .textLiteral _ | .numberLiteral _ | .boolLiteral _ | .template | .array _
  | .tuple _ | .intersection _ | .function _ | .object _ | .query _ | .keyof _ | .predicate
  | .computed => by
      simp only [flattenWith, Session.flattenWith]
      exact .pure _

theorem tracks_flattenAll
    (hexpand : ∀ name args, Tracks w active id (elo name args) (expand name args) (ehi name args)) :
    ∀ tys, Tracks w active id (flattenAll elo env tys) (Session.flattenAll expand env tys)
      (flattenAll ehi env tys)
  | [] => by
      simp only [flattenAll, Session.flattenAll]
      exact .pure _
  | ty :: tys => by
      simp only [flattenAll, Session.flattenAll]
      exact (tracks_flattenWith hexpand ty).bind fun _ =>
        (tracks_flattenAll hexpand tys).bind fun _ => .pure _

end

end Flatten

/-! ## Conversions -/

/-- Converting a type in a session lies between two conversions without one. -/
def Covers (w : World) (lo : Converter) (conv : Worker) (hi : Converter) : Prop :=
  ∀ active env ty, Tracks w active id (lo active env ty) (conv env ty) (hi active env ty)

section Conversions

variable {lo hi : Converter} {conv : Worker} (h : Covers w lo conv hi)

include h

theorem tracks_bindParams (caller : Env) (scope : Nat) (params : List TypeParam) :
    ∀ args, Tracks w active id (bindParams lo active caller scope params args)
      (Session.bindParams conv caller scope params args)
      (bindParams hi active caller scope params args) := by
  induction params with
  | nil => exact fun _ => .pure []
  | cons p ps ih =>
      intro args
      simp only [bindParams, Session.bindParams]
      have hrest : ∀ g, Tracks w active id
          (bindParams lo active caller scope ps args.tail >>= fun rest =>
            pure ((p.name, g) :: rest))
          (Session.bindParams conv caller scope ps args.tail >>= fun rest =>
            pure ((p.name, g) :: rest))
          (bindParams hi active caller scope ps args.tail >>= fun rest =>
            pure ((p.name, g) :: rest)) := fun g => (ih args.tail).bind fun _ => .pure _
      cases args.head? with
      | some arg => exact (h active caller arg).bind hrest
      | none =>
          cases p.bound with
          | some bound => exact (h active _ bound).bind hrest
          | none => exact Tracks.bind (.pure _) hrest

theorem tracks_envInside (caller : Env) (scope : Nat) (params : List TypeParam)
    (args : List TypeExpr) : Tracks w active id (envInside lo active caller scope params args)
      (Session.envInside conv caller scope params args)
      (envInside hi active caller scope params args) :=
  (tracks_bindParams h caller scope params args).bind fun _ => .pure _

theorem tracks_flatten (depth : Nat) : ∀ env ty, Tracks w active id
    (flatten w lo active depth env ty) (Session.flatten conv depth env ty)
    (flatten w hi active depth env ty) := by
  induction depth with
  | zero => exact fun env ty => tracks_flattenWith (fun _ _ => .pure none) ty
  | succ depth ih =>
      intro env ty
      simp only [flatten, Session.flatten]
      refine tracks_flattenWith (fun name args => ?_) ty
      split
      · exact .pure none
      · refine .getWorld ?_
        rcases w.scopes.typeNamed? env.scope name with _ | symbol
        · exact .pure none
        · cases symbol with
          | ofAlias scope decl =>
              dsimp only
              cases decl.type with
              | union members =>
                  exact (tracks_envInside h env scope decl.typeParams args).bind fun inner =>
                    (ih inner (.union members)).bind fun _ => .pure _
              | _ => exact .pure none
          | _ => exact .pure none

theorem tracks_convertOthers (members : List PlacedType) : Tracks w active id
    (convertOthers w lo active members) (Session.convertOthers w conv members)
    (convertOthers w hi active members) := by
  induction members with
  | nil => exact .pure []
  | cons m members ih =>
      obtain ⟨ty, env⟩ := m
      simp only [convertOthers, Session.convertOthers]
      split
      · exact ih
      · exact (h active env ty).bind fun _ => ih.bind fun _ => .pure _

theorem tracks_convertUnion (env : Env) (ty : TypeExpr) (orUndefined : Bool) : Tracks w active id
    (convertUnion w lo active env ty orUndefined) (Session.convertUnion conv env ty orUndefined)
    (convertUnion w hi active env ty orUndefined) :=
  (tracks_flatten h maxAliasDepth env ty).bind fun members => .getWorld <|
    (tracks_convertOthers h members).bind fun _ => .pure _

omit h in
theorem tracks_parentMembers {fuel : Nat}
    (hmembers : ∀ scope decls args caller visited, Tracks w active id
      (interfaceMembers w lo active fuel scope decls args caller visited)
      (Session.interfaceMembers conv fuel scope decls args caller visited)
      (interfaceMembers w hi active fuel scope decls args caller visited))
    (env : Env) (parents : List (Nat × List InterfaceDecl × List TypeExpr)) : ∀ visited,
    Tracks w active id (parentMembers w lo active fuel env visited parents)
      (Session.parentMembers conv fuel env visited parents)
      (parentMembers w hi active fuel env visited parents) := by
  induction parents with
  | nil =>
      intro visited
      simp only [parentMembers, Session.parentMembers]
      exact .pure _
  | cons p parents ih =>
      intro visited
      obtain ⟨scope, decls, args⟩ := p
      simp only [parentMembers, Session.parentMembers]
      split
      · exact ih visited
      · exact (hmembers scope decls args env _).bind fun first =>
          (ih first.2).bind fun _ => .pure _

theorem tracks_interfaceMembers (fuel : Nat) : ∀ scope decls args caller visited,
    Tracks w active id (interfaceMembers w lo active fuel scope decls args caller visited)
      (Session.interfaceMembers conv fuel scope decls args caller visited)
      (interfaceMembers w hi active fuel scope decls args caller visited) := by
  induction fuel with
  | zero =>
      intro scope decls args caller visited
      simp only [interfaceMembers, Session.interfaceMembers]
      exact .outOfDepth
  | succ fuel ih =>
      intro scope decls args caller visited
      simp only [interfaceMembers, Session.interfaceMembers]
      refine (tracks_envInside h caller scope _ args).bind fun env => .getWorld ?_
      exact (tracks_parentMembers ih env _ visited).bind fun _ => .pure _

theorem tracks_membersOfInterface (env : Env) (scope : Nat) (decls : List InterfaceDecl)
    (args : List TypeExpr) : Tracks w active id
    (membersOfInterface w lo active env scope decls args)
    (Session.membersOfInterface conv env scope decls args)
    (membersOfInterface w hi active env scope decls args) :=
  .getWorld <| (tracks_interfaceMembers h _ scope decls args env _).bind fun _ => .pure _

theorem tracks_shapeOfMembers (members : List PlacedMember) : ∀ shape, Tracks w active id
    (shapeOfMembers w lo active shape members) (Session.shapeOfMembers conv shape members)
    (shapeOfMembers w hi active shape members) := by
  induction members with
  | nil => exact fun _ => .pure _
  | cons m members ih =>
      intro shape
      obtain ⟨m, env⟩ := m
      cases m with
      | property name optional type modifiers =>
          simp only [shapeOfMembers, Session.shapeOfMembers]
          split
          · exact ih shape
          · cases type with
            | none => exact Tracks.bind (.pure _) fun _ => ih _
            | some ty =>
                dsimp only
                split
                · exact (tracks_convertUnion h env ty true).bind fun _ => ih _
                · exact (h active env ty).bind fun _ => ih _
      | method name optional sig modifiers =>
          simp only [shapeOfMembers, Session.shapeOfMembers]
          split
          · exact ih shape
          · exact ih _
      | _ =>
          simp only [shapeOfMembers, Session.shapeOfMembers]
          exact ih shape

theorem tracks_objectOfMembers (members : List PlacedMember) : Tracks w active id
    (objectOfMembers w lo active members) (Session.objectOfMembers conv members)
    (objectOfMembers w hi active members) := by
  refine (tracks_shapeOfMembers h members []).bind fun shape => ?_
  split
  · exact .pure _
  · split
    · exact .pure _
    · exact .pure _

omit h in
theorem tracks_convertClass (c : ClassRef) : Tracks w active id (convertClass w c)
    (Session.convertClass c) (convertClass w c) :=
  (Tracks.refer c).bind fun _ => .getWorld (.pure _)

theorem tracks_convertInterface (env : Env) (scope : Nat) (decls : List InterfaceDecl)
    (args : List TypeExpr) : Tracks w active id (convertInterface w lo active env scope decls args)
    (Session.convertInterface conv env scope decls args)
    (convertInterface w hi active env scope decls args) :=
  .mark <| .thenUnmark <| (tracks_membersOfInterface h env scope decls args).bind fun members =>
    tracks_objectOfMembers h members

theorem tracks_convertAlias (env : Env) (scope : Nat) (decl : AliasDecl) (args : List TypeExpr) :
    Tracks w active id (convertAlias lo active env scope decl args)
      (Session.convertAlias conv env scope decl args)
      (convertAlias hi active env scope decl args) :=
  .mark <| (tracks_envInside h env scope decl.typeParams args).bind fun inner =>
    .thenUnmark (h _ inner decl.type)

omit h in
theorem tracks_instanceType (env : Env) (path : List String) : Tracks w active id
    (instanceType w env path) (Session.instanceType env path) (instanceType w env path) := by
  refine .getWorld ?_
  unfold instanceType
  rcases (w.scopes.valueNamed? env.scope path).bind fun v => v.ofClass.map (v.scope, ·) with
    _ | ⟨scope, decl⟩
  · rcases path with _ | ⟨single, _ | ⟨_, _⟩⟩
    · exact .pure _
    · exact .pure _
    · exact .pure _
  · exact tracks_convertClass ⟨scope, decl⟩

theorem tracks_firstArg (env : Env) (args : List TypeExpr) : Tracks w active id
    (firstArg lo active env args) (Session.firstArg conv env args)
    (firstArg hi active env args) := by
  cases args with
  | nil => exact .pure _
  | cons arg args => exact h active env arg

theorem tracks_convertGlobal (env : Env) (name : List String) (args : List TypeExpr) :
    Tracks w active id (convertGlobal w lo active env name args)
      (Session.convertGlobal conv env name args) (convertGlobal w hi active env name args) := by
  have hfirst : Tracks w active id (firstArg lo active env args) (Session.firstArg conv env args)
      (firstArg hi active env args) := tracks_firstArg h env args
  unfold convertGlobal Session.convertGlobal
  dsimp only
  generalize ".".intercalate name = joined
  generalize (if Standard.isClass joined then Guess.ofClass joined else .any) = known
  split
  all_goals first
    | exact hfirst
    | exact hfirst.bind fun _ => .pure _
    | -- A name that is none of those is none of them in a session either.
      (try split) <;> first | contradiction | exact .pure _
    | -- The instances of a class are the only other thing that a name stands for.
      rcases args with _ | ⟨arg, args⟩
      · exact .pure _
      · cases arg with
        | query path => exact tracks_instanceType env path
        | _ => exact .pure _

theorem tracks_convertRef (env : Env) (name : List String) (args : List TypeExpr) :
    Tracks w active id (convertRef w lo active env name args)
      (Session.convertRef conv env name args) (convertRef w hi active env name args) := by
  rw [convertRef, Session.convertRef, convertRef]
  cases binding? name env with
  | some g => exact .pure g
  | none =>
      refine .getWorld ?_
      rcases w.scopes.typeNamed? env.scope name with _ | symbol
      · exact tracks_convertGlobal h env name args
      · cases symbol with
        | ofClass scope decl => exact tracks_convertClass ⟨scope, decl⟩
        | ofInterface scope decls => exact tracks_convertInterface h env scope decls args
        | ofAlias scope decl => exact tracks_convertAlias h env scope decl args
        | ofEnum decl => exact .pure _
        | enumMember value => exact .pure _

theorem tracks_convertQuery (env : Env) (path : List String) : Tracks w active id
    (convertQuery w lo active env path) (Session.convertQuery conv env path)
    (convertQuery w hi active env path) := by
  refine .getWorld ?_
  rw [convertQuery, convertQuery]
  cases w.scopes.valueNamed? env.scope path with
  | none => exact .pure _
  | some v =>
      dsimp only
      split
      · exact .pure _
      · rcases v.variableType with _ | _ | ty
        · exact .pure _
        · exact .pure _
        · cases path.getLast? with
          | none => exact .pure _
          | some last => exact .mark (.thenUnmark (h _ _ ty))

theorem tracks_convertItem (env : Env) (item : TupleItem) : Tracks w active id
    (convertItem lo active env item) (Session.convertItem conv env item)
    (convertItem hi active env item) := by
  obtain ⟨ty, optional, rest⟩ := item
  simp only [convertItem, Session.convertItem]
  split
  · cases itemType? ty with
    | none => exact .pure _
    | some item => exact h active env item
  · exact h active env ty

/-- **One step of a conversion.** -/
theorem covers_convertWith : Covers w (convertWith w lo) (Session.convertWith conv)
    (convertWith w hi) := by
  intro active env ty
  cases ty with
  | ref name args => exact tracks_convertRef h env name args
  | array item => exact (h active env item).bind fun _ => .pure _
  | tuple items =>
      exact (Tracks.mapM (fun item => tracks_convertItem h env item) items).bind fun _ => .pure _
  | union members => exact tracks_convertUnion h env (.union members) false
  | intersection parts =>
      exact (Tracks.mapM (fun ty => h active env ty) parts).bind fun _ => .pure _
  | object members => exact tracks_objectOfMembers h (placed members env)
  | query path => exact tracks_convertQuery h env path
  | _ => exact .pure _

theorem tracks_membersOfType (fuel : Nat) : ∀ {less more : Nat}, less ≤ fuel → fuel ≤ more →
    ∀ active env ty, Tracks w active id (membersOfType w lo less active env ty)
      (Session.membersOfType conv fuel env ty) (membersOfType w hi more active env ty) := by
  induction fuel with
  | zero =>
      intro less more hless _ active env ty
      rw [Nat.le_zero.mp hless, membersOfType, Session.membersOfType]
      exact .outOfDepth
  | succ fuel ih =>
      intro less more hless hmore active env ty
      obtain ⟨more, rfl⟩ : ∃ n, more = n + 1 :=
        Nat.exists_eq_add_one.mpr (Nat.lt_of_lt_of_le (Nat.succ_pos fuel) hmore)
      have hmore := Nat.le_of_succ_le_succ hmore
      have hstep : ∀ less ≤ fuel, Tracks w active id (membersOfType w lo (less + 1) active env ty)
          (Session.membersOfType conv (fuel + 1) env ty)
          (membersOfType w hi (more + 1) active env ty) := by
        intro less hless
        cases ty with
        | object members => exact .pure _
        | ref name args =>
            simp only [membersOfType, Session.membersOfType]
            refine .getWorld ?_
            rcases w.scopes.typeNamed? env.scope name with _ | symbol
            · exact .pure none
            · cases symbol with
              | ofInterface scope decls =>
                  exact (tracks_membersOfInterface h env scope decls args).bind fun _ => .pure _
              | ofAlias scope decl =>
                  exact .mark <| (tracks_envInside h env scope decl.typeParams args).bind
                    fun inner => .thenUnmark (ih hless hmore _ inner decl.type)
              | _ => exact .pure none
        | _ => exact .pure none
      cases less with
      | zero => exact (hstep 0 (Nat.zero_le fuel)).weaken
      | succ less => exact hstep less (Nat.le_of_succ_le_succ hless)

end Conversions

/-- **A conversion in a session** has an answer wherever one that goes less deep has it, and its
answers are those of one that goes deeper. -/
theorem covers_convertTo (depth : Nat) : ∀ {less more : Nat}, less ≤ depth → depth ≤ more →
    Covers w (convertTo w less) (Session.convertTo depth) (convertTo w more) := by
  induction depth with
  | zero =>
      intro less more hless _ active env ty
      rw [Nat.le_zero.mp hless, convertTo, Session.convertTo]
      exact .outOfDepth
  | succ depth ih =>
      intro less more hless hmore active env ty
      obtain ⟨more, rfl⟩ : ∃ n, more = n + 1 :=
        Nat.exists_eq_add_one.mpr (Nat.lt_of_lt_of_le (Nat.succ_pos depth) hmore)
      have hmore := Nat.le_of_succ_le_succ hmore
      have hstep : ∀ less ≤ depth, Tracks w active id (convertTo w (less + 1) active env ty)
          (Session.convertTo (depth + 1) env ty) (convertTo w (more + 1) active env ty) :=
        fun less hless => covers_convertWith (ih hless hmore) active env ty
      cases less with
      | zero => exact (hstep 0 (Nat.zero_le depth)).weaken
      | succ less => exact hstep less (Nat.le_of_succ_le_succ hless)

end ApiSurface.Declaration
