/-
# `ApiSurface.Proofs.Declaration.Agreeing` — worlds that are converted alike

What a conversion reads of its world is what names stand for, the names of the classes and a few
bounds.  Of an interface it reads the name and the type parameters of the first declaration, and for
the rest only the members and the clauses of all declarations together: two lists of declarations
may say the same and be divided in different ways (`SameContents`).  In worlds that agree on all
this (`World.Agree`) each function of the conversion is the same one (`Agree.convertFully`), and so
is what items and classes bring and what emission does (`Agree.itemEntries`, `Agree.emitAll`).

The members of interfaces are gathered through clauses that are looked up in both worlds, so the
lists that are gone through are not equal but the same clause by clause.  That is the only place
where the two worlds go on with different data.
-/
import ApiSurface.Proofs.Declaration.Brought
import Mathlib.Data.List.Forall2

namespace ApiSurface.Declaration

/-! ## Interfaces that say the same -/

/-- The declarations of two interfaces say the same, however it is divided among them. -/
structure SameContents (ds ds' : List InterfaceDecl) : Prop where
  head : (ds.head?.map fun d => (d.name, d.typeParams)) =
    ds'.head?.map fun d => (d.name, d.typeParams)
  parents : ds.flatMap InterfaceDecl.parents = ds'.flatMap InterfaceDecl.parents
  members : ds.flatMap InterfaceDecl.members = ds'.flatMap InterfaceDecl.members

theorem SameContents.refl (ds : List InterfaceDecl) : SameContents ds ds :=
  ⟨rfl, rfl, rfl⟩

theorem SameContents.interfaceKey {ds ds' : List InterfaceDecl} (h : SameContents ds ds')
    (scope : Nat) : interfaceKey scope ds = interfaceKey scope ds' := by
  have hname := congrArg (Option.map Prod.fst) h.head
  simp only [Option.map_map, Function.comp_def] at hname
  exact congrArg (fun name => (scope, name.getD "")) hname

theorem SameContents.interfaceParams {ds ds' : List InterfaceDecl} (h : SameContents ds ds') :
    interfaceParams ds = interfaceParams ds' := by
  have hparams := congrArg (Option.map Prod.snd) h.head
  simp only [Option.map_map, Function.comp_def] at hparams
  exact congrArg (Option.getD · []) hparams

/-- A name stands for the same, or for interfaces that say the same. -/
inductive SameSymbol : Option TypeSymbol → Option TypeSymbol → Prop
  | refl (t : Option TypeSymbol) : SameSymbol t t
  | interface (scope : Nat) {ds ds' : List InterfaceDecl} (h : SameContents ds ds') :
      SameSymbol (some (.ofInterface scope ds)) (some (.ofInterface scope ds'))

/-- Two clauses name interfaces that say the same, with the same arguments. -/
structure SameClause (c c' : Nat × List InterfaceDecl × List TypeExpr) : Prop where
  scope : c.1 = c'.1
  contents : SameContents c.2.1 c'.2.1
  args : c.2.2 = c'.2.2

/-- The worlds agree on what conversions read. -/
structure World.Agree (w w' : World) : Prop where
  typeNamed? : ∀ start path,
    SameSymbol (w.scopes.typeNamed? start path) (w'.scopes.typeNamed? start path)
  valueNamed? : w.scopes.valueNamed? = w'.scopes.valueNamed?
  className : w.className = w'.className
  interfaceCount : w.interfaceCount = w'.interfaceCount
  aliasCount : w.aliasCount = w'.aliasCount
  classCount : w.classCount = w'.classCount
  depthFor : w.depthFor = w'.depthFor

theorem flatMap_placed (ds : List InterfaceDecl) (env : Env) :
    (ds.flatMap fun d => placed d.members env) = placed (ds.flatMap InterfaceDecl.members) env := by
  rw [placed, List.map_flatMap]
  rfl

theorem flatMap_parentInterfaces (w : World) (scope : Nat) (ds : List InterfaceDecl) :
    (ds.flatMap fun d => parentInterfaces w scope d.parents) =
      parentInterfaces w scope (ds.flatMap InterfaceDecl.parents) := by
  rw [parentInterfaces, List.filterMap_flatMap]
  rfl

variable {w w' : World} (h : w.Agree w')

include h

namespace World.Agree

/-! ## Unions -/

theorem primitiveKind? : w.primitiveKind? = w'.primitiveKind? := by
  funext env ty
  cases ty with
  | ref name args =>
      have hsame := h.typeNamed? env.scope name
      simp only [World.primitiveKind?]
      generalize w.scopes.typeNamed? env.scope name = t at hsame
      generalize w'.scopes.typeNamed? env.scope name = t' at hsame
      cases hsame <;> rfl
  | keyword k => cases k <;> rfl
  | textLiteral | numberLiteral | boolLiteral | template | array | tuple | union | intersection
  | function | object | query | keyof | predicate | computed => rfl

variable (conv : Converter) (active : List DeclKey)

theorem flatten (depth : Nat) : flatten w conv active depth = flatten w' conv active depth := by
  induction depth with
  | zero => rfl
  | succ depth ih =>
      funext env ty
      simp only [Declaration.flatten, ih]
      refine congrArg (flattenWith · env ty) (funext fun name => funext fun args => ?_)
      have hsame := h.typeNamed? env.scope name
      generalize w.scopes.typeNamed? env.scope name = t at hsame
      generalize w'.scopes.typeNamed? env.scope name = t' at hsame
      cases hsame <;> rfl

theorem convertOthers : convertOthers w conv active = convertOthers w' conv active := by
  funext members
  induction members with
  | nil => rfl
  | cons m members ih =>
      obtain ⟨ty, env⟩ := m
      simp only [Declaration.convertOthers, h.primitiveKind?, ih]

theorem convertUnion : convertUnion w conv active = convertUnion w' conv active := by
  funext env ty orUndefined
  simp only [Declaration.convertUnion, primitiveKinds, h.flatten, h.primitiveKind?,
    h.convertOthers]

/-! ## Members -/

theorem parentInterfaces (scope : Nat) (parents : List TypeExpr) :
    List.Forall₂ SameClause (parentInterfaces w scope parents)
      (parentInterfaces w' scope parents) := by
  induction parents with
  | nil => exact .nil
  | cons parent parents ih =>
      cases parent with
      | ref name args =>
          have hsame := h.typeNamed? scope name
          simp only [Declaration.parentInterfaces, List.filterMap_cons] at ih ⊢
          generalize w.scopes.typeNamed? scope name = t at hsame
          generalize w'.scopes.typeNamed? scope name = t' at hsame
          cases hsame with
          | interface id hds => exact .cons ⟨rfl, hds, rfl⟩ ih
          | refl =>
              cases t with
              | none => exact ih
              | some t =>
                  cases t with
                  | ofInterface id ds => exact .cons ⟨rfl, .refl ds, rfl⟩ ih
                  | ofClass | ofAlias | ofEnum | enumMember => exact ih
      | keyword | textLiteral | numberLiteral | boolLiteral | template | array | tuple | union
      | intersection | function | object | query | keyof | predicate | computed => exact ih

theorem interfaceMembers (fuel : Nat) :
    (∀ scope {ds ds' : List InterfaceDecl} args caller visited, SameContents ds ds' →
      interfaceMembers w conv active fuel scope ds args caller visited =
        interfaceMembers w' conv active fuel scope ds' args caller visited) ∧
    ∀ {cs cs' : List (Nat × List InterfaceDecl × List TypeExpr)} env visited,
      List.Forall₂ SameClause cs cs' →
        parentMembers w conv active fuel env visited cs =
          parentMembers w' conv active fuel env visited cs' := by
  -- Clauses are gone through with the bound that is left, so a list follows its interfaces.
  have hparents : ∀ {fuel}, (∀ scope {ds ds' : List InterfaceDecl} args caller visited,
      SameContents ds ds' →
        Declaration.interfaceMembers w conv active fuel scope ds args caller visited =
          Declaration.interfaceMembers w' conv active fuel scope ds' args caller visited) →
      ∀ {cs cs' : List (Nat × List InterfaceDecl × List TypeExpr)} env visited,
        List.Forall₂ SameClause cs cs' →
          parentMembers w conv active fuel env visited cs =
            parentMembers w' conv active fuel env visited cs' := by
    intro fuel hfuel cs cs' env visited hcs
    induction hcs generalizing visited with
    | nil => simp only [parentMembers]
    | @cons c c' cs cs' hc _ ih =>
        obtain ⟨scope, ds, args⟩ := c
        obtain ⟨scope', ds', args'⟩ := c'
        obtain ⟨rfl, hds, rfl⟩ := hc
        simp only [parentMembers, hds.interfaceKey, hfuel _ _ _ _ hds, ih]
  induction fuel with
  | zero =>
      have hzero : ∀ scope {ds ds' : List InterfaceDecl} args caller visited, SameContents ds ds' →
          Declaration.interfaceMembers w conv active 0 scope ds args caller visited =
            Declaration.interfaceMembers w' conv active 0 scope ds' args caller visited := by
        intro scope ds ds' args caller visited _
        simp only [Declaration.interfaceMembers]
      exact ⟨hzero, hparents hzero⟩
  | succ fuel ih =>
      have hsucc : ∀ scope {ds ds' : List InterfaceDecl} args caller visited, SameContents ds ds' →
          Declaration.interfaceMembers w conv active (fuel + 1) scope ds args caller visited =
            Declaration.interfaceMembers w' conv active (fuel + 1) scope ds' args caller
              visited := by
        intro scope ds ds' args caller visited hds
        have hclauses := h.parentInterfaces scope (ds'.flatMap InterfaceDecl.parents)
        have hparams : (ds.head?.map InterfaceDecl.typeParams).getD [] =
          (ds'.head?.map InterfaceDecl.typeParams).getD [] := hds.interfaceParams
        simp only [Declaration.interfaceMembers, hparams, flatMap_placed, hds.members,
          flatMap_parentInterfaces, hds.parents, ih.2 _ _ hclauses]
      exact ⟨hsucc, hparents hsucc⟩

theorem membersOfInterface {ds ds' : List InterfaceDecl} (hds : SameContents ds ds') (env : Env)
    (scope : Nat) (args : List TypeExpr) :
    membersOfInterface w conv active env scope ds args =
      membersOfInterface w' conv active env scope ds' args := by
  simp only [Declaration.membersOfInterface, h.interfaceCount, hds.interfaceKey,
    (h.interfaceMembers conv active _).1 _ _ _ _ hds]

theorem membersOf : membersOf w conv = membersOf w' conv := by
  have htype : ∀ fuel, membersOfType w conv fuel = membersOfType w' conv fuel := by
    intro fuel
    induction fuel with
    | zero => rfl
    | succ fuel ih =>
        funext active env ty
        cases ty with
        | ref name args =>
            have hsame := h.typeNamed? env.scope name
            simp only [membersOfType, ih]
            generalize w.scopes.typeNamed? env.scope name = t at hsame
            generalize w'.scopes.typeNamed? env.scope name = t' at hsame
            cases hsame with
            | interface id hds => simp only [h.membersOfInterface conv active hds]
            | refl =>
                cases t with
                | none => rfl
                | some t =>
                    cases t with
                    | ofInterface id ds => simp only [h.membersOfInterface conv active (.refl ds)]
                    | ofClass | ofAlias | ofEnum | enumMember => rfl
        | keyword | textLiteral | numberLiteral | boolLiteral | template | array | tuple | union
        | intersection | function | object | query | keyof | predicate | computed => rfl
  funext env ty
  rw [Declaration.membersOf, Declaration.membersOf, h.aliasCount, htype]

theorem objectOfMembers : objectOfMembers w conv active = objectOfMembers w' conv active := by
  have hshape : shapeOfMembers w conv active = shapeOfMembers w' conv active := by
    funext shape members
    induction members generalizing shape with
    | nil => rfl
    | cons m members ih =>
        obtain ⟨member, env⟩ := m
        cases member <;> simp only [shapeOfMembers, h.convertUnion, ih]
  funext members
  simp only [Declaration.objectOfMembers, hshape]

/-! ## Types -/

theorem convertClass : convertClass w = convertClass w' := by
  funext c
  rw [Declaration.convertClass, Declaration.convertClass, h.className]

theorem convertInterface {ds ds' : List InterfaceDecl} (hds : SameContents ds ds') (env : Env)
    (scope : Nat) (args : List TypeExpr) :
    convertInterface w conv active env scope ds args =
      convertInterface w' conv active env scope ds' args := by
  simp only [Declaration.convertInterface, hds.interfaceKey, h.membersOfInterface conv _ hds,
    h.objectOfMembers]

theorem convertRef : convertRef w conv active = convertRef w' conv active := by
  funext env name args
  have hsame := h.typeNamed? env.scope name
  simp only [Declaration.convertRef, convertGlobal, instanceType, h.valueNamed?, h.convertClass]
  generalize w.scopes.typeNamed? env.scope name = t at hsame
  generalize w'.scopes.typeNamed? env.scope name = t' at hsame
  cases hsame with
  | interface id hds => simp only [h.convertInterface conv active hds]
  | refl =>
      cases t with
      | none => rfl
      | some t =>
          cases t with
          | ofInterface id ds => simp only [h.convertInterface conv active (.refl ds)]
          | ofClass | ofAlias | ofEnum | enumMember => rfl

theorem convertWith : convertWith w conv = convertWith w' conv := by
  funext active env ty
  cases ty <;>
    simp only [Declaration.convertWith, convertQuery, h.convertRef, h.convertUnion,
      h.objectOfMembers, h.valueNamed?]

/-- **Types are converted alike.** -/
theorem convertFully : convertFully w = convertFully w' := by
  have hto : ∀ depth, convertTo w depth = convertTo w' depth := by
    intro depth
    induction depth with
    | zero => rfl
    | succ depth ih => rw [convertTo, convertTo, ih, h.convertWith]
  funext active env ty
  rw [Declaration.convertFully, Declaration.convertFully, h.depthFor, hto]

/-! ## Signatures and entries -/

theorem entryOf : entryOf w conv = entryOf w' conv := by
  have hsig : convertSig w conv = convertSig w' conv := by
    funext ret? s
    have hparam : paramGuess w conv = paramGuess w' conv := by
      funext env p
      unfold paramGuess
      rw [h.convertUnion]
    rw [convertSig, convertSig, hparam]
  funext sigs receiver convention ret?
  rw [Declaration.entryOf, Declaration.entryOf, hsig]

theorem freeEntries : freeEntries w conv = freeEntries w' conv := by
  funext groups
  rw [Declaration.freeEntries, Declaration.freeEntries, h.entryOf]

theorem itemEntries : itemEntries w conv = itemEntries w' conv := by
  have hfunctions : itemFunctions w conv = itemFunctions w' conv := by
    funext item
    cases item with
    | ofClass | ofFunction => rfl
    | ofVariable scope type name memberPrefix =>
        rw [itemFunctions, itemFunctions]
        unfold variableFunctions
        rw [h.valueNamed?, h.membersOf]
  funext item
  rw [Declaration.itemEntries, Declaration.itemEntries, hfunctions, h.freeEntries]

theorem classEntries : classEntries w conv = classEntries w' conv := by
  have henv : classEnv w conv = classEnv w' conv := by
    funext c
    rw [classEnv, classEnv, h.className]
  have hmethods : instanceMethods w conv = instanceMethods w' conv := by
    funext env methods tys
    induction tys generalizing methods with
    | nil => rfl
    | cons ty tys ih => simp only [instanceMethods, h.membersOf, ih]
  funext c
  simp only [Declaration.classEntries, declaredConstructor, methodEntries, h.className, henv,
    hmethods, h.entryOf, h.freeEntries]

theorem parentClass? : parentClass? w = parentClass? w' := by
  funext c
  unfold Declaration.parentClass?
  cases c.decl.parent with
  | none => rfl
  | some parent =>
      cases parent with
      | ref path args =>
          have hsame := h.typeNamed? c.scope path
          dsimp only
          generalize w.scopes.typeNamed? c.scope path = t at hsame
          generalize w'.scopes.typeNamed? c.scope path = t' at hsame
          cases hsame <;> rfl
      | keyword | textLiteral | numberLiteral | boolLiteral | template | array | tuple | union
      | intersection | function | object | query | keyof | predicate | computed => rfl

/-! ## Emission -/

theorem brings : Derive.brings w = Derive.brings w' := by
  funext x d
  simp only [Derive.brings, h.className]

theorem emitClass (fuel : Nat) : emitClass w conv fuel = emitClass w' conv fuel := by
  have hmembers : emitMembers w conv = emitMembers w' conv := by
    funext c parent
    rw [emitMembers_eq, emitMembers_eq, h.brings, h.className, h.classEntries]
  induction fuel with
  | zero => rfl
  | succ fuel ih =>
      funext c
      simp only [Declaration.emitClass, h.className, h.parentClass?, ih, hmembers]

theorem emitItem : emitItem w conv = emitItem w' conv := by
  funext item
  by_cases hclass : ∃ scope decl name, item = .ofClass scope decl name
  · obtain ⟨scope, decl, name, rfl⟩ := hclass
    rw [Declaration.emitItem, Declaration.emitItem, h.emitClass, h.classCount]
  · have hother : ∀ scope decl name, item ≠ .ofClass scope decl name :=
      fun scope decl name h => hclass ⟨scope, decl, name, h⟩
    rw [emitItem_eq hother, emitItem_eq hother, h.brings, h.itemEntries]

/-- **What is written for a surface is the same.** -/
theorem emitAll : emitAll w conv = emitAll w' conv := by
  have hitems : emitItems w conv = emitItems w' conv := by
    funext items
    induction items with
    | nil => rfl
    | cons item items ih => rw [emitItems, emitItems, h.emitItem, ih]
  have hnext : nextPending w = nextPending w' := by
    funext d
    simp only [nextPending, h.className]
  have hpending : ∀ fuel, emitPending w conv fuel = emitPending w' conv fuel := by
    intro fuel
    induction fuel with
    | zero => rfl
    | succ fuel ih => simp only [emitPending, hnext, h.emitClass, h.classCount, ih]
  funext items
  rw [Declaration.emitAll, Declaration.emitAll, hitems, hpending, h.classCount]

end World.Agree

end ApiSurface.Declaration
