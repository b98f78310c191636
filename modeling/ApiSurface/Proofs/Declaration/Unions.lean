/-
# `ApiSurface.Proofs.Declaration.Unions` — what the guess for a union depends on

The members of a union are gathered first, those of unions among them included.  Members without
parts then count by their kind alone and `never` does not count, so the guess depends on the set of
these kinds and on the other members in their order (`guessOfMembers_congr`).

Gathering does not depend on how a union is written as one of unions (`flatten_leaves`), and a
member that counts by its kind is gathered where it stands and as it is.  It may be moved to the
front, whatever is made of the members later as long as that depends on the two things above
(`flatten_bind`).
-/
import ApiSurface.Proofs.Declaration.Brought
import ApiSurface.Proofs.Declaration.Ends

namespace ApiSurface.Declaration

variable {w : World} {conv : Converter} {active : List DeclKey} {env : Env}

/-! ## The members of a union -/

/-- Whether a member counts by its kind alone, or not at all. -/
def World.isPooled (w : World) (m : PlacedType) : Bool :=
  isNever m.1 || (w.primitiveKind? m.2 m.1).isSome

/-- The members that are converted one by one. -/
def otherMembers (w : World) (ms : List PlacedType) : List PlacedType :=
  ms.filter fun m => !w.isPooled m

/-- The same kinds stand among the members, and the same other members in the same order. -/
structure SameMembers (w : World) (ms ms' : List PlacedType) : Prop where
  kinds : ∀ k, k ∈ primitiveKinds w ms ↔ k ∈ primitiveKinds w ms'
  others : otherMembers w ms = otherMembers w ms'

theorem SameMembers.symm {ms ms' : List PlacedType} (h : SameMembers w ms ms') :
    SameMembers w ms' ms :=
  ⟨fun k => (h.kinds k).symm, h.others.symm⟩

theorem primitiveKinds_append (ms ms' : List PlacedType) :
    primitiveKinds w (ms ++ ms') = primitiveKinds w ms ++ primitiveKinds w ms' :=
  List.filterMap_append

theorem otherMembers_append (ms ms' : List PlacedType) :
    otherMembers w (ms ++ ms') = otherMembers w ms ++ otherMembers w ms' :=
  List.filter_append ms ms'

theorem SameMembers.append {ms ms' rest rest' : List PlacedType} (h : SameMembers w ms ms')
    (hrest : SameMembers w rest rest') : SameMembers w (ms ++ rest) (ms' ++ rest') where
  kinds := by
    intro k
    rw [primitiveKinds_append, primitiveKinds_append, List.mem_append, List.mem_append, h.kinds k,
      hrest.kinds k]
  others := by rw [otherMembers_append, otherMembers_append, h.others, hrest.others]

theorem pooled_congr {kinds kinds' : List Kind} (h : ∀ k, k ∈ kinds ↔ k ∈ kinds') :
    pooled kinds = pooled kinds' := by
  have hfilter : Kind.all.filter kinds.contains = Kind.all.filter kinds'.contains :=
    List.filter_congr fun k _ => by rw [Bool.eq_iff_iff, List.contains_iff_mem,
      List.contains_iff_mem, h k]
  rw [pooled, pooled, hfilter]

theorem convertOthers_otherMembers (ms : List PlacedType) :
    convertOthers w conv active (otherMembers w ms) = convertOthers w conv active ms := by
  induction ms with
  | nil => rfl
  | cons m ms ih =>
      obtain ⟨ty, env⟩ := m
      cases h : w.isPooled (ty, env) with
      | true =>
          have hskip : otherMembers w ((ty, env) :: ms) = otherMembers w ms :=
            List.filter_cons_of_neg (by simp [h])
          have hpooled : (isNever ty || (w.primitiveKind? env ty).isSome) = true := h
          rw [hskip, ih, convertOthers, if_pos hpooled]
      | false =>
          have hkeep : otherMembers w ((ty, env) :: ms) = (ty, env) :: otherMembers w ms :=
            List.filter_cons_of_pos (by simp [h])
          have hother : ¬ (isNever ty || (w.primitiveKind? env ty).isSome) = true :=
            Bool.eq_false_iff.mp h
          rw [hkeep, convertOthers, convertOthers, if_neg hother, if_neg hother, ih]

theorem otherMembers_filter_isPooled (ms : List PlacedType) :
    otherMembers w (ms.filter w.isPooled) = [] := by
  rw [otherMembers, List.filter_filter, List.filter_eq_nil_iff]
  simp

theorem primitiveKinds_filter_isPooled (ms : List PlacedType) :
    primitiveKinds w (ms.filter w.isPooled) = primitiveKinds w ms := by
  rw [primitiveKinds, List.filterMap_filter]
  refine List.filterMap_congr fun m _ => ?_
  cases h : w.primitiveKind? m.2 m.1 with
  | none => rw [ite_self]
  | some k => rw [if_pos (by simp [World.isPooled, h])]

/-- Members that count by their kind may be moved to the front. -/
theorem SameMembers.move {front : List PlacedType} (hfront : otherMembers w front = [])
    (ms rest : List PlacedType) :
    SameMembers w (ms ++ (front ++ rest)) (front ++ (ms ++ rest)) where
  kinds := by
    intro k
    simp only [primitiveKinds_append, List.mem_append]
    tauto
  others := by simp only [otherMembers_append, hfront, List.nil_append]

/-- The guess for a union whose members are gathered. -/
def guessOfMembers (w : World) (conv : Converter) (active : List DeclKey) (orUndefined : Bool)
    (ms : List PlacedType) : Conversion Guess := do
  let others ← convertOthers w conv active ms
  return merged (pooled (primitiveKinds w ms ++ if orUndefined then [.undefined] else []) ++ others)

theorem convertUnion_eq (ty : TypeExpr) (orUndefined : Bool) :
    convertUnion w conv active env ty orUndefined =
      flatten w conv active maxAliasDepth env ty >>= guessOfMembers w conv active orUndefined :=
  rfl

/-- Members with the same kinds and the same others have one guess. -/
theorem guessOfMembers_congr {ms ms' : List PlacedType} (h : SameMembers w ms ms')
    (orUndefined : Bool) : guessOfMembers w conv active orUndefined ms =
      guessOfMembers w conv active orUndefined ms' := by
  have hpooled : ∀ extra : List Kind, pooled (primitiveKinds w ms ++ extra) =
      pooled (primitiveKinds w ms' ++ extra) := fun extra =>
    pooled_congr fun k => by rw [List.mem_append, List.mem_append, h.kinds k]
  rw [guessOfMembers, guessOfMembers, ← convertOthers_otherMembers ms, h.others,
    convertOthers_otherMembers, hpooled]

/-- A value that may be undefined has the guess of one more member. -/
theorem guessOfMembers_orUndefined (ms : List PlacedType) :
    guessOfMembers w conv active true ms =
      guessOfMembers w conv active false (ms ++ [(.keyword .undefined, env)]) := by
  have hothers : otherMembers w (ms ++ [(.keyword .undefined, env)]) = otherMembers w ms := by
    rw [otherMembers_append]
    exact List.append_nil _
  have hkinds : primitiveKinds w (ms ++ [(.keyword .undefined, env)]) ++ [] =
      primitiveKinds w ms ++ [.undefined] := by
    rw [primitiveKinds_append, List.append_nil]
    rfl
  rw [guessOfMembers, guessOfMembers, ← convertOthers_otherMembers (_ ++ _), hothers,
    convertOthers_otherMembers, if_pos rfl, if_neg Bool.false_ne_true, hkinds]

/-! ## Gathering -/

section Gathering

variable {depth : Nat}

theorem flatten_nil : flatten w conv active depth env (.union []) = pure [] := by
  cases depth <;> rfl

theorem flatten_cons (ty : TypeExpr) (tys : List TypeExpr) :
    flatten w conv active depth env (.union (ty :: tys)) = (do
      let first ← flatten w conv active depth env ty
      let rest ← flatten w conv active depth env (.union tys)
      return first ++ rest) := by
  cases depth <;> rfl

theorem flatten_append (tys tys' : List TypeExpr) :
    flatten w conv active depth env (.union (tys ++ tys')) = (do
      let first ← flatten w conv active depth env (.union tys)
      let rest ← flatten w conv active depth env (.union tys')
      return first ++ rest) := by
  induction tys with
  | nil => simp only [List.nil_append, flatten_nil, pure_bind, bind_pure]
  | cons ty tys ih =>
      rw [List.cons_append, flatten_cons, ih, flatten_cons]
      simp only [bind_assoc, pure_bind, List.append_assoc]

mutual

/-- The members of a type as a union, with the unions among them taken apart. -/
def TypeExpr.leaves : TypeExpr → List TypeExpr
  | .union members => leavesOfAll members
  | ty => [ty]

/-- The leaves of all the types. -/
def leavesOfAll : List TypeExpr → List TypeExpr
  | [] => []
  | ty :: tys => ty.leaves ++ leavesOfAll tys

end

theorem flatten_singleton (ty : TypeExpr) :
    flatten w conv active depth env (.union [ty]) = flatten w conv active depth env ty := by
  rw [flatten_cons, flatten_nil]
  simp only [pure_bind, List.append_nil, bind_pure]

mutual

/-- What is gathered does not depend on unions inside unions. -/
theorem flatten_leaves : ∀ ty : TypeExpr, flatten w conv active depth env (.union ty.leaves) =
    flatten w conv active depth env ty
  | .union members => by
      rw [TypeExpr.leaves]
      exact flatten_leavesOfAll members
  | .keyword _ | .textLiteral _ | .numberLiteral _ | .boolLiteral _ | .template | .ref .. | .array _
  | .tuple _ | .intersection _ | .function _ | .object _ | .query _ | .keyof _ | .predicate
  | .computed => by
      simp only [TypeExpr.leaves]
      exact flatten_singleton _

theorem flatten_leavesOfAll : ∀ tys : List TypeExpr,
    flatten w conv active depth env (.union (leavesOfAll tys)) =
      flatten w conv active depth env (.union tys)
  | [] => by rw [leavesOfAll]
  | ty :: tys => by
      rw [leavesOfAll, flatten_append, flatten_leaves ty, flatten_leavesOfAll tys, flatten_cons]

end

/-- The types, all read at one place. -/
def placedTypes (env : Env) (tys : List TypeExpr) : List PlacedType :=
  tys.map fun ty => (ty, env)

/-- A member that counts by its kind is gathered as it is: no name for a union is one. -/
theorem flatten_of_pooled {ty : TypeExpr} (h : w.isPooled (ty, env) = true) :
    flatten w conv active depth env ty = pure [(ty, env)] := by
  cases ty with
  | union members => cases h
  | ref name args =>
      cases depth with
      | zero => rfl
      | succ depth =>
          have h : (w.primitiveKind? env (.ref name args)).isSome = true := h
          rw [World.primitiveKind?] at h
          split at h
          · cases h
          next hbound =>
            rw [flatten, flattenWith, if_neg hbound]
            split at h
            next value hvalue => rw [hvalue]; rfl
            · cases h
  | _ => cases depth <;> rfl

theorem placedTypes_injective {tys tys' : List TypeExpr}
    (h : placedTypes env tys = placedTypes env tys') : tys = tys' :=
  List.map_injective_iff.mpr (fun _ _ h => congrArg Prod.fst h) h

theorem otherMembers_placedTypes (tys : List TypeExpr) : otherMembers w (placedTypes env tys) =
    placedTypes env (tys.filter fun ty => !w.isPooled (ty, env)) := by
  rw [otherMembers, placedTypes, List.filter_map]
  rfl

/-- Whatever is made of the members, as long as it depends on the kinds and on the other members:
those that count by their kind may be put in front. -/
theorem flatten_bind {β : Type} {K : List PlacedType → Conversion β}
    (hK : ∀ ms ms', SameMembers w ms ms' → K ms = K ms') (tys : List TypeExpr) :
    flatten w conv active depth env (.union tys) >>= K =
      flatten w conv active depth env (.union (tys.filter fun ty => !w.isPooled (ty, env))) >>=
        fun ms => K ((placedTypes env tys).filter w.isPooled ++ ms) := by
  induction tys generalizing K with
  | nil => rfl
  | cons ty tys ih =>
      have hcons : ∀ first, ∀ ms ms', SameMembers w ms ms' → K (first ++ ms) = K (first ++ ms') :=
        fun first ms ms' h => hK _ _ (.append ⟨fun _ => Iff.rfl, rfl⟩ h)
      cases h : w.isPooled (ty, env) with
      | true =>
          have hfront : (placedTypes env (ty :: tys)).filter w.isPooled =
              [(ty, env)] ++ (placedTypes env tys).filter w.isPooled :=
            List.filter_cons_of_pos h
          rw [List.filter_cons_of_neg (by simp [h]), flatten_cons, flatten_of_pooled h, hfront]
          simp only [pure_bind, bind_assoc]
          rw [ih (hcons [(ty, env)])]
          simp only [List.append_assoc]
      | false =>
          have hfront : (placedTypes env (ty :: tys)).filter w.isPooled =
              (placedTypes env tys).filter w.isPooled :=
            List.filter_cons_of_neg (by simp [h])
          rw [List.filter_cons_of_pos (by simp [h]), flatten_cons, flatten_cons, hfront]
          simp only [pure_bind, bind_assoc]
          refine bind_congr fun first => ?_
          rw [ih (hcons first)]
          exact bind_congr fun ms => hK _ _ (.move (otherMembers_filter_isPooled _) first ms)

end Gathering

/-! ## The guess -/

/-- Members of a union that count by their kind may be repeated, put in another order or into
unions of their own, and `never` may be added. -/
theorem convertUnion_congr {ty ty' : TypeExpr}
    (h : SameMembers w (placedTypes env ty.leaves) (placedTypes env ty'.leaves))
    (orUndefined : Bool) : convertUnion w conv active env ty orUndefined =
      convertUnion w conv active env ty' orUndefined := by
  have hothers : ty.leaves.filter (fun t => !w.isPooled (t, env)) =
      ty'.leaves.filter fun t => !w.isPooled (t, env) := by
    have hplaced := h.others
    rw [otherMembers_placedTypes, otherMembers_placedTypes] at hplaced
    exact placedTypes_injective hplaced
  have hfront : SameMembers w ((placedTypes env ty.leaves).filter w.isPooled)
      ((placedTypes env ty'.leaves).filter w.isPooled) := by
    constructor
    · intro k
      rw [primitiveKinds_filter_isPooled, primitiveKinds_filter_isPooled, h.kinds k]
    · rw [otherMembers_filter_isPooled, otherMembers_filter_isPooled]
  have hK : ∀ ms ms', SameMembers w ms ms' → guessOfMembers w conv active orUndefined ms =
      guessOfMembers w conv active orUndefined ms' := fun _ _ h => guessOfMembers_congr h _
  rw [convertUnion_eq, convertUnion_eq, ← flatten_leaves ty, ← flatten_leaves ty',
    flatten_bind hK, flatten_bind hK, hothers]
  exact bind_congr fun ms => hK _ _ (hfront.append ⟨fun _ => Iff.rfl, rfl⟩)

/-- The type as a union with `undefined` as its last member. -/
inductive IsOrUndefined : TypeExpr → TypeExpr → Prop
  | member (ty : TypeExpr) : IsOrUndefined ty (.union [ty, .keyword .undefined])
  | last (members : List TypeExpr) :
      IsOrUndefined (.union members) (.union (members ++ [.keyword .undefined]))

theorem IsOrUndefined.flatten_eq {ty ty' : TypeExpr} (h : IsOrUndefined ty ty') (depth : Nat) :
    flatten w conv active depth env ty' = (do
      let members ← flatten w conv active depth env ty
      return members ++ [(.keyword .undefined, env)]) := by
  have hlast : flatten w conv active depth env (.keyword .undefined) =
      pure [(.keyword .undefined, env)] :=
    flatten_of_pooled rfl
  cases h with
  | member => rw [flatten_cons, flatten_singleton, hlast]; rfl
  | last members => rw [flatten_append, flatten_singleton, hlast]; rfl

/-- What may be undefined has the guess of the type as a union with `undefined`. -/
theorem IsOrUndefined.convertUnion_eq {ty ty' : TypeExpr} (h : IsOrUndefined ty ty') :
    convertUnion w conv active env ty true = convertWith w conv active env ty' := by
  have hunion : convertWith w conv active env ty' = convertUnion w conv active env ty' false := by
    cases h <;> rfl
  rw [hunion, Declaration.convertUnion_eq, Declaration.convertUnion_eq, h.flatten_eq, bind_assoc]
  refine bind_congr fun ms => ?_
  rw [pure_bind, ← guessOfMembers_orUndefined]

theorem convertFully_union (members : List TypeExpr) :
    convertFully w active env (.union members) =
      flatten w (convertFully w) active maxAliasDepth env (.union members) >>=
        guessOfMembers w (convertFully w) active false :=
  congrFun (congrFun (congrFun convertFully_eq active) env) (.union members)

/-- **The guess for a union depends on the kinds among its members and on its other members.**  Two
unions whose gathered members have the same kinds, and otherwise the same members in the same order,
have the same guess.  When it is only in how the unions are written that members with a kind are
repeated, moved or put into unions of their own, or that `never` is added, the conversion is the
same one.  A parameter or a property that may be missing is converted as one whose type is a union
with `undefined`. -/
theorem convertFully_of_members (w : World) (active : List DeclKey) :
    (∀ env env' members members' g g', (convertFully w active env (.union members)).Gives g →
      (convertFully w active env' (.union members')).Gives g' →
      ∃ ms ms', (flatten w (convertFully w) active maxAliasDepth env (.union members)).Gives ms ∧
        (flatten w (convertFully w) active maxAliasDepth env' (.union members')).Gives ms' ∧
        (SameMembers w ms ms' → g = g')) ∧
    (∀ env members members', SameMembers w (placedTypes env (leavesOfAll members))
        (placedTypes env (leavesOfAll members')) →
      convertFully w active env (.union members) = convertFully w active env (.union members')) ∧
    (∀ env name ty ty', IsOrUndefined ty ty' →
      paramGuess w (convertFully w) env (.mk name (some ty) true false) =
        paramGuess w (convertFully w) env (.mk name (some ty') false false)) ∧
    ∀ env name modifiers shape rest ty ty', IsOrUndefined ty ty' →
      shapeOfMembers w (convertFully w) active shape
          ((.property name true (some ty) modifiers, env) :: rest) =
        shapeOfMembers w (convertFully w) active shape
          ((.property name false (some ty') modifiers, env) :: rest) := by
  have hmissing : ∀ {active env ty ty'}, IsOrUndefined ty ty' →
      convertUnion w (convertFully w) active env ty true = convertFully w active env ty' := by
    intro active env ty ty' h
    rw [h.convertUnion_eq, ← convertFully_eq]
  refine ⟨?_, ?_, ?_, ?_⟩
  · intro env env' members members' g g' hg hg'
    rw [convertFully_union] at hg hg'
    obtain ⟨ms, hms, hg⟩ := Conversion.gives_bind hg
    obtain ⟨ms', hms', hg'⟩ := Conversion.gives_bind hg'
    refine ⟨ms, ms', hms, hms', fun h => ?_⟩
    rw [guessOfMembers_congr h] at hg
    exact hg.unique hg'
  · intro env members members' h
    have hunion : convertWith w (convertFully w) active env (.union members) =
        convertWith w (convertFully w) active env (.union members') := convertUnion_congr h false
    rwa [← convertFully_eq] at hunion
  · intro env name ty ty' h
    exact hmissing h
  · intro env name modifiers shape rest ty ty' h
    simp only [shapeOfMembers, if_true, if_neg Bool.false_ne_true, hmissing h]

/-- The members of the union that `levels` has a name for. -/
def levelMembers : List TypeExpr :=
  [.ref ["T"] [], .textLiteral "low", .keyword .number, .array (.ref ["T"] [])]

/-- A name with a type parameter for a union, and an enumeration. -/
def levels : World :=
  ⟨Scopes.ofStatements
    [.decl (.aliasDecl ⟨"Level", [.mk "T" none], .union levelMembers⟩) true,
      .decl (.enumDecl ⟨"Mark", [("first", .string), ("last", .string)]⟩) true], []⟩

/-- A level, a text and `never`. -/
def highLevel : List TypeExpr :=
  [.ref ["Level"] [.keyword .boolean], .textLiteral "high", .keyword .never]

/-- A union of a member of the enumeration and a number, and a level. -/
def lastLevel : List TypeExpr :=
  [.union [.ref ["Mark", "last"] [], .keyword .number], .ref ["Level"] [.keyword .boolean]]

/-- Both unions have a level's members other than texts and numbers, so they have one guess.  What
is written in them may be moved, and what may be missing may be undefined. -/
theorem levels_convertFully_of_members :
    (∃ g, (convertFully levels [] { scope := 0 } (.union highLevel)).Gives g ∧
      (convertFully levels [] { scope := 0 } (.union lastLevel)).Gives g) ∧
    convertFully levels [] { scope := 0 } (.union lastLevel) =
      convertFully levels [] { scope := 0 } (.union (lastLevel.reverse ++ [.keyword .never])) ∧
    paramGuess levels (convertFully levels) { scope := 0 }
        (.mk "level" (some (.union lastLevel)) true false) =
      paramGuess levels (convertFully levels) { scope := 0 }
        (.mk "level" (some (.union (lastLevel ++ [.keyword .undefined]))) false false) ∧
    shapeOfMembers levels (convertFully levels) [] []
        [(.property "mark" true (some (.ref ["Mark"] [])) {}, { scope := 0 })] =
      shapeOfMembers levels (convertFully levels) [] []
        [(.property "mark" false (some (.union [.ref ["Mark"] [], .keyword .undefined])) {},
          { scope := 0 })] := by
  obtain ⟨hgathered, hwritten, hparam, hproperty⟩ := convertFully_of_members levels []
  refine ⟨?_, hwritten _ _ _ ?_, hparam _ _ _ _ (.last _), hproperty _ _ _ _ _ _ _ (.member _)⟩
  · obtain ⟨⟨g, refs⟩, hg⟩ := Option.isSome_iff_exists.mp (show
        (convertFully levels [] { scope := 0 } (.union highLevel)).isSome = true by decide +kernel)
    obtain ⟨⟨g', refs'⟩, hg'⟩ := Option.isSome_iff_exists.mp (show
        (convertFully levels [] { scope := 0 } (.union lastLevel)).isSome = true by decide +kernel)
    obtain ⟨ms, ms', hms, hms', hsame⟩ := hgathered _ _ _ _ _ _ ⟨refs, hg⟩ ⟨refs', hg'⟩
    have hhigh : flatten levels (convertFully levels) [] maxAliasDepth { scope := 0 }
        (.union highLevel) = some (placedTypes ⟨0, [("T", .boolean)], none⟩ levelMembers ++
          [(.textLiteral "high", { scope := 0 }), (.keyword .never, { scope := 0 })], []) := by with_unfolding_all rfl
    have hlast : flatten levels (convertFully levels) [] maxAliasDepth { scope := 0 }
        (.union lastLevel) = some ([(.ref ["Mark", "last"] [], { scope := 0 }),
          (.keyword .number, { scope := 0 })] ++
            placedTypes ⟨0, [("T", .boolean)], none⟩ levelMembers, []) := by with_unfolding_all rfl
    obtain rfl := hms.unique ⟨_, hhigh⟩
    obtain rfl := hms'.unique ⟨_, hlast⟩
    have hguess : g = g' := hsame ⟨fun k => by cases k <;> decide +kernel, by with_unfolding_all rfl⟩
    exact ⟨g, ⟨refs, hg⟩, hguess ▸ ⟨refs', hg'⟩⟩
  · exact ⟨fun k => by cases k <;> decide +kernel, by with_unfolding_all rfl⟩

end ApiSurface.Declaration
