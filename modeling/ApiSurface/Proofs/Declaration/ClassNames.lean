/-
# `ApiSurface.Proofs.Declaration.ClassNames` — which classes share a name

A class is named by the exports that lead to it first, one inside the other (`Scopes.Route`), or, if
none do, by its own name alone.  In one scope no two exports have the same outer name, so exports
whose outer names are plain, neither the default one nor with a dot in them, name at most one value
of a module (`Scopes.Route.eq_of_pathName_eq`).  What is left of that for classes is
`cases_of_className_eq`: two of them share a name only if one is not exported, or if they are not
both named plainly by one module.  Classes that are not exported can share theirs
(`unexported_share_name`).
-/
import ApiSurface.Proofs.Declaration.Enclosing
import ApiSurface.Proofs.Declaration.OwnMethods
import ApiSurface.Proofs.Declaration.Surfaces

namespace ApiSurface.Declaration

/-! ## Routes -/

namespace Scopes

/-- The exports lead from a scope to a value, each but the last into the namespace that the next
one is an export of. -/
inductive Route (s : Scopes) : Nat → List ExportName → ValueSymbol → Prop
  | last {id : Nat} {sc : Scope} {e : ExportName} {v : ValueSymbol} (hsc : s.get? id = some sc)
      (he : e ∈ sc.exports) (hv : s.valueNamed? id (nameParts e.inner) = some v) :
      Route s id [e] v
  | step {id ns : Nat} {sc : Scope} {e : ExportName} {v v' : ValueSymbol} {es : List ExportName}
      (hsc : s.get? id = some sc) (he : e ∈ sc.exports)
      (hv : s.valueNamed? id (nameParts e.inner) = some v) (hns : v.ofNamespace = some ns)
      (hroute : Route s ns es v') : Route s id (e :: es) v'

end Scopes

/-- The name that a route gives to what it leads to. -/
def pathName : List ExportName → String
  | [] => ""
  | [e] => e.surfaceName
  | e :: es => e.surfaceName ++ "." ++ pathName es

/-- An export that is known in the surface by its outer name, which has one part. -/
def ExportName.Plain (e : ExportName) : Prop :=
  e.outer ≠ "default" ∧ '.' ∉ e.outer.toList

theorem ExportName.Plain.surfaceName {e : ExportName} (h : e.Plain) : e.surfaceName = e.outer := by
  rw [ExportName.surfaceName, if_neg (by simpa using h.1)]

theorem Scopes.Route.ne_nil {s : Scopes} {id : Nat} {es : List ExportName} {v : ValueSymbol}
    (h : s.Route id es v) : es ≠ [] := by
  cases h <;> exact List.cons_ne_nil _ _

theorem pathName_cons {e : ExportName} {es : List ExportName} (h : es ≠ []) :
    pathName (e :: es) = e.surfaceName ++ "." ++ pathName es := by
  cases es with
  | nil => exact absurd rfl h
  | cons => rfl

/-- Names without a dot are read off what they begin. -/
theorem eq_of_append_dot {a b x y : List Char} (ha : '.' ∉ a) (hb : '.' ∉ b)
    (hx : x = [] ∨ ∃ x', x = '.' :: x') (hy : y = [] ∨ ∃ y', y = '.' :: y')
    (h : a ++ x = b ++ y) : a = b ∧ x = y := by
  have htake : ∀ {a x : List Char}, '.' ∉ a → (x = [] ∨ ∃ x', x = '.' :: x') →
      (a ++ x).takeWhile (· != '.') = a := by
    intro a x ha hx
    have hall : ∀ c ∈ a, (c != '.') = true := fun c hc =>
      bne_iff_ne.mpr fun heq : c = '.' => ha (heq ▸ hc)
    rw [List.takeWhile_append_of_pos hall]
    rcases hx with rfl | ⟨x', rfl⟩
    · exact List.append_nil a
    · exact List.append_nil a
  have hab : a = b := by rw [← htake ha hx, h, htake hb hy]
  subst hab
  exact ⟨rfl, List.append_cancel_left h⟩

/-- What follows the first name of a route: nothing, or a dot and the name of the rest. -/
theorem exists_toList_pathName (es : List ExportName) : ∃ rest : List Char,
    (∀ e : ExportName, (pathName (e :: es)).toList = e.surfaceName.toList ++ rest) ∧
      (rest = [] ∨ ∃ r, rest = '.' :: r) ∧ (es = [] ↔ rest = []) ∧
      (es ≠ [] → rest = '.' :: (pathName es).toList) := by
  cases es with
  | nil => exact ⟨[], fun e => (List.append_nil _).symm, Or.inl rfl, by simp, by simp⟩
  | cons e₁ es =>
      refine ⟨'.' :: (pathName (e₁ :: es)).toList, fun e => ?_, Or.inr ⟨_, rfl⟩, by simp,
        fun _ => rfl⟩
      rw [pathName_cons (List.cons_ne_nil _ _)]
      simp

/-- Plain exports that begin the same name have the same outer name, and the rest agrees. -/
theorem outer_eq_of_pathName_eq {e e' : ExportName} {es es' : List ExportName} (hplain : e.Plain)
    (hplain' : e'.Plain) (hname : pathName (e :: es) = pathName (e' :: es')) :
    e.outer = e'.outer ∧ (es = [] ↔ es' = []) ∧ (es ≠ [] → pathName es = pathName es') := by
  obtain ⟨rest, heq, hdot, hnil, hcons⟩ := exists_toList_pathName es
  obtain ⟨rest', heq', hdot', hnil', hcons'⟩ := exists_toList_pathName es'
  have hlist := congrArg String.toList hname
  rw [heq, heq', hplain.surfaceName, hplain'.surfaceName] at hlist
  obtain ⟨houter, hrest⟩ := eq_of_append_dot hplain.2 hplain'.2 hdot hdot' hlist
  refine ⟨String.toList_injective houter, by rw [hnil, hnil', hrest], fun hne => ?_⟩
  have hne' : es' ≠ [] := fun h => hne (hnil.mpr (hrest.trans (hnil'.mp h)))
  rw [hcons hne, hcons' hne'] at hrest
  exact String.toList_injective (List.cons.inj hrest).2

namespace Scopes.Route

variable {s : Scopes} {id : Nat} {es es' : List ExportName} {v v' : ValueSymbol}

/-- **Plain routes from one scope that give the same name lead to the same value.** -/
theorem eq_of_pathName_eq (hs : s.ExportOnce) (h : s.Route id es v) (hplain : ∀ e ∈ es, e.Plain) :
    ∀ {es' v'}, s.Route id es' v' → (∀ e ∈ es', e.Plain) → pathName es = pathName es' →
      v = v' := by
  -- Exports of one scope that are plain and begin the same name are the same export.
  have hfirst : ∀ {id : Nat} {sc sc' : Scope} {e e' : ExportName} {es es' : List ExportName},
      s.get? id = some sc → s.get? id = some sc' → e ∈ sc.exports → e' ∈ sc'.exports →
      e.Plain → e'.Plain → pathName (e :: es) = pathName (e' :: es') →
      e = e' ∧ (es = [] ↔ es' = []) ∧ (es ≠ [] → pathName es = pathName es') := by
    intro id sc sc' e e' es es' hsc hsc' he he' hplain hplain' hname
    cases hsc.symm.trans hsc'
    obtain ⟨houter, hrest⟩ := outer_eq_of_pathName_eq hplain hplain' hname
    exact ⟨List.inj_on_of_nodup_map (hs sc (List.mem_of_getElem? hsc)) he he' houter, hrest⟩
  induction h with
  | last hsc he hv =>
      intro es' v' h' hplain' hname
      cases h' with
      | last hsc' he' hv' =>
          obtain ⟨rfl, -⟩ := hfirst hsc hsc' he he' (hplain _ List.mem_cons_self)
            (hplain' _ List.mem_cons_self) hname
          cases hv.symm.trans hv'
          rfl
      | step hsc' he' _ _ hroute' =>
          obtain ⟨-, hnil, -⟩ := hfirst hsc hsc' he he' (hplain _ List.mem_cons_self)
            (hplain' _ List.mem_cons_self) hname
          exact absurd (hnil.mp rfl) hroute'.ne_nil
  | step hsc he hv hns hroute ih =>
      intro es' v' h' hplain' hname
      cases h' with
      | last hsc' he' hv' =>
          obtain ⟨-, hnil, -⟩ := hfirst hsc hsc' he he' (hplain _ List.mem_cons_self)
            (hplain' _ List.mem_cons_self) hname
          exact absurd (hnil.mpr rfl) hroute.ne_nil
      | step hsc' he' hv' hns' hroute' =>
          obtain ⟨rfl, -, hrest⟩ := hfirst hsc hsc' he he' (hplain _ List.mem_cons_self)
            (hplain' _ List.mem_cons_self) hname
          cases hv.symm.trans hv'
          cases hns.symm.trans hns'
          exact ih (fun e he => hplain e (List.mem_cons_of_mem _ he)) hroute'
            (fun e he => hplain' e (List.mem_cons_of_mem _ he)) (hrest hroute.ne_nil)

end Scopes.Route

/-! ## Classes of a surface -/

variable {s : Scopes}

/-- Every class in the surface of a scope is named by a route. -/
theorem route_of_mem_scopeSurface (fuel : Nat) : ∀ id start items,
    scopeSurface s fuel id start = .ok items → ∀ scope decl name,
      .ofClass scope decl name ∈ items → ∃ es v, s.Route id es v ∧ v.scope = scope ∧
        v.ofClass = some decl ∧ name = start ++ pathName es := by
  induction fuel with
  | zero =>
      intro _ _ _ h
      cases h
  | succ fuel ih =>
      intro id start items h
      rw [scopeSurface] at h
      cases hsc : s.get? id with
      | none =>
          rw [hsc] at h
          cases h
          exact fun _ _ _ hmem => absurd hmem List.not_mem_nil
      | some sc =>
          rw [hsc] at h
          refine foldlM_induction (P := fun items => ∀ scope decl name,
            .ofClass scope decl name ∈ items → ∃ es v, s.Route id es v ∧ v.scope = scope ∧
              v.ofClass = some decl ∧ name = start ++ pathName es)
            (fun before e he after hstep hbefore => ?_) [] items h
            fun _ _ _ hmem => absurd hmem List.not_mem_nil
          split at hstep
          · cases hstep
            exact hbefore
          next v hv =>
            have hown : ∀ scope decl name, .ofClass scope decl name ∈
                before ++ itemOf v (start ++ e.surfaceName) (start ++ e.surfaceName ++ ".") →
                ∃ es v, s.Route id es v ∧ v.scope = scope ∧ v.ofClass = some decl ∧
                  name = start ++ pathName es := by
              intro scope decl name hmem
              rcases List.mem_append.mp hmem with hmem | hmem
              · exact hbefore scope decl name hmem
              · obtain ⟨hscope, hclass, hname⟩ := mem_itemOf hmem
                exact ⟨[e], v, .last hsc he hv, hscope, hclass, hname⟩
            simp only at hstep
            split at hstep
            next ns hns =>
              obtain ⟨inner, hinner, hafter⟩ := ok_of_bind hstep
              cases hafter
              intro scope decl name hmem
              rcases List.mem_append.mp hmem with hmem | hmem
              · exact hown scope decl name hmem
              · obtain ⟨es, v', hroute, hscope, hclass, hname⟩ :=
                  ih ns _ inner hinner scope decl name hmem
                refine ⟨e :: es, v', .step hsc he hv hns hroute, hscope, hclass, ?_⟩
                rw [pathName_cons hroute.ne_nil, hname]
                simp only [String.append_assoc]
            · cases hstep
              rw [List.append_nil]
              exact hown

/-- What is in a surface is in that of a module. -/
theorem exists_module_of_mem {fuel : Nat} {items : List SurfaceItem}
    (h : surface s fuel = .ok items) {item : SurfaceItem} (hitem : item ∈ items) :
    ∃ m ∈ s.moduleIds, ∃ part, moduleSurface s fuel m = .ok part ∧ item ∈ part := by
  obtain ⟨parts, hparts, hflat⟩ := ok_of_bind h
  cases hflat
  obtain ⟨part, hpart, hitem⟩ := List.mem_flatten.mp hitem
  obtain ⟨m, hm, hmade⟩ := exists_of_mem_mapM _ hparts hpart
  exact ⟨m, hm, part, hmade, hitem⟩

/-! ## Names of classes -/

/-- The key and the name of a class that is an item. -/
def SurfaceItem.named? : SurfaceItem → Option (DeclKey × String)
  | .ofClass scope decl name => some ((scope, decl.name), name)
  | _ => none

/-- The first item of a class is the one that names it. -/
theorem find?_classNames (items : List SurfaceItem) (key : DeclKey) :
    (classNames items).find? (fun p => p.1 == key) =
      (items.filterMap SurfaceItem.named?).find? (fun p => p.1 == key) := by
  -- The names are put together from left to right, so the induction adds an item at the end.
  induction items using List.reverseRecOn with
  | nil => rfl
  | append_singleton items item ih =>
      rw [List.filterMap_append, List.find?_append, ← ih, classNames, List.foldl_append]
      cases item with
      | ofFunction | ofVariable => exact Option.or_none.symm
      | ofClass scope decl name =>
          show (if (classNames items).any fun p => p.1 == (scope, decl.name) then classNames items
            else classNames items ++ [((scope, decl.name), name)]).find? _ = _
          split
          next hany =>
            obtain ⟨p, hp, hkey⟩ := List.any_eq_true.mp hany
            cases hfind : (classNames items).find? fun p => p.1 == key with
            | some q => rfl
            | none =>
                -- The class is named by now, so the key is that of another one.
                have hne : ¬ ((scope, decl.name) == key) = true := fun heq =>
                  List.find?_eq_none.mp hfind p hp (beq_iff_eq.mp hkey ▸ heq)
                simp only [SurfaceItem.named?, List.filterMap_cons, List.filterMap_nil,
                  List.find?_cons, hne, Option.none_or]
                rfl
          next => rw [List.find?_append]; rfl

/-- An item is the class, or at least has its scope and its name. -/
def Exported (items : List SurfaceItem) (c : ClassRef) : Prop :=
  ∃ decl name, .ofClass c.scope decl name ∈ items ∧ decl.name = c.decl.name

theorem className_eq (w : World) (c : ClassRef) : w.className c =
    (w.classNames.find? fun p => p.1 == (c.scope, c.decl.name)).elim c.decl.name Prod.snd := by
  rw [World.className]
  cases w.classNames.find? fun p => p.1 == (c.scope, c.decl.name) with
  | none => rfl
  | some p => rfl

/-- A class has the name of an item, or else its own name. -/
theorem className_spec (ss : List Statement) (items : List SurfaceItem) (c : ClassRef) :
    (¬ Exported items c ∧ (worldOf ss items).className c = c.decl.name) ∨
      ∃ decl, .ofClass c.scope decl ((worldOf ss items).className c) ∈ items ∧
        decl.name = c.decl.name := by
  have hname : (worldOf ss items).className c =
      ((items.filterMap SurfaceItem.named?).find? fun p => p.1 == (c.scope, c.decl.name)).elim
        c.decl.name Prod.snd := by
    rw [← find?_classNames]
    exact className_eq _ c
  cases hfind : (items.filterMap SurfaceItem.named?).find?
      fun p => p.1 == (c.scope, c.decl.name) with
  | none =>
      rw [hfind] at hname
      refine Or.inl ⟨?_, hname⟩
      rintro ⟨decl, name, hmem, hdecl⟩
      refine List.find?_eq_none.mp hfind ((c.scope, decl.name), name)
        (List.mem_filterMap.mpr ⟨_, hmem, rfl⟩) ?_
      rw [hdecl]
      exact BEq.rfl
  | some p =>
      rw [hfind] at hname
      obtain ⟨item, hitem, hp⟩ := List.mem_filterMap.mp (List.mem_of_find?_eq_some hfind)
      have hkey := List.find?_some hfind
      rw [beq_iff_eq] at hkey
      cases item with
      | ofFunction | ofVariable => cases hp
      | ofClass scope decl name =>
          cases hp
          obtain ⟨rfl, hdecl⟩ := Prod.mk.inj hkey
          rw [hname]
          exact Or.inr ⟨decl, hitem, hdecl⟩

/-- The class has its name from the surface of a module. -/
def NamedIn (ss : List Statement) (items : List SurfaceItem) (m : Nat) (c : ClassRef) : Prop :=
  ∃ part decl, moduleSurface (Scopes.ofStatements ss) ((Scopes.ofStatements ss).all.length + 1) m =
    .ok part ∧ .ofClass c.scope decl ((worldOf ss items).className c) ∈ part ∧
    decl.name = c.decl.name

/-- The class has its name from exports that lead to it. -/
def NamedBy (ss : List Statement) (items : List SurfaceItem) (m : Nat) (es : List ExportName)
    (c : ClassRef) : Prop :=
  ∃ v decl, (Scopes.ofStatements ss).Route m es v ∧ v.scope = c.scope ∧ v.ofClass = some decl ∧
    decl.name = c.decl.name ∧ (worldOf ss items).className c = pathName es

/-- The surface of a module is the value of a name. -/
def Scopes.Assigns (s : Scopes) (m : Nat) : Prop :=
  ((s.get? m).bind Scope.assignment).isSome

theorem NamedIn.exists_route {ss : List Statement} {items : List SurfaceItem} {m : Nat}
    {c : ClassRef} (h : NamedIn ss items m c) (hm : ¬ (Scopes.ofStatements ss).Assigns m) :
    ∃ es, NamedBy ss items m es c := by
  obtain ⟨part, decl, hpart, hmem, hdecl⟩ := h
  unfold moduleSurface at hpart
  split at hpart
  next path hpath =>
    refine absurd ?_ hm
    rw [Scopes.Assigns, hpath]
    rfl
  · obtain ⟨es, v, hroute, hscope, hclass, hname⟩ :=
      route_of_mem_scopeSurface _ m "" part hpart _ _ _ hmem
    exact ⟨es, v, decl, hroute, hscope, hclass, hdecl, by simpa using hname⟩

/-- **Two classes share a name only if one of them is not exported, and has its bare name then, or
if they are not both named by plain exports of one module.** -/
theorem cases_of_className_eq {ss : List Statement} {items : List SurfaceItem}
    (hitems : IsSurface ss items) {c c' : ClassRef}
    (hkey : (c.scope, c.decl.name) ≠ (c'.scope, c'.decl.name))
    (heq : (worldOf ss items).className c = (worldOf ss items).className c') :
    (¬ Exported items c ∧ (worldOf ss items).className c = c.decl.name) ∨
      (¬ Exported items c' ∧ (worldOf ss items).className c' = c'.decl.name) ∨
      ∃ m ∈ (Scopes.ofStatements ss).moduleIds, ∃ m' ∈ (Scopes.ofStatements ss).moduleIds,
        NamedIn ss items m c ∧ NamedIn ss items m' c' ∧
          (m ≠ m' ∨ (Scopes.ofStatements ss).Assigns m ∨
            ∃ es es', NamedBy ss items m es c ∧ NamedBy ss items m' es' c' ∧
              ∃ e ∈ es ++ es', ¬ e.Plain) := by
  rcases className_spec ss items c with hbare | ⟨decl, hmem, hdecl⟩
  · exact Or.inl hbare
  rcases className_spec ss items c' with hbare | ⟨decl', hmem', hdecl'⟩
  · exact Or.inr (Or.inl hbare)
  obtain ⟨m, hm, part, hpart, hmem⟩ := exists_module_of_mem hitems hmem
  obtain ⟨m', hm', part', hpart', hmem'⟩ := exists_module_of_mem hitems hmem'
  have hin : NamedIn ss items m c := ⟨part, decl, hpart, hmem, hdecl⟩
  have hin' : NamedIn ss items m' c' := ⟨part', decl', hpart', hmem', hdecl'⟩
  refine Or.inr (Or.inr ⟨m, hm, m', hm', hin, hin', ?_⟩)
  by_cases hmodules : m = m'
  · subst hmodules
    by_cases hassigns : (Scopes.ofStatements ss).Assigns m
    · exact Or.inr (Or.inl hassigns)
    obtain ⟨es, hes⟩ := hin.exists_route hassigns
    obtain ⟨es', hes'⟩ := hin'.exists_route hassigns
    refine Or.inr (Or.inr ⟨es, es', hes, hes', ?_⟩)
    by_contra hplain
    have hplain : ∀ e ∈ es ++ es', e.Plain := fun e he => not_not.mp fun h => hplain ⟨e, he, h⟩
    obtain ⟨v, decl, hroute, hscope, hclass, hdecl, hname⟩ := hes
    obtain ⟨v', decl', hroute', hscope', hclass', hdecl', hname'⟩ := hes'
    obtain rfl := hroute.eq_of_pathName_eq (Scopes.exportOnce_ofStatements ss)
      (fun e he => hplain e (List.mem_append_left _ he)) hroute'
      (fun e he => hplain e (List.mem_append_right _ he)) (hname.symm.trans (heq.trans hname'))
    cases hclass.symm.trans hclass'
    exact hkey (by rw [← hscope, ← hscope', ← hdecl, ← hdecl'])
  · exact Or.inl hmodules

/-! ## Classes that are not exported -/

/-- Two namespaces with a class of one name each, which they do not export but give away. -/
def namesakesText : String :=
  "declare namespace X \x7b class Foo \x7b a(): void \x7d export function f(): Foo \x7d " ++
    "declare namespace Y \x7b class Foo \x7b b(): void \x7d export function g(): Foo \x7d " ++
    "export \x7b X, Y \x7d"

/-- The classes that the signatures of items refer to. -/
def itemRefs (w : World) (items : List SurfaceItem) : List ClassRef :=
  items.flatMap fun item => (itemEntries w (convertFully w) item).elim [] Prod.snd

theorem reached_of_mem_itemRefs {w : World} {items : List SurfaceItem} {c : ClassRef}
    (h : c ∈ itemRefs w items) : Reached w (convertFully w) items c := by
  obtain ⟨item, hitem, hc⟩ := List.mem_flatMap.mp h
  cases hes : itemEntries w (convertFully w) item with
  | none =>
      rw [hes] at hc
      cases hc
  | some p =>
      rw [hes] at hc
      exact .ofItem hitem ⟨p.1, p.2, hes, hc⟩

/-- Both classes are reached, and there is one name for them. -/
theorem exists_namesakes : ∃ ss items s c c', parse namesakesText = .ok ss ∧ IsSurface ss items ∧
    deriveStatements ss = .ok s ∧ ReachedIn ss items c ∧ ReachedIn ss items c' ∧
    (c.scope, c.decl.name) ≠ (c'.scope, c'.decl.name) ∧
    (worldOf ss items).className c = (worldOf ss items).className c' := by
  have hcheck : (parse namesakesText).toOption.any (fun ss =>
      (surface (Scopes.ofStatements ss) ((Scopes.ofStatements ss).all.length + 1)).toOption.any
        (fun items => (itemRefs (worldOf ss items) items).any fun c =>
          (itemRefs (worldOf ss items) items).any fun c' => c.scope != c'.scope &&
            (worldOf ss items).className c == (worldOf ss items).className c') &&
      (deriveStatements ss).toOption.any fun _ => true) = true := by
    decide +kernel
  obtain ⟨ss, hss, hcheck⟩ := exists_ok_of_any hcheck
  obtain ⟨hsurface, hderive⟩ := Bool.and_eq_true_iff.mp hcheck
  obtain ⟨items, hitems, hcheck⟩ := exists_ok_of_any hsurface
  obtain ⟨s, hs, -⟩ := exists_ok_of_any hderive
  obtain ⟨c, hc, hcheck⟩ := List.any_eq_true.mp hcheck
  obtain ⟨c', hc', hcheck⟩ := List.any_eq_true.mp hcheck
  obtain ⟨hscope, hname⟩ := Bool.and_eq_true_iff.mp hcheck
  exact ⟨ss, items, s, c, c', hss, hitems, hs, reached_of_mem_itemRefs hc,
    reached_of_mem_itemRefs hc', fun h => bne_iff_ne.mp hscope (Prod.mk.inj h).1,
    beq_iff_eq.mp hname⟩

/-- The bare name of a class that is not exported may be that of another one. -/
theorem unexported_share_name : ¬ ∀ text ss items s, parse text = .ok ss → IsSurface ss items →
    deriveStatements ss = .ok s → ∀ c c', ReachedIn ss items c → ReachedIn ss items c' →
      (c.scope, c.decl.name) ≠ (c'.scope, c'.decl.name) →
        (worldOf ss items).className c ≠ (worldOf ss items).className c' := by
  intro h
  obtain ⟨ss, items, s, c, c', hss, hitems, hs, hc, hc', hkey, heq⟩ := exists_namesakes
  exact h namesakesText ss items s hss hitems hs c c' hc hc' hkey heq

theorem cases_of_namesakes : ∃ ss items c c', parse namesakesText = .ok ss ∧ IsSurface ss items ∧
    (c.scope, c.decl.name) ≠ (c'.scope, c'.decl.name) ∧
    (worldOf ss items).className c = (worldOf ss items).className c' ∧
    ((¬ Exported items c ∧ (worldOf ss items).className c = c.decl.name) ∨
      (¬ Exported items c' ∧ (worldOf ss items).className c' = c'.decl.name) ∨
      ∃ m ∈ (Scopes.ofStatements ss).moduleIds, ∃ m' ∈ (Scopes.ofStatements ss).moduleIds,
        NamedIn ss items m c ∧ NamedIn ss items m' c' ∧
          (m ≠ m' ∨ (Scopes.ofStatements ss).Assigns m ∨
            ∃ es es', NamedBy ss items m es c ∧ NamedBy ss items m' es' c' ∧
              ∃ e ∈ es ++ es', ¬ e.Plain)) := by
  obtain ⟨ss, items, s, c, c', hss, hitems, -, -, -, hkey, heq⟩ := exists_namesakes
  exact ⟨ss, items, c, c', hss, hitems, hkey, heq, cases_of_className_eq hitems hkey heq⟩

end ApiSurface.Declaration
