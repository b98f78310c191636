/-
# `ApiSurface.Proofs.Declaration.Surfaces` — which surfaces come to an end

A scope exports the namespaces that its exported names stand for, and a namespace may export one
that it stands in, or itself.  The surface of a scope comes to an end exactly when its exports do
not lead in a circle (`scopeSurface_eq_endless_iff`).  The modules of a text are gone through in
order, and the first one that has no surface decides the error (`surface_eq_endless_iff`).
-/
import ApiSurface.Declaration.Derivation
import ApiSurface.Proofs.Circles
import ApiSurface.Proofs.Declaration.Declared

namespace ApiSurface.Declaration

/-- A name that the scope exports stands for the namespace. -/
def Scopes.ExportsNamespace (s : Scopes) (id ns : Nat) : Prop :=
  ∃ sc e v, s.get? id = some sc ∧ e ∈ sc.exports ∧
    s.valueNamed? id (nameParts e.inner) = some v ∧ v.ofNamespace = some ns

/-- The surface of a scope comes to an end within the bound, under whatever name. -/
def Scopes.SurfaceEnds (s : Scopes) (fuel id : Nat) : Prop :=
  ∀ start, ∃ items, scopeSurface s fuel id start = .ok items

/-! ## Errors on the way -/

theorem exists_ok_bind {ε α β : Type} {x : Except ε α} {f : α → Except ε β}
    (hf : ∀ a, ∃ b, f a = .ok b) : (∃ b, (x >>= f) = .ok b) ↔ ∃ a, x = .ok a := by
  constructor
  · rintro ⟨b, h⟩
    obtain ⟨a, ha, -⟩ := ok_of_bind h
    exact ⟨a, ha⟩
  · rintro ⟨a, rfl⟩
    exact hf a

theorem exists_ok_foldlM {ε α β : Type} {f : β → α → Except ε β} {Q : α → Prop}
    (hf : ∀ b a, (∃ b', f b a = .ok b') ↔ Q a) (l : List α) :
    ∀ b, (∃ b', l.foldlM f b = .ok b') ↔ ∀ a ∈ l, Q a := by
  induction l with
  | nil =>
      intro b
      exact ⟨fun _ => List.forall_mem_nil _, fun _ => ⟨b, rfl⟩⟩
  | cons a l ih =>
      intro b
      rw [List.foldlM_cons, List.forall_mem_cons, ← hf b a]
      constructor
      · rintro ⟨b', h⟩
        obtain ⟨b₁, hb₁, hrest⟩ := ok_of_bind h
        exact ⟨⟨b₁, hb₁⟩, (ih b₁).mp ⟨b', hrest⟩⟩
      · rintro ⟨⟨b₁, hb₁⟩, hl⟩
        obtain ⟨b', hb'⟩ := (ih b₁).mpr hl
        exact ⟨b', by rw [hb₁]; exact hb'⟩

theorem bind_eq_error_iff {ε α β : Type} {x : Except ε α} {f : α → Except ε β} {e : ε} :
    (x >>= f) = .error e ↔ x = .error e ∨ ∃ a, x = .ok a ∧ f a = .error e := by
  cases x with
  | error e' => exact ⟨fun h => Or.inl (by cases h; rfl), fun h => h.elim (fun h => by cases h; rfl)
      nofun⟩
  | ok a => exact ⟨fun h => Or.inr ⟨a, rfl, h⟩, fun h => h.elim nofun
      fun ⟨_, ha, h⟩ => by cases ha; exact h⟩

/-- An error of a list of computations is the one of the first that has no answer. -/
theorem mapM_eq_error_iff {ε α β : Type} {f : α → Except ε β} {e : ε} (l : List α) :
    l.mapM f = .error e ↔ ∃ before a after, l = before ++ a :: after ∧
      (∀ x ∈ before, ∃ y, f x = .ok y) ∧ f a = .error e := by
  induction l with
  | nil =>
      refine ⟨nofun, ?_⟩
      rintro ⟨before, a, after, heq, -⟩
      cases before <;> cases heq
  | cons a l ih =>
      have hpure : ∀ y, (l.mapM f >>= fun ys => pure (y :: ys)) = .error e ↔
          l.mapM f = .error e := fun y =>
        bind_eq_error_iff.trans ⟨fun h => h.elim id nofun, Or.inl⟩
      simp only [List.mapM_cons, bind_eq_error_iff (x := f a), hpure, ih]
      constructor
      · rintro (ha | ⟨y, hy, before, a', after, rfl, hbefore, ha'⟩)
        · exact ⟨[], a, l, rfl, List.forall_mem_nil _, ha⟩
        · exact ⟨a :: before, a', after, rfl, List.forall_mem_cons.mpr ⟨⟨y, hy⟩, hbefore⟩, ha'⟩
      · rintro ⟨before, a', after, heq, hbefore, ha'⟩
        cases before with
        | nil =>
            cases heq
            exact Or.inl ha'
        | cons x before =>
            cases heq
            obtain ⟨⟨y, hy⟩, hbefore⟩ := List.forall_mem_cons.mp hbefore
            exact Or.inr ⟨y, hy, before, a', after, rfl, hbefore, ha'⟩

theorem foldlM_eq_error {ε α β : Type} {f : β → α → Except ε β} {P : ε → Prop}
    (hf : ∀ b a e, f b a = .error e → P e) (l : List α) :
    ∀ b e, l.foldlM f b = .error e → P e := by
  induction l with
  | nil =>
      intro _ _ h
      cases h
  | cons a l ih =>
      intro b e h
      rw [List.foldlM_cons] at h
      rcases bind_eq_error_iff.mp h with h | ⟨b', -, h⟩
      · exact hf b a e h
      · exact ih b' e h

/-! ## Scopes -/

variable {s : Scopes}

theorem surfaceEnds_zero (id : Nat) : ¬ s.SurfaceEnds 0 id := by
  intro h
  obtain ⟨_, hitems⟩ := h ""
  cases hitems

/-- The surface of a scope ends one step after those of the namespaces that it exports, if whether
these end does not depend on the name in front. -/
theorem exists_ok_scopeSurface {fuel : Nat}
    (hsame : ∀ id start, (∃ items, scopeSurface s fuel id start = .ok items) →
      s.SurfaceEnds fuel id)
    (id : Nat) (start : String) : (∃ items, scopeSurface s (fuel + 1) id start = .ok items) ↔
      ∀ ns, s.ExportsNamespace id ns → s.SurfaceEnds fuel ns := by
  rw [scopeSurface, exists_ok_foldlM (Q := fun e => ∀ v,
    s.valueNamed? id (nameParts e.inner) = some v →
      ∀ ns, v.ofNamespace = some ns → s.SurfaceEnds fuel ns)]
  · constructor
    · rintro h ns ⟨sc, e, v, hsc, he, hv, hns⟩
      rw [hsc] at h
      exact h e he v hv ns hns
    · intro h e he v hv ns hns
      cases hsc : s.get? id with
      | none =>
          rw [hsc] at he
          cases he
      | some sc =>
          rw [hsc] at he
          exact h ns ⟨sc, e, v, hsc, he, hv, hns⟩
  · intro items e
    cases hv : s.valueNamed? id (nameParts e.inner) with
    | none =>
        refine ⟨fun _ v h => ?_, fun _ => ⟨items, rfl⟩⟩
        cases h
    | some v =>
        simp only [Option.some.injEq, forall_eq']
        cases hns : v.ofNamespace with
        | none =>
            refine ⟨fun _ ns h => ?_, fun _ => ⟨_, rfl⟩⟩
            cases h
        | some ns =>
            simp only [Option.some.injEq, forall_eq']
            exact (exists_ok_bind fun _ => ⟨_, rfl⟩).trans ⟨hsame ns _, fun h => h _⟩

theorem surfaceEnds_of_exists (fuel : Nat) : ∀ id start,
    (∃ items, scopeSurface s fuel id start = .ok items) → s.SurfaceEnds fuel id := by
  induction fuel with
  | zero =>
      rintro _ _ ⟨_, h⟩
      cases h
  | succ fuel ih =>
      intro id start h start'
      exact (exists_ok_scopeSurface ih id start').mpr ((exists_ok_scopeSurface ih id start).mp h)

theorem surfaceEnds_succ_iff {fuel id : Nat} :
    s.SurfaceEnds (fuel + 1) id ↔ ∀ ns, s.ExportsNamespace id ns → s.SurfaceEnds fuel ns :=
  ⟨fun h => (exists_ok_scopeSurface (surfaceEnds_of_exists fuel) id "").mp (h ""),
    fun h start => (exists_ok_scopeSurface (surfaceEnds_of_exists fuel) id start).mpr h⟩

theorem exists_exports_of_not_surfaceEnds {fuel id : Nat} (h : ¬ s.SurfaceEnds (fuel + 1) id) :
    ∃ ns, s.ExportsNamespace id ns ∧ ¬ s.SurfaceEnds fuel ns := by
  rw [surfaceEnds_succ_iff] at h
  obtain ⟨ns, hns⟩ := not_forall.mp h
  exact ⟨ns, Classical.not_imp.mp hns⟩

/-- With a bound above the number of scopes, the surface of a scope comes to an end exactly when its
exports do not lead in a circle. -/
theorem surfaceEnds_iff (id : Nat) :
    s.SurfaceEnds (s.all.length + 1) id ↔ ¬ Circling s.ExportsNamespace id := by
  constructor
  · intro h hcircle
    refine hcircle.not_ends (E := s.SurfaceEnds) surfaceEnds_zero ?_ _ id h
    intro fuel a b hexports hb h
    exact hb (surfaceEnds_succ_iff.mp h b hexports)
  · intro hno
    by_contra h
    -- A scope whose surface does not end exports something, so it is one of the scopes.
    have hpool : ∀ fuel a, True → ¬ s.SurfaceEnds (fuel + 1) a → a ∈ List.range s.all.length := by
      intro fuel a _ ha
      obtain ⟨ns, ⟨sc, _, _, hsc, -⟩, -⟩ := exists_exports_of_not_surfaceEnds ha
      exact List.mem_range.mpr (List.getElem?_eq_some_iff.mp hsc).1
    refine hno (circling_of_not_ends (E := fun fuel => s.SurfaceEnds (fuel + 1))
      (I := fun _ => True) (f := fun id => id) ?_ hpool (fun _ _ _ heq => heq)
      (Nat.le_of_eq List.length_range) trivial h)
    intro fuel a _ ha
    obtain ⟨ns, hexports, hns⟩ := exists_exports_of_not_surfaceEnds ha
    exact ⟨ns, hexports, trivial, hns⟩

/-- The only error of a scope is that its surface has no end. -/
theorem scopeSurface_eq_error (fuel : Nat) : ∀ id start e,
    scopeSurface s fuel id start = .error e → e = .endless := by
  induction fuel with
  | zero =>
      rintro _ _ _ ⟨rfl⟩
      rfl
  | succ fuel ih =>
      intro id start e h
      rw [scopeSurface] at h
      refine foldlM_eq_error (P := (· = .endless)) (fun items x e hx => ?_) _ _ e h
      split at hx
      · cases hx
      · simp only at hx
        split at hx
        · rcases bind_eq_error_iff.mp hx with hx | ⟨_, -, hx⟩
          · exact ih _ _ _ hx
          · cases hx
        · cases hx

theorem scopeSurface_eq_endless_iff (id : Nat) (start : String) :
    scopeSurface s (s.all.length + 1) id start = .error .endless ↔
      Circling s.ExportsNamespace id := by
  rw [← not_iff_not, ← surfaceEnds_iff]
  constructor
  · intro h
    cases hx : scopeSurface s (s.all.length + 1) id start with
    | error e => exact absurd (scopeSurface_eq_error _ id start e hx ▸ hx) h
    | ok items => exact surfaceEnds_of_exists _ id start ⟨items, hx⟩
  · intro h hx
    obtain ⟨items, hitems⟩ := h start
    cases hx.symm.trans hitems

/-! ## Modules -/

/-- The scope that the surface of a module begins with, if there is one. -/
def Scopes.surfaceRoot? (s : Scopes) (id : Nat) : Option Nat :=
  match (s.get? id).bind Scope.assignment with
  | some path => (s.valueNamed? id path).bind ValueSymbol.ofNamespace
  | none => some id

/-- The value that a module assigns to its surface is not declared. -/
def Scopes.LacksAssigned (s : Scopes) (id : Nat) : Prop :=
  ∃ path, (s.get? id).bind Scope.assignment = some path ∧ s.valueNamed? id path = none

/-- The surface of a module leads in a circle. -/
def Scopes.ModuleCircles (s : Scopes) (id : Nat) : Prop :=
  ∃ root, s.surfaceRoot? id = some root ∧ Circling s.ExportsNamespace root

/-- A module lacks what it assigns, or is without namespaces, or has the errors of its root. -/
theorem moduleSurface_spec (fuel id : Nat) :
    (s.LacksAssigned id ∧ s.surfaceRoot? id = none ∧
        ∃ path, moduleSurface s fuel id = .error (.noSuchDeclaration path)) ∨
      ¬ s.LacksAssigned id ∧
        (s.surfaceRoot? id = none ∧ (∃ items, moduleSurface s fuel id = .ok items) ∨
          ∃ root start, s.surfaceRoot? id = some root ∧ ∀ e,
            moduleSurface s fuel id = .error e ↔ scopeSurface s fuel root start = .error e) := by
  unfold moduleSurface Scopes.LacksAssigned Scopes.surfaceRoot?
  cases (s.get? id).bind Scope.assignment with
  | none =>
      refine Or.inr ⟨?_, Or.inr ⟨id, "", rfl, fun _ => Iff.rfl⟩⟩
      rintro ⟨_, h, _⟩
      cases h
  | some path =>
      simp only [assignedSurface, Option.some.injEq, exists_eq_left']
      cases s.valueNamed? id path with
      | none => exact Or.inl ⟨rfl, rfl, path, rfl⟩
      | some v =>
          refine Or.inr ⟨Option.some_ne_none v, ?_⟩
          simp only [Option.bind_some]
          cases v.ofNamespace with
          | none => exact Or.inl ⟨rfl, _, rfl⟩
          | some ns =>
              refine Or.inr ⟨ns, "", rfl, fun e => bind_eq_error_iff.trans ⟨?_, Or.inl⟩⟩
              rintro (h | ⟨_, -, h⟩)
              · exact h
              · cases h

theorem moduleSurface_eq_endless_iff (id : Nat) :
    moduleSurface s (s.all.length + 1) id = .error .endless ↔ s.ModuleCircles id := by
  rcases moduleSurface_spec (s := s) (s.all.length + 1) id with
    ⟨-, hroot, path, herror⟩ | ⟨-, ⟨hroot, items, hitems⟩ | ⟨root, start, hroot, herror⟩⟩
  · rw [herror, Scopes.ModuleCircles, hroot]
    exact ⟨nofun, fun ⟨_, h, _⟩ => nomatch h⟩
  · rw [hitems, Scopes.ModuleCircles, hroot]
    exact ⟨nofun, fun ⟨_, h, _⟩ => nomatch h⟩
  · rw [herror, scopeSurface_eq_endless_iff, Scopes.ModuleCircles, hroot]
    simp only [Option.some.injEq, exists_eq_left']

theorem exists_ok_moduleSurface_iff (id : Nat) :
    (∃ items, moduleSurface s (s.all.length + 1) id = .ok items) ↔
      ¬ s.ModuleCircles id ∧ ¬ s.LacksAssigned id := by
  rw [← moduleSurface_eq_endless_iff]
  rcases moduleSurface_spec (s := s) (s.all.length + 1) id with
    ⟨hlacks, -, _, herror⟩ | ⟨hlacks, ⟨-, items, hitems⟩ | ⟨root, start, -, herror⟩⟩
  · rw [herror]
    exact ⟨nofun, fun h => absurd hlacks h.2⟩
  · rw [hitems]
    exact ⟨fun _ => ⟨nofun, hlacks⟩, fun _ => ⟨items, rfl⟩⟩
  · cases hx : moduleSurface s (s.all.length + 1) id with
    | ok items => exact ⟨fun _ => ⟨nofun, hlacks⟩, fun _ => ⟨items, rfl⟩⟩
    | error e =>
        obtain rfl := scopeSurface_eq_error _ _ _ e ((herror e).mp hx)
        exact ⟨nofun, fun h => absurd rfl h.1⟩

/-- Among modules that lead in a circle there is a first one. -/
theorem exists_first_circle {after : List Nat} {id : Nat} (hid : s.ModuleCircles id)
    (before : List Nat) : (∀ m ∈ before, ¬ s.LacksAssigned m) →
      ∃ before' id' after', before ++ id :: after = before' ++ id' :: after' ∧
        (∀ m ∈ before', ¬ s.ModuleCircles m ∧ ¬ s.LacksAssigned m) ∧ s.ModuleCircles id' := by
  induction before with
  | nil =>
      intro _
      exact ⟨[], id, after, rfl, List.forall_mem_nil _, hid⟩
  | cons m before ih =>
      intro hbefore
      obtain ⟨hm, hbefore⟩ := List.forall_mem_cons.mp hbefore
      by_cases hcircles : s.ModuleCircles m
      · exact ⟨[], m, before ++ id :: after, rfl, List.forall_mem_nil _, hcircles⟩
      · obtain ⟨before', id', after', heq, hall, hid'⟩ := ih hbefore
        exact ⟨m :: before', id', after', congrArg (m :: ·) heq,
          List.forall_mem_cons.mpr ⟨⟨hcircles, hm⟩, hall⟩, hid'⟩

/-- The modules of a text, the text itself first. -/
def Scopes.moduleIds (s : Scopes) : List Nat :=
  0 :: ((s.get? 0).map Scope.modules).getD []

/-- The surface of a text leads in a circle: that of a module does, and no module before it lacks
the value that it assigns, which would be reported first. -/
def Scopes.SurfaceCircles (s : Scopes) : Prop :=
  ∃ before id after, s.moduleIds = before ++ id :: after ∧
    (∀ m ∈ before, ¬ s.LacksAssigned m) ∧ s.ModuleCircles id

/-- **The surface of a text has no end exactly when it leads in a circle.** -/
theorem surface_eq_endless_iff :
    surface s (s.all.length + 1) = .error .endless ↔ s.SurfaceCircles := by
  have hflat : surface s (s.all.length + 1) = .error .endless ↔
      s.moduleIds.mapM (moduleSurface s (s.all.length + 1)) = .error .endless :=
    bind_eq_error_iff.trans ⟨fun h => h.elim id nofun, Or.inl⟩
  rw [hflat, mapM_eq_error_iff]
  simp only [moduleSurface_eq_endless_iff, exists_ok_moduleSurface_iff]
  constructor
  · rintro ⟨before, id, after, heq, hbefore, hid⟩
    exact ⟨before, id, after, heq, fun m hm => (hbefore m hm).2, hid⟩
  · rintro ⟨before, id, after, heq, hbefore, hid⟩
    rw [heq]
    exact exists_first_circle hid before hbefore

end ApiSurface.Declaration
