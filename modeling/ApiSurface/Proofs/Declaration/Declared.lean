/-
# `ApiSurface.Proofs.Declaration.Declared` — looking a name up leads to a declaration

Names are looked up from the inside out and through namespaces.  Whatever the path, an answer is one
that some scope gives for some name of its own; in particular a class that a name stands for is
declared in the scope that comes with it (`Scopes.Declares`).  So are the classes that the surface
of a text leads to (`itemsDeclared_surface`).
-/
import ApiSurface.Declaration.Derivation
import ApiSurface.Proofs.Lookup

namespace ApiSurface.Declaration

/-- The class is declared in its scope. -/
def Scopes.Declares (s : Scopes) (c : ClassRef) : Prop :=
  ∃ sc name, s.get? c.scope = some sc ∧ Table.find? sc.classes name = some c.decl

theorem Scope.valueNamed?_spec {sc : Scope} {id : Nat} {n : String} {v : ValueSymbol}
    (h : sc.valueNamed? id n = some v) :
    v.scope = id ∧ v.ofClass = Table.find? sc.classes n ∧
      v.variableType = Table.find? sc.variableTypes n ∧
      v.ofNamespace = Table.find? sc.namespaces n := by
  unfold Scope.valueNamed? at h
  simp only at h
  split at h
  · cases h
  · cases h
    exact ⟨rfl, rfl, rfl, rfl⟩

namespace Scopes

variable {s : Scopes}

theorem outward_spec {α : Type} {f : Nat → Scope → Option α} {a : α} {id : Nat}
    (h : s.outward f id = some a) : ∃ id' sc, s.get? id' = some sc ∧ f id' sc = some a := by
  induction id using Nat.strongRecOn with
  | ind id ih =>
      rw [outward] at h
      split at h
      · cases h
      next sc hsc =>
        split at h
        next a' ha =>
          cases h
          exact ⟨id, sc, hsc, ha⟩
        · split at h
          next p _ =>
            split at h
            next hlt => exact ih p hlt h
            · cases h
          · cases h

theorem lookup_spec {α : Type} {f : Nat → Scope → String → Option α} {a : α} {start : Nat}
    {parts : List String} (h : s.lookup start f parts = some a) :
    ∃ id sc name, parts.head? = some name ∧ s.get? id = some sc ∧ f id sc name = some a := by
  unfold lookup at h
  split at h
  · cases h
  next last =>
    obtain ⟨id, sc, hsc, hf⟩ := outward_spec h
    exact ⟨id, sc, last, rfl, hsc, hf⟩
  next last _ _ =>
    split at h
    next id _ =>
      obtain ⟨sc, hsc, hf⟩ := Option.bind_eq_some_iff.mp h
      exact ⟨id, sc, last, rfl, hsc, hf⟩
    · cases h

theorem typeOfParts?_spec {start : Nat} {parts : List String} {t : TypeSymbol}
    (h : s.typeOfParts? start parts = some t) :
    (∃ value, t = .enumMember value) ∨
      ∃ id sc name, s.get? id = some sc ∧ sc.typeNamed? id name = some t := by
  cases parts with
  | nil =>
      rw [typeOfParts?] at h
      cases h
  | cons last owner =>
      rw [typeOfParts?] at h
      split at h
      · obtain ⟨m, -, rfl⟩ := Option.map_eq_some_iff.mp h
        exact Or.inl ⟨m.2, rfl⟩
      · obtain ⟨id, sc, name, -, hsc, ht⟩ := lookup_spec h
        exact Or.inr ⟨id, sc, name, hsc, ht⟩

/-- What a scope alone says of a name. -/
theorem declares_of_typeNamed? {sc : Scope} {id id' : Nat} {name : String} {decl : ClassDecl}
    (hsc : s.get? id = some sc) (h : sc.typeNamed? id name = some (.ofClass id' decl)) :
    s.Declares ⟨id', decl⟩ := by
  rw [Scope.typeNamed?] at h
  split at h
  next c hc =>
    cases h
    exact ⟨sc, name, hsc, hc⟩
  · split at h
    · cases h
    · split at h
      · cases h
      · obtain ⟨e, -, he⟩ := Option.map_eq_some_iff.mp h
        cases he

/-- A class that a name stands for as a type is declared. -/
theorem typeNamed?_declares {start scope : Nat} {path : List String} {decl : ClassDecl}
    (h : s.typeNamed? start path = some (.ofClass scope decl)) : s.Declares ⟨scope, decl⟩ := by
  rcases typeOfParts?_spec h with ⟨value, hvalue⟩ | ⟨id, sc, name, hsc, ht⟩
  · cases hvalue
  · exact declares_of_typeNamed? hsc ht

/-- A class that a name stands for as a value is declared. -/
theorem valueNamed?_declares {start : Nat} {path : List String} {v : ValueSymbol}
    {decl : ClassDecl} (h : s.valueNamed? start path = some v) (hv : v.ofClass = some decl) :
    s.Declares ⟨v.scope, decl⟩ := by
  obtain ⟨id, sc, name, -, hsc, hf⟩ := lookup_spec h
  obtain ⟨rfl, hclass, -⟩ := Scope.valueNamed?_spec hf
  exact ⟨sc, name, hsc, hclass ▸ hv⟩

end Scopes

/-! ## The surface -/

/-- The classes of the items are declared. -/
def ItemsDeclared (s : Scopes) (items : List SurfaceItem) : Prop :=
  ∀ scope decl name, .ofClass scope decl name ∈ items → s.Declares ⟨scope, decl⟩

theorem ItemsDeclared.append {s : Scopes} {items items' : List SurfaceItem}
    (h : ItemsDeclared s items) (h' : ItemsDeclared s items') : ItemsDeclared s (items ++ items') :=
  fun scope decl name hmem =>
    (List.mem_append.mp hmem).elim (h scope decl name) (h' scope decl name)

theorem itemsDeclared_cons {s : Scopes} {item : SurfaceItem} {items : List SurfaceItem} :
    ItemsDeclared s (item :: items) ↔ ItemsDeclared s [item] ∧ ItemsDeclared s items := by
  constructor
  · intro h
    exact ⟨fun scope decl name hmem =>
      h scope decl name (List.mem_singleton.mp hmem ▸ List.mem_cons_self),
      fun scope decl name hmem => h scope decl name (List.mem_cons_of_mem _ hmem)⟩
  · intro h
    exact h.1.append h.2

theorem itemsDeclared_nil (s : Scopes) : ItemsDeclared s [] :=
  fun _ _ _ h => nomatch h

theorem mem_itemOf {v : ValueSymbol} {name memberPrefix : String} {scope : Nat} {decl : ClassDecl}
    {n : String} (h : .ofClass scope decl n ∈ itemOf v name memberPrefix) :
    v.scope = scope ∧ v.ofClass = some decl ∧ n = name := by
  unfold itemOf at h
  split at h
  next c hc =>
    cases List.mem_singleton.mp h
    exact ⟨rfl, hc, rfl⟩
  · split at h
    · cases List.mem_singleton.mp h
    · split at h
      · cases List.mem_singleton.mp h
      · cases h

theorem itemsDeclared_itemOf {s : Scopes} {id : Nat} {path : List String} {v : ValueSymbol}
    (hv : s.valueNamed? id path = some v) (name memberPrefix : String) :
    ItemsDeclared s (itemOf v name memberPrefix) := by
  intro scope decl name' hmem
  obtain ⟨rfl, hclass, -⟩ := mem_itemOf hmem
  exact Scopes.valueNamed?_declares hv hclass

theorem ok_of_bind {ε α β : Type} {x : Except ε α} {f : α → Except ε β} {b : β}
    (h : (x >>= f) = .ok b) : ∃ a, x = .ok a ∧ f a = .ok b := by
  cases x with
  | error e => cases h
  | ok a => exact ⟨a, rfl, h⟩

theorem foldlM_induction {ε α β : Type} {f : β → α → Except ε β} {P : β → Prop}
    {l : List α} (hf : ∀ b, ∀ a ∈ l, ∀ b', f b a = .ok b' → P b → P b') :
    ∀ b b', l.foldlM f b = .ok b' → P b → P b' := by
  induction l with
  | nil =>
      intro b b' h hb
      cases h
      exact hb
  | cons a l ih =>
      intro b b' h hb
      rw [List.foldlM_cons] at h
      obtain ⟨b₁, hb₁, hrest⟩ := ok_of_bind h
      exact ih (fun b a ha => hf b a (List.mem_cons_of_mem _ ha)) b₁ b' hrest
        (hf b a List.mem_cons_self b₁ hb₁ hb)

theorem exists_of_mem_mapM {ε α β : Type} {f : α → Except ε β} {b : β} (l : List α) :
    ∀ {bs}, l.mapM f = .ok bs → b ∈ bs → ∃ a ∈ l, f a = .ok b := by
  induction l with
  | nil =>
      intro bs h hb
      cases h
      cases hb
  | cons a l ih =>
      intro bs h hb
      rw [List.mapM_cons] at h
      obtain ⟨first, hfirst, h⟩ := ok_of_bind h
      obtain ⟨others, hothers, h⟩ := ok_of_bind h
      cases h
      rcases List.mem_cons.mp hb with rfl | hb
      · exact ⟨a, List.mem_cons_self, hfirst⟩
      · obtain ⟨a', ha', hb⟩ := ih hothers hb
        exact ⟨a', List.mem_cons_of_mem _ ha', hb⟩

theorem itemsDeclared_scopeSurface {s : Scopes} (fuel : Nat) :
    ∀ id start items, scopeSurface s fuel id start = .ok items → ItemsDeclared s items := by
  induction fuel with
  | zero =>
      intro _ _ _ h
      cases h
  | succ fuel ih =>
      intro id start items h
      rw [scopeSurface] at h
      refine foldlM_induction (fun before e _ after hstep hbefore => ?_) [] items h
        (itemsDeclared_nil s)
      split at hstep
      · cases hstep
        exact hbefore
      next v hv =>
        have hitems := hbefore.append
          (itemsDeclared_itemOf hv (start ++ e.surfaceName) (start ++ e.surfaceName ++ "."))
        simp only at hstep
        split at hstep
        · obtain ⟨inner, hinner, hafter⟩ := ok_of_bind hstep
          cases hafter
          exact hitems.append (ih _ _ _ hinner)
        · cases hstep
          exact hitems.append (itemsDeclared_nil s)

theorem itemsDeclared_moduleSurface {s : Scopes} {fuel id : Nat} {items : List SurfaceItem}
    (h : moduleSurface s fuel id = .ok items) : ItemsDeclared s items := by
  unfold moduleSurface at h
  split at h
  next path _ =>
    unfold assignedSurface at h
    split at h
    · cases h
    next v hv =>
      have hitems := itemsDeclared_itemOf hv (path.getLast?.getD "") ""
      simp only at h
      split at h
      · obtain ⟨inner, hinner, hafter⟩ := ok_of_bind h
        cases hafter
        exact hitems.append (itemsDeclared_scopeSurface _ _ _ _ hinner)
      · cases h
        exact hitems.append (itemsDeclared_nil s)
  · exact itemsDeclared_scopeSurface _ _ _ _ h

/-- The classes that a surface leads to are declared. -/
theorem itemsDeclared_surface {s : Scopes} {fuel : Nat} {items : List SurfaceItem}
    (h : surface s fuel = .ok items) : ItemsDeclared s items := by
  obtain ⟨parts, hparts, hflat⟩ := ok_of_bind h
  cases hflat
  intro scope decl name hmem
  obtain ⟨part, hpart, hitem⟩ := List.mem_flatten.mp hmem
  obtain ⟨m, -, hmade⟩ := exists_of_mem_mapM _ hparts hpart
  exact itemsDeclared_moduleSurface hmade scope decl name hitem

end ApiSurface.Declaration
