/-
# `ApiSurface.Proofs.Declaration.Enclosing` — scopes stand inside one another

Scopes refer to each other by number: to the one around them, and to those of the namespaces and
modules inside them.  While the table grows, every number that is written into it is that of a scope
that is there, and of one that stands where the reference says (`Scopes.Nested`).  A scope comes
later than the one around it, so the way outwards ends at the text itself.

Looking a name up reads the table by these numbers.  The rules `Searches`, `Descends`, `LooksUp` and
`LooksUpType` say how that goes step by step: each step has a scope at the number that it reads, and
there are finitely many of them.  In a nested table every name is looked up by the rules, from every
scope (`Nested.looksUpType`, `Nested.looksUp`), and a name of one part has the answer of the nearest
scope around that has one (`Nested.nearest_outward`).
-/
import ApiSurface.Proofs.Declaration.Declared
import Mathlib.Data.List.Nodup
import Mathlib.Logic.Relation

namespace ApiSurface.Declaration

open Relation (ReflTransGen)

/-! ## Exports of a scope -/

/-- No two exports of a scope have one outer name. -/
def Scope.ExportsOnce (sc : Scope) : Prop :=
  (sc.exports.map ExportName.outer).Nodup

theorem exportsOnce_addExport {sc : Scope} (h : sc.ExportsOnce) (e : ExportName) :
    (sc.addExport e).ExportsOnce := by
  unfold Scope.addExport
  split
  · exact h
  next hnew =>
    show ((sc.exports ++ [e]).map ExportName.outer).Nodup
    rw [List.map_append]
    refine List.nodup_append.mpr ⟨h, List.nodup_singleton _, ?_⟩
    rintro a ha b hb rfl
    obtain ⟨x, hx, hxa⟩ := List.mem_map.mp ha
    refine hnew (List.any_eq_true.mpr ⟨x, hx, ?_⟩)
    rw [hxa, List.mem_singleton.mp hb]
    exact BEq.rfl

theorem exportsOnce_declare {sc : Scope} (h : sc.ExportsOnce) (d : Decl) :
    (sc.declare d).ExportsOnce := by
  cases d <;> exact h

/-- The same of all scopes. -/
def Scopes.ExportOnce (s : Scopes) : Prop :=
  ∀ sc ∈ s.all, sc.ExportsOnce

/-! ## References between scopes -/

/-- A scope is that of a namespace or of a module body in this one. -/
def Scope.Contains (sc : Scope) (inner : Nat) : Prop :=
  inner ∈ sc.namespaces.map Prod.snd ∨ inner ∈ sc.modules

namespace Scopes

/-- There is a scope with the number, and it stands directly inside another one. -/
def Inside (s : Scopes) (id outer : Nat) : Prop :=
  ∃ sc, s.get? id = some sc ∧ sc.parent = some outer

/-- The scopes stand inside one another as their references say, all of them inside the text. -/
structure Nested (s : Scopes) : Prop where
  root : ∃ sc, s.get? 0 = some sc ∧ sc.parent = none
  inside : ∀ id, 0 < id → id < s.all.length → ∃ outer < id, s.Inside id outer
  contains : ∀ id sc inner, s.get? id = some sc → sc.Contains inner → s.Inside inner id
  exports : s.ExportOnce

variable {s s' s'' : Scopes} {id : Nat}

theorem Inside.lt_length {inner outer : Nat} (h : s.Inside inner outer) : inner < s.all.length := by
  obtain ⟨sc, hsc, -⟩ := h
  exact (List.getElem?_eq_some_iff.mp hsc).1

theorem exists_get? (hid : id < s.all.length) : ∃ sc, s.get? id = some sc :=
  ⟨_, List.getElem?_eq_getElem hid⟩

theorem Nested.lt_of_namespace (h : s.Nested) {sc : Scope} {n : String} {inner : Nat}
    (hsc : s.get? id = some sc) (hn : Table.find? sc.namespaces n = some inner) :
    inner < s.all.length :=
  (h.contains id sc inner hsc (Or.inl (List.mem_map_of_mem (Table.mem_of_find? hn)))).lt_length

/-! ## The table grows -/

theorem get?_modify (s : Scopes) (id i : Nat) (f : Scope → Scope) :
    (s.modify id f).get? i = (s.get? i).map fun sc => if id = i then f sc else sc :=
  List.getElem?_modify f id s.all i

theorem length_modify (s : Scopes) (id : Nat) (f : Scope → Scope) :
    (s.modify id f).all.length = s.all.length :=
  List.length_modify f s.all id

theorem ext_get? (h : ∀ i, s.get? i = s'.get? i) : s = s' :=
  congrArg Scopes.mk (List.ext_getElem? h)

theorem modify_comm {i j : Nat} (hij : i ≠ j) (s : Scopes) (f g : Scope → Scope) :
    (s.modify i f).modify j g = (s.modify j g).modify i f := by
  refine ext_get? fun k => ?_
  simp only [get?_modify, Option.map_map]
  refine congrArg (Option.map · (s.get? k)) (funext fun sc => ?_)
  by_cases hi : i = k
  · have hj : j ≠ k := fun hj => hij (hi.trans hj.symm)
    simp only [Function.comp_apply, if_pos hi, if_neg hj]
  · simp only [Function.comp_apply, if_neg hi]

theorem modify_modify (s : Scopes) (id : Nat) (f g : Scope → Scope) :
    (s.modify id f).modify id g = s.modify id fun sc => g (f sc) := by
  refine ext_get? fun k => ?_
  simp only [get?_modify, Option.map_map]
  refine congrArg (Option.map · (s.get? k)) (funext fun sc => ?_)
  by_cases hid : id = k
  · simp only [Function.comp_apply, if_pos hid]
  · simp only [Function.comp_apply, if_neg hid]

theorem modify_id (s : Scopes) (id : Nat) : (s.modify id fun sc => sc) = s := by
  refine ext_get? fun k => ?_
  simp only [get?_modify, ite_self, Option.map_id']

theorem inside_modify {f : Scope → Scope} (hparent : ∀ sc, (f sc).parent = sc.parent)
    {inner outer : Nat} (h : s.Inside inner outer) : (s.modify id f).Inside inner outer := by
  obtain ⟨sc, hsc, hsc'⟩ := h
  refine ⟨_, by rw [get?_modify, hsc, Option.map_some], ?_⟩
  split
  · rw [hparent, hsc']
  · exact hsc'

/-- A scope may be changed if it stays where it is and if what it contains from then on stands
inside it. -/
theorem Nested.modify (h : s.Nested) {f : Scope → Scope} (hparent : ∀ sc, (f sc).parent = sc.parent)
    (hcontains : ∀ sc inner, (f sc).Contains inner → sc.Contains inner ∨ s.Inside inner id)
    (hexports : ∀ sc, sc.ExportsOnce → (f sc).ExportsOnce) : (s.modify id f).Nested where
  root := by
    obtain ⟨sc, hsc, hroot⟩ := h.root
    refine ⟨_, by rw [get?_modify, hsc, Option.map_some], ?_⟩
    split
    · rw [hparent, hroot]
    · exact hroot
  inside := by
    intro i hi hlt
    rw [length_modify] at hlt
    obtain ⟨outer, houter, hinside⟩ := h.inside i hi hlt
    exact ⟨outer, houter, inside_modify hparent hinside⟩
  contains := by
    intro i sc inner hsc hinner
    rw [get?_modify] at hsc
    obtain ⟨old, hold, rfl⟩ := Option.map_eq_some_iff.mp hsc
    refine inside_modify hparent ?_
    split at hinner
    next hid =>
      subst hid
      exact (hcontains old inner hinner).elim (h.contains _ old inner hold) fun hinside => hinside
    · exact h.contains i old inner hold hinner
  exports := by
    intro sc hsc
    obtain ⟨i, hi⟩ := List.mem_iff_getElem?.mp hsc
    obtain ⟨old, hold, rfl⟩ := Option.map_eq_some_iff.mp ((get?_modify s id i f).symm.trans hi)
    have hold := h.exports old (List.mem_of_getElem? hold)
    split
    · exact hexports old hold
    · exact hold

theorem get?_addChild (s : Scopes) (outer i : Nat) (hi : i < s.all.length) :
    (s.addChild outer).2.get? i = s.get? i :=
  List.getElem?_append_left hi

theorem get?_addChild_new (s : Scopes) (outer : Nat) :
    (s.addChild outer).2.get? s.all.length = some { parent := some outer } :=
  List.getElem?_concat_length

theorem length_addChild (s : Scopes) (outer : Nat) :
    (s.addChild outer).2.all.length = s.all.length + 1 :=
  List.length_append

theorem inside_addChild {inner outer : Nat} (h : s.Inside inner outer) (id : Nat) :
    (s.addChild id).2.Inside inner outer := by
  obtain ⟨sc, hsc, hparent⟩ := h
  exact ⟨sc, (get?_addChild s id inner (Inside.lt_length ⟨sc, hsc, hparent⟩)).trans hsc, hparent⟩

theorem inside_addChild_new (s : Scopes) (id : Nat) :
    (s.addChild id).2.Inside (s.addChild id).1 id :=
  ⟨_, get?_addChild_new s id, rfl⟩

theorem Nested.addChild (h : s.Nested) (hid : id < s.all.length) : (s.addChild id).2.Nested where
  root := by
    obtain ⟨sc, hsc, hroot⟩ := h.root
    exact ⟨sc, (get?_addChild s id 0 (List.getElem?_eq_some_iff.mp hsc).1).trans hsc, hroot⟩
  inside := by
    intro i hi hlt
    rw [length_addChild] at hlt
    rcases Nat.lt_succ_iff_lt_or_eq.mp hlt with hlt | rfl
    · obtain ⟨outer, houter, hinside⟩ := h.inside i hi hlt
      exact ⟨outer, houter, inside_addChild hinside id⟩
    · exact ⟨id, hid, inside_addChild_new s id⟩
  contains := by
    intro i sc inner hsc hinner
    have hlt : i < s.all.length + 1 :=
      length_addChild s id ▸ (List.getElem?_eq_some_iff.mp hsc).1
    rcases Nat.lt_succ_iff_lt_or_eq.mp hlt with hlt | rfl
    · rw [get?_addChild s id i hlt] at hsc
      exact inside_addChild (h.contains i sc inner hsc hinner) id
    · rw [get?_addChild_new] at hsc
      cases hsc
      rcases hinner with hinner | hinner <;> cases hinner
  exports := by
    intro sc hsc
    rcases List.mem_append.mp hsc with hsc | hsc
    · exact h.exports sc hsc
    · rw [List.mem_singleton.mp hsc]
      exact List.nodup_nil

/-- A later table of scopes, which holds at least as many. -/
structure Later (s s' : Scopes) : Prop where
  nested : s'.Nested
  length : s.all.length ≤ s'.all.length

theorem Later.trans (h : s.Later s') (h' : s'.Later s'') : s.Later s'' :=
  ⟨h'.nested, Nat.le_trans h.length h'.length⟩

/-- A change that leaves the references of a scope alone. -/
theorem Nested.later_modify (h : s.Nested) (id : Nat) {f : Scope → Scope}
    (hrefs : ∀ sc, (f sc).parent = sc.parent ∧ (f sc).namespaces = sc.namespaces ∧
      (f sc).modules = sc.modules)
    (hexports : ∀ sc, sc.ExportsOnce → (f sc).ExportsOnce) : s.Later (s.modify id f) where
  nested := by
    refine h.modify (fun sc => (hrefs sc).1) (fun sc inner hinner => Or.inl ?_) hexports
    unfold Scope.Contains at *
    rwa [(hrefs sc).2.1, (hrefs sc).2.2] at hinner
  length := Nat.le_of_eq (length_modify s id f).symm

theorem Nested.later_declare (h : s.Nested) (id : Nat) (d : Decl) :
    s.Later (s.modify id (·.declare d)) :=
  h.later_modify id (fun sc => by cases d <;> exact ⟨rfl, rfl, rfl⟩)
    fun _ hsc => exportsOnce_declare hsc d

theorem Nested.later_addExport (h : s.Nested) (id : Nat) (inner outer : String) :
    s.Later (s.addExport id inner outer) :=
  h.later_modify id (fun sc => by unfold Scope.addExport; split <;> exact ⟨rfl, rfl, rfl⟩)
    fun _ hsc => exportsOnce_addExport hsc _

/-- Adding a scope and a reference to it from the one that it stands in. -/
theorem Nested.later_addChild (h : s.Nested) (hid : id < s.all.length) {f : Scope → Scope}
    (hparent : ∀ sc, (f sc).parent = sc.parent)
    (hcontains : ∀ sc inner, (f sc).Contains inner → sc.Contains inner ∨ inner = s.all.length)
    (hexports : ∀ sc, sc.ExportsOnce → (f sc).ExportsOnce) :
    s.Later ((s.addChild id).2.modify id f) where
  nested := by
    refine (h.addChild hid).modify hparent (fun sc inner hinner => ?_) hexports
    refine (hcontains sc inner hinner).imp_right ?_
    rintro rfl
    exact inside_addChild_new s id
  length := by
    rw [length_modify, length_addChild]
    exact Nat.le_succ _

/-- The body of a namespace has a scope: the one it had, or a new one. -/
theorem Nested.later_namespaceIn (h : s.Nested) (hid : id < s.all.length) (name : String) :
    s.Later (s.namespaceIn id name).2 ∧
      (s.namespaceIn id name).1 < (s.namespaceIn id name).2.all.length := by
  unfold namespaceIn
  split
  next ns hns =>
    obtain ⟨sc, hsc, hfound⟩ := Option.bind_eq_some_iff.mp hns
    exact ⟨⟨h, Nat.le_refl _⟩, h.lt_of_namespace hsc hfound⟩
  · refine ⟨h.later_addChild hid (fun _ => rfl) (fun sc inner hinner => ?_) fun _ hsc => hsc, ?_⟩
    · rcases hinner with hinner | hinner
      · obtain ⟨p, hp, rfl⟩ := List.mem_map.mp hinner
        rcases Table.mem_insert hp with rfl | hp
        · exact Or.inr rfl
        · exact Or.inl (Or.inl (List.mem_map_of_mem hp))
      · exact Or.inl (Or.inr hinner)
    · show s.all.length < _
      rw [length_modify, length_addChild]
      exact Nat.lt_succ_self _

/-- The body of a module has a new scope. -/
theorem Nested.later_moduleIn (h : s.Nested) (hid : id < s.all.length) :
    s.Later (s.moduleIn id).2 ∧ (s.moduleIn id).1 < (s.moduleIn id).2.all.length := by
  refine ⟨h.later_addChild hid (fun _ => rfl) (fun sc inner hinner => ?_) fun _ hsc => hsc, ?_⟩
  · rcases hinner with hinner | hinner
    · exact Or.inl (Or.inl hinner)
    · rcases List.mem_append.mp hinner with hinner | hinner
      · exact Or.inl (Or.inr hinner)
      · exact Or.inr (List.mem_singleton.mp hinner)
  · show s.all.length < _
    rw [moduleIn, length_modify, length_addChild]
    exact Nat.lt_succ_self _

theorem addDecl_namespace (id : Nat) (name : String) (body : List Statement) (s : Scopes) :
    addDecl id (.namespaceDecl name body) s = addStatements (s.namespaceIn id name).1
      (exportsAll body) body (s.namespaceIn id name).2 := by
  rw [addDecl]

theorem addDecl_module (id : Nat) (path : String) (body : List Statement) (s : Scopes) :
    addDecl id (.moduleDecl path body) s =
      addStatements (s.moduleIn id).1 (exportsAll body) body (s.moduleIn id).2 := by
  rw [addDecl]

mutual

theorem later_addStatements (id : Nat) (all : Bool) : ∀ (ss : List Statement) (s : Scopes),
    s.Nested → id < s.all.length → s.Later (addStatements id all ss s)
  | [], s, h, _ => by
      rw [addStatements]
      exact ⟨h, Nat.le_refl _⟩
  | st :: ss, s, h, hid => by
      have hst := later_addStatement id all st s h hid
      rw [addStatements]
      exact hst.trans
        (later_addStatements id all ss _ hst.nested (Nat.lt_of_lt_of_le hid hst.length))

theorem later_addStatement (id : Nat) (all : Bool) : ∀ (st : Statement) (s : Scopes),
    s.Nested → id < s.all.length → s.Later (addStatement id all st s)
  | .decl d exported, s, h, hid => by
      have hd := later_addDecl id d s h hid
      rw [addStatement]
      split
      · exact hd.trans (hd.nested.later_addExport id _ _)
      · exact hd
  | .exportAssignment name, s, h, _ => by
      rw [addStatement]
      exact h.later_modify id (fun _ => ⟨rfl, rfl, rfl⟩) fun _ hsc => hsc
  | .exportList names none, s, h, _ => by
      rw [addStatement]
      exact List.foldlRecOn (motive := s.Later) _ _ ⟨h, Nat.le_refl _⟩
        fun _ hs n _ => hs.trans (hs.nested.later_addExport id n.inner n.outer)
  | .exportList _ (some _), s, h, _ => by
      rw [addStatement]
      exact ⟨h, Nat.le_refl _⟩
  | .other, s, h, _ => by
      rw [addStatement]
      exact ⟨h, Nat.le_refl _⟩

theorem later_addDecl (id : Nat) : ∀ (d : Decl) (s : Scopes),
    s.Nested → id < s.all.length → s.Later (addDecl id d s)
  | .namespaceDecl name body, s, h, hid => by
      obtain ⟨hns, hlt⟩ := h.later_namespaceIn hid name
      rw [addDecl]
      exact hns.trans (later_addStatements _ _ body _ hns.nested hlt)
  | .moduleDecl path body, s, h, hid => by
      obtain ⟨hm, hlt⟩ := h.later_moduleIn hid
      rw [addDecl]
      exact hm.trans (later_addStatements _ _ body _ hm.nested hlt)
  | .functionDecl name sig, s, h, _ => by
      rw [addDecl]
      exact h.later_declare id _
  | .classDecl c, s, h, _ => by
      rw [addDecl]
      exact h.later_declare id _
  | .interfaceDecl i, s, h, _ => by
      rw [addDecl]
      exact h.later_declare id _
  | .aliasDecl a, s, h, _ => by
      rw [addDecl]
      exact h.later_declare id _
  | .enumDecl e, s, h, _ => by
      rw [addDecl]
      exact h.later_declare id _
  | .variableDecl name type, s, h, _ => by
      rw [addDecl]
      exact h.later_declare id _

end

theorem nested_root : Nested ⟨[.root]⟩ where
  root := ⟨.root, rfl, rfl⟩
  inside := fun id hpos hlt => absurd hlt (Nat.not_lt.mpr hpos)
  contains := by
    intro id sc inner hsc hinner
    obtain rfl := List.mem_singleton.mp (List.mem_of_getElem? hsc)
    rcases hinner with hinner | hinner <;> cases hinner
  exports := fun sc hsc => by
    rw [List.mem_singleton.mp hsc]
    exact List.nodup_nil

theorem nested_ofStatements (ss : List Statement) : (ofStatements ss).Nested :=
  (later_addStatements 0 _ ss _ nested_root (Nat.lt_succ_self 0)).nested

/-- A body that exports a name once keeps to it: a second export of the name is passed over. -/
theorem exportOnce_ofStatements (ss : List Statement) : (ofStatements ss).ExportOnce :=
  (nested_ofStatements ss).exports

/-! ## Looking names up, step by step -/

section

variable {α : Type}

/-- A search outwards: it reads the scope where it is, and goes on to the one around it if there is
no answer. -/
inductive Searches (s : Scopes) (f : Nat → Scope → Option α) : Nat → Option α → Prop
  | found {id : Nat} {sc : Scope} {a : α} (hsc : s.get? id = some sc) (ha : f id sc = some a) :
      Searches s f id (some a)
  | outwards {id outer : Nat} {sc : Scope} {r : Option α} (hsc : s.get? id = some sc)
      (hf : f id sc = none) (hparent : sc.parent = some outer) (next : Searches s f outer r) :
      Searches s f id r
  | nowhere {id : Nat} {sc : Scope} (hsc : s.get? id = some sc) (hf : f id sc = none)
      (hparent : sc.parent = none) : Searches s f id none

/-- The way down through namespaces: each is read off the scope before it. -/
inductive Descends (s : Scopes) : Nat → List String → Option Nat → Prop
  | here (id : Nat) : Descends s id [] (some id)
  | into {id inner : Nat} {sc : Scope} {n : String} {ns : List String} {r : Option Nat}
      (hsc : s.get? id = some sc) (hn : Table.find? sc.namespaces n = some inner)
      (next : Descends s inner ns r) : Descends s id (n :: ns) r
  | missing {id : Nat} {sc : Scope} {n : String} {ns : List String} (hsc : s.get? id = some sc)
      (hn : Table.find? sc.namespaces n = none) : Descends s id (n :: ns) none

/-- Looking a qualified name up: a single part from the inside out; otherwise the first part names a
namespace, which is searched for, the way goes down from there, and the last part is looked up in
the scope that it ends at. -/
inductive LooksUp (s : Scopes) (f : Nat → Scope → String → Option α) (start : Nat) :
    List String → Option α → Prop
  | empty : LooksUp s f start [] none
  | single {name : String} {r : Option α}
      (search : s.Searches (fun id sc => f id sc name) start r) : LooksUp s f start [name] r
  | noNamespace {first last : String} {middle : List String}
      (search : s.Searches (fun _ sc => Table.find? sc.namespaces first) start none) :
      LooksUp s f start (first :: middle ++ [last]) none
  | noWay {first last : String} {middle : List String} {id : Nat}
      (search : s.Searches (fun _ sc => Table.find? sc.namespaces first) start (some id))
      (way : s.Descends id middle none) : LooksUp s f start (first :: middle ++ [last]) none
  | inNamespace {first last : String} {middle : List String} {id ns : Nat} {sc : Scope}
      (search : s.Searches (fun _ sc => Table.find? sc.namespaces first) start (some id))
      (way : s.Descends id middle (some ns)) (hsc : s.get? ns = some sc) :
      LooksUp s f start (first :: middle ++ [last]) (f ns sc last)

end

/-- Looking up what a qualified name stands for as a type: if the part before the last one is an
enumeration, the last one is a member of it. -/
inductive LooksUpType (s : Scopes) (start : Nat) : List String → Option TypeSymbol → Prop
  | empty : LooksUpType s start [] none
  | member {owner : List String} {last : String} {e : EnumDecl}
      (ofEnum : LooksUpType s start owner (some (.ofEnum e))) :
      LooksUpType s start (owner ++ [last])
        ((e.members.find? fun m => m.1 == last).map fun m => .enumMember m.2)
  | other {owner : List String} {last : String} {t r : Option TypeSymbol}
      (ofOwner : LooksUpType s start owner t) (noEnum : ∀ e, t ≠ some (.ofEnum e))
      (look : s.LooksUp (fun id sc n => sc.typeNamed? id n) start (owner ++ [last]) r) :
      LooksUpType s start (owner ++ [last]) r

section

variable {α : Type} {start : Nat}

theorem Nested.parent_lt (h : s.Nested) {sc : Scope} {outer : Nat} (hsc : s.get? id = some sc)
    (hparent : sc.parent = some outer) : outer < id := by
  obtain ⟨root, hroot, hnone⟩ := h.root
  rcases Nat.eq_zero_or_pos id with rfl | hpos
  · cases hroot.symm.trans hsc
    cases hnone.symm.trans hparent
  · obtain ⟨p, hlt, sc', hsc', hp⟩ := h.inside id hpos (List.getElem?_eq_some_iff.mp hsc).1
    cases hsc'.symm.trans hsc
    cases hp.symm.trans hparent
    exact hlt

/-- Each step of a search reads a scope that is there, and the next one has a smaller number. -/
theorem Nested.searches (h : s.Nested) (f : Nat → Scope → Option α) :
    ∀ id, id < s.all.length → s.Searches f id (s.outward f id) := by
  intro id
  induction id using Nat.strongRecOn with
  | ind id ih =>
      intro hid
      obtain ⟨sc, hsc⟩ := exists_get? hid
      rw [outward, hsc]
      cases ha : f id sc with
      | some a => simpa only [ha] using Searches.found hsc ha
      | none =>
          cases hparent : sc.parent with
          | none => simpa only [ha, hparent] using Searches.nowhere hsc ha hparent
          | some outer =>
              have hlt := h.parent_lt hsc hparent
              simpa only [ha, hparent, if_pos hlt] using
                Searches.outwards hsc ha hparent (ih outer hlt (Nat.lt_trans hlt hid))

/-- A scope that a namespace is read off is there, and so is the scope of the namespace. -/
theorem Nested.descends (h : s.Nested) : ∀ (ns : List String) (id : Nat), id < s.all.length →
    s.Descends id ns (s.descend id ns) ∧ ∀ inner ∈ s.descend id ns, inner < s.all.length
  | [], id, hid => by
      rw [descend]
      refine ⟨.here id, fun inner hinner => ?_⟩
      cases hinner
      exact hid
  | n :: ns, id, hid => by
      obtain ⟨sc, hsc⟩ := exists_get? hid
      rw [descend, hsc, Option.bind_some]
      cases hn : Table.find? sc.namespaces n with
      | none => exact ⟨.missing hsc hn, fun _ hinner => nomatch hinner⟩
      | some inner =>
          have hinner := h.lt_of_namespace hsc hn
          obtain ⟨hway, hend⟩ := h.descends ns inner hinner
          exact ⟨.into hsc hn hway, hend⟩

/-- The part before the last one names a namespace that is searched for and descended to, and whose
scope is there. -/
theorem Nested.looksUp_qualified (h : s.Nested) (f : Nat → Scope → String → Option α)
    (hstart : start < s.all.length) (first last : String) (middle : List String) :
    s.LooksUp f start (first :: middle ++ [last])
      ((s.namespaceNamed? start (first :: middle)).bind fun id =>
        (s.get? id).bind fun sc => f id sc last) := by
  have hsearch := h.searches (fun _ sc => Table.find? sc.namespaces first) start hstart
  rw [namespaceNamed?]
  cases hfound : s.outward (fun _ sc => Table.find? sc.namespaces first) start with
  | none =>
      rw [hfound] at hsearch
      exact .noNamespace hsearch
  | some id =>
      rw [hfound] at hsearch
      obtain ⟨id', sc', hsc', hid⟩ := outward_spec hfound
      obtain ⟨hway, hend⟩ := h.descends middle id (h.lt_of_namespace hsc' hid)
      dsimp only
      cases hns : s.descend id middle with
      | none =>
          rw [hns] at hway
          exact .noWay hsearch hway
      | some ns =>
          rw [hns] at hway
          obtain ⟨sc, hsc⟩ := exists_get? (hend ns hns)
          rw [Option.bind_some, hsc, Option.bind_some]
          exact .inNamespace hsearch hway hsc

theorem Nested.looksUp (h : s.Nested) (f : Nat → Scope → String → Option α)
    (hstart : start < s.all.length) :
    ∀ parts : List String, s.LooksUp f start parts.reverse (s.lookup start f parts)
  | [] => .empty
  | [last] => .single (h.searches (fun id sc => f id sc last) start hstart)
  | last :: part :: owner => by
      have hlook : s.lookup start f (last :: part :: owner) =
          (s.namespaceNamed? start (part :: owner).reverse).bind fun id =>
            (s.get? id).bind fun sc => f id sc last := by
        rw [lookup]
        · cases s.namespaceNamed? start (part :: owner).reverse <;> rfl
        · exact List.cons_ne_nil part owner
      obtain ⟨first, middle, hpath⟩ := List.exists_cons_of_ne_nil
        (List.reverse_ne_nil_iff.mpr (List.cons_ne_nil part owner))
      rw [hlook, List.reverse_cons, hpath]
      exact h.looksUp_qualified f hstart first last middle

theorem Nested.looksUpType (h : s.Nested) (hstart : start < s.all.length) :
    ∀ parts : List String, s.LooksUpType start parts.reverse (s.typeOfParts? start parts)
  | [] => .empty
  | last :: owner => by
      have howner := h.looksUpType hstart owner
      have hlook := h.looksUp (fun id sc n => sc.typeNamed? id n) hstart (last :: owner)
      rw [List.reverse_cons] at hlook ⊢
      rw [typeOfParts?]
      split
      next e he => exact .member (he ▸ howner)
      next hnone => exact .other howner hnone hlook

/-! ## The nearest answer -/

/-- The other scope is this one or stands around it. -/
def Around (s : Scopes) : Nat → Nat → Prop :=
  ReflTransGen s.Inside

/-- The scope is the nearest one around `start`, itself included, that has an answer. -/
structure Nearest (s : Scopes) (f : Nat → Scope → Option α) (start id : Nat) (sc : Scope) (a : α) :
    Prop where
  scope : s.get? id = some sc
  around : s.Around start id
  answer : f id sc = some a
  nearest : ∀ id' sc', s.Around start id' → s.get? id' = some sc' → f id' sc' ≠ none →
    s.Around id id'

/-- The answer is that of the nearest scope that has one. -/
inductive NearestAnswer (s : Scopes) (f : Nat → Scope → Option α) (start : Nat) :
    Option α → Prop
  | found {id : Nat} {sc : Scope} {a : α} (nearest : s.Nearest f start id sc a) :
      NearestAnswer s f start (some a)
  | absent (none_around : ∀ id sc, s.Around start id → s.get? id = some sc → f id sc = none) :
      NearestAnswer s f start none

theorem around_iff {sc : Scope} (hsc : s.get? id = some sc) {id' : Nat} :
    s.Around id id' ↔ id' = id ∨ ∃ outer, sc.parent = some outer ∧ s.Around outer id' := by
  rw [Around, ReflTransGen.cases_head_iff]
  refine or_congr eq_comm ⟨?_, ?_⟩
  · rintro ⟨outer, ⟨sc', hsc', hparent⟩, houter⟩
    cases hsc'.symm.trans hsc
    exact ⟨outer, hparent, houter⟩
  · rintro ⟨outer, hparent, houter⟩
    exact ⟨outer, ⟨sc, hsc, hparent⟩, houter⟩

theorem Searches.nearestAnswer {f : Nat → Scope → Option α} {r : Option α}
    (h : s.Searches f start r) : s.NearestAnswer f start r := by
  induction h with
  | found hsc ha => exact .found ⟨hsc, .refl, ha, fun _ _ haround _ _ => haround⟩
  | @nowhere id sc hsc hf hparent =>
      refine .absent fun id' sc' haround hsc' => ?_
      rcases (around_iff hsc).mp haround with rfl | ⟨outer, houter, -⟩
      · cases hsc.symm.trans hsc'
        exact hf
      · cases hparent.symm.trans houter
  | @outwards id outer sc r hsc hf hparent _ ih =>
      -- The scope itself has no answer, so what is around it is what is around the next one.
      have hnext : ∀ id' sc', s.Around id id' → s.get? id' = some sc' →
          f id' sc' = none ∨ s.Around outer id' := by
        intro id' sc' haround hsc'
        rcases (around_iff hsc).mp haround with rfl | ⟨outer', houter', haround⟩
        · cases hsc.symm.trans hsc'
          exact Or.inl hf
        · cases hparent.symm.trans houter'
          exact Or.inr haround
      cases ih with
      | found hnearest =>
          refine .found ⟨hnearest.scope, .head ⟨sc, hsc, hparent⟩ hnearest.around,
            hnearest.answer, fun id' sc' haround hsc' hne => ?_⟩
          exact hnearest.nearest id' sc' ((hnext id' sc' haround hsc').resolve_left hne) hsc' hne
      | absent hnone =>
          refine .absent fun id' sc' haround hsc' => ?_
          exact (hnext id' sc' haround hsc').elim (fun hf => hf) fun ho => hnone id' sc' ho hsc'

end

/-- Every name is looked up from the scope: step by step, with a scope at each number that is read,
and a name of one part has the answer of the nearest scope around. -/
structure Resolves (s : Scopes) (start : Nat) : Prop where
  types : ∀ path, s.LooksUpType start path (s.typeNamed? start path)
  values : ∀ path,
    s.LooksUp (fun id sc n => sc.valueNamed? id n) start path (s.valueNamed? start path)
  nearestType : ∀ name,
    s.NearestAnswer (fun id sc => sc.typeNamed? id name) start (s.typeNamed? start [name])
  nearestValue : ∀ name,
    s.NearestAnswer (fun id sc => sc.valueNamed? id name) start (s.valueNamed? start [name])

theorem Nested.resolves (h : s.Nested) {start : Nat} (hstart : start < s.all.length) :
    s.Resolves start where
  types := by
    intro path
    have hlook := h.looksUpType hstart path.reverse
    rwa [List.reverse_reverse] at hlook
  values := by
    intro path
    have hlook := h.looksUp (fun id sc n => sc.valueNamed? id n) hstart path.reverse
    rwa [List.reverse_reverse] at hlook
  nearestType := fun name =>
    (h.searches (fun id sc => sc.typeNamed? id name) start hstart).nearestAnswer
  nearestValue := fun name =>
    (h.searches (fun id sc => sc.valueNamed? id name) start hstart).nearestAnswer

/-- **The scopes of a text stand inside one another, and every name is looked up from each of
them.** -/
theorem ofStatements_resolves (ss : List Statement) : (ofStatements ss).Nested ∧
    ∀ start < (ofStatements ss).all.length, (ofStatements ss).Resolves start :=
  ⟨nested_ofStatements ss, fun _ hstart => (nested_ofStatements ss).resolves hstart⟩

/-- A namespace in a namespace, and an enumeration beside them. -/
def paintStatements : List Statement :=
  [.decl (.namespaceDecl "tools" [.decl (.namespaceDecl "brushes"
      [.decl (.functionDecl "wash" .empty) false]) false]) true,
    .decl (.enumDecl ⟨"Color", [("red", .number), ("blue", .string)]⟩) true]

/-- From the innermost scope a member of the enumeration outside is found. -/
theorem paintStatements_resolves : 2 < (ofStatements paintStatements).all.length ∧
    (ofStatements paintStatements).Nested ∧
    (ofStatements paintStatements).LooksUpType 2 ["Color", "blue"]
      (some (.enumMember .string)) := by
  have hlt : 2 < (ofStatements paintStatements).all.length := by decide +kernel
  obtain ⟨hnested, hresolves⟩ := ofStatements_resolves paintStatements
  have hblue : (ofStatements paintStatements).typeNamed? 2 ["Color", "blue"] =
      some (.enumMember .string) := by with_unfolding_all rfl
  exact ⟨hlt, hnested, hblue ▸ (hresolves 2 hlt).types ["Color", "blue"]⟩

end Scopes

end ApiSurface.Declaration
