/-
# `ApiSurface.Proofs.Reflect.Repeated` — reflecting on a module again, with what was found

A first run admits what it finds; a second one is given the schema that the first has left and may
only bind what that schema knows.  A name that was unknown the first time is known the second time,
sometimes before the walk comes to where it was admitted, and a function that turned out to be a
constructor is not tried again.  What the two do to the endpoints is the same: each function of the
walk repeats (`Repeats`), in the order in which they are defined.

**Main result** (`reflect_repeats`): the second run succeeds, with the same schema and the same
names of endpoints, admits nothing and drops nothing.

Classes inside classes are followed to a depth that depends on the schema, so that the second run
may go deeper.  It does not, since the first has enough levels for all classes that it can come to
(`Enough`): the entries that it adds on its way down are those of members, which are no classes.
-/
import ApiSurface.Proofs.Reflect.Accounted
import ApiSurface.Proofs.Reflect.Repeats

namespace ApiSurface.Reflect

open Live

variable {β σ : Type} {h : Heap (Code β)} {S : Schema} {b : Binding}

/-! ## Members -/

variable {s : Settings} {lib : Library β σ}

/-- A name that the first computation does not know is admitted and bound; the second one knows it.
-/
theorem repeats_admitted {name : String} {v : Value} {read : Heap (Code β) → Entry}
    {f' : Option Convention → Mapping β σ Unit} (hnone : b.schema.find? name = none)
    (hread : ∀ h', h.Extends h' → read h' = read h)
    (hf' : f' (some (read h).convention) = Mapping.bindTo name v) :
    Repeats h S b (do
      Mapping.addEntry name (read (← Mapping.heap))
      Mapping.bindTo name v) (Mapping.known? name >>= f') := by
  refine .step (b.enter name (read h) v) name v v
    ((Schema.Extends.refl _).insert hnone _) rfl (fun w ext => ⟨w, ext, ?_⟩)
    (fun hS c u hc hu => ⟨u, hu, ?_⟩) (.pure ())
  · rw [← hread w.heap ext]
    rfl
  · have hfind : c.schema.find? name = some (read h) := by
      rw [hc]
      exact hS name (read h) (Table.find?_insert_self _ _ _)
    show f' ((c.schema.find? name).map Entry.convention) c u = _
    rw [hfind, Option.map_some, hf']
    rfl

theorem repeats_bindTo (name : String) (v : Value) :
    Repeats h S b (Mapping.bindTo name v : Mapping β σ Unit) (Mapping.bindTo name v) :=
  .step (b.bind name v) name v v (.refl _) rfl
    (fun w ext => ⟨w, ext, rfl⟩) (fun _ _ u _ hu => ⟨u, hu, rfl⟩) (.pure ())

theorem repeats_mapMethod (className : String) {m : String × Value} (hm : h.Holds m.2)
    (b : Binding) :
    Repeats h S b (mapMethod { s with onlyKnown := false } className m : Mapping β σ Unit)
      (mapMethod { s with onlyKnown := true } className m) := by
  unfold mapMethod
  extract_lets name
  split
  · exact .pure ()
  · cases hfind : b.schema.find? name with
    | some e =>
        refine .bind_known hfind ?_
        cases e.convention with
        | method => exact repeats_bindTo name m.2
        | free => exact .throw _
        | constructor => exact .throw _
    | none =>
        refine .bind_unknown hfind (repeats_admitted hfind (fun h' ext => ?_) ?_)
        · exact congrArg (unknownMethod className) (arityOf_eq ext hm)
        · rfl

theorem repeats_mapMethods (closed : h.Closed) (className : String) {f : Value} (hf : h.Holds f)
    (b : Binding) :
    Repeats h S b (mapMethods { s with onlyKnown := false } className f : Mapping β σ Unit)
      (mapMethods { s with onlyKnown := true } className f) := by
  refine .bind_heap fun h₁ h₂ ext₁ ext₂ => ?_
  rw [instanceMethods_eq ext₁ closed hf, instanceMethods_eq ext₂ closed hf]
  refine .forM_all (fun m hm b => ?_) b
  have hcallable := isCallable_of_mem_instanceMethods hm
  exact repeats_mapMethod className (Heap.holds_of_isCallable hcallable) b

/-- A static function is bound in both runs if a class that the first one knows is. -/
theorem repeats_mapStatic {nested nested' : String → Value → Mapping β σ Unit} (className : String)
    {m : String × Value} (hm : h.Holds m.2)
    (hnested : ∀ name e, name = className ++ "." ++ m.1 → b.schema.find? name = some e →
      e.convention = .constructor → Repeats h S b (nested name m.2) (nested' name m.2)) :
    Repeats h S b (mapStatic nested { s with onlyKnown := false } className m)
      (mapStatic nested' { s with onlyKnown := true } className m) := by
  unfold mapStatic
  extract_lets name
  split
  · exact .pure ()
  · cases hfind : b.schema.find? name with
    | some e =>
        refine .bind_known hfind ?_
        cases hconvention : e.convention with
        | method => exact .pure ()
        | free => exact repeats_bindTo name m.2
        | constructor => exact hnested name e rfl hfind hconvention
    | none =>
        refine .bind_unknown hfind (repeats_admitted hfind (fun h' ext => ?_) ?_)
        · exact congrArg (Entry.unknown · .free) (arityOf_eq ext hm)
        · rfl

theorem repeats_mapStatics {I : Binding → Prop} {nested nested' : String → Value → Mapping β σ Unit}
    (closed : h.Closed) (className : String) {f : Value} (hf : h.Holds f)
    (hI : ∀ m b, Maintains I b (mapStatic nested { s with onlyKnown := false } className m))
    (hnested : ∀ name v b e, className.length < name.length → h.isCallable v = true → I b →
      b.schema.find? name = some e → e.convention = .constructor →
      Repeats h S b (nested name v) (nested' name v))
    (hb : I b) :
    Repeats h S b (mapStatics nested { s with onlyKnown := false } className f)
      (mapStatics nested' { s with onlyKnown := true } className f) := by
  cases f with
  | object id =>
      refine .bind_heap fun h₁ h₂ ext₁ ext₂ => ?_
      rw [ownMethods_eq ext₁ closed hf, ownMethods_eq ext₂ closed hf]
      refine .forM (fun m _ b => hI m b) (fun m hm b hb => ?_) b hb
      have hcallable := isCallable_of_mem_ownMethods hm
      refine repeats_mapStatic className (Heap.holds_of_isCallable hcallable) ?_
      rintro name e rfl hfind hconvention
      have hlonger : className.length < (className ++ "." ++ m.1).length := by
        rw [String.length_append, String.length_append]
        exact Nat.lt_of_lt_of_le (Nat.lt_succ_self _) (Nat.le_add_right _ _)
      exact hnested _ m.2 b e hlonger hcallable hb hfind hconvention
  | _ => exact .pure ()

/-! ## Functions under their names -/

/-- A name that is known is bound; what is known to be a constructor is not tried. -/
theorem mapNamed_known {fuel : Nat} {name : String} {f : Value} {e : Entry} {w : World β σ}
    (allowed : ¬ s.skipped.contains name = true) (hfind : b.schema.find? name = some e) :
    mapNamed lib s (fuel + 1) name f b w =
      if e.convention = .constructor then
        bindMembers (mapNamed lib s fuel) s name f true (b.bind name f) w
      else
        bindMembers (mapNamed lib s fuel) s name f ((classify lib f w).1 == .constructor)
          (b.bind name f) (classify lib f w).2 := by
  have hread : (Mapping.known? name : Mapping β σ _) b w = (.ok (some e.convention, b), w) := by
    show (Except.ok ((b.schema.find? name).map Entry.convention, b), w) = _
    rw [hfind, Option.map_some]
  rw [mapNamed, if_neg allowed, mapping_bind_eq, hread]
  cases e.convention with
  | constructor => rfl
  | method => rfl
  | free => rfl

theorem mapNamed_unknown (s : Settings) {fuel : Nat} {name : String} {f : Value} {w : World β σ}
    (allowed : ¬ s.skipped.contains name = true) (hnone : b.schema.find? name = none)
    (wanted : s.onlyKnown = false) :
    let r := classify lib f w
    let constructs := r.1 == .constructor
    mapNamed lib s (fuel + 1) name f b w =
      bindMembers (mapNamed lib s fuel) s name f constructs
        (b.enter name (admittedEntry name (arityOf r.2.heap f) constructs) f) r.2 := by
  have hread : (Mapping.known? name : Mapping β σ _) b w = (.ok (none, b), w) := by
    show (Except.ok ((b.schema.find? name).map Entry.convention, b), w) = _
    rw [hnone, Option.map_none]
  rw [mapNamed, if_neg allowed, mapping_bind_eq, hread]
  dsimp only
  rw [wanted]
  rfl

/-- The levels that are left are enough for every class whose name is longer than the one that the
walk is at. -/
def Enough (fuel : Nat) (name : String) (s : Schema) : Prop :=
  ∀ n e, s.find? n = some e → e.convention = .constructor → name.length < n.length →
    n.length + 2 ≤ fuel + name.length

/-- An entry that does not make the walk go deeper. -/
def Shallow (name : String) (n : String) (e : Entry) : Prop :=
  e.convention = .constructor → n.length ≤ name.length

theorem members_shallow (name : String) : Members (Shallow name) where
  method _ _ _ hno := Convention.noConfusion hno
  static _ _ hno := Convention.noConfusion hno

theorem shallow_admittedEntry (name : String) (arity : Nat) (constructs : Bool) :
    Shallow name name (admittedEntry name arity constructs) :=
  fun _ => Nat.le_refl _

theorem kept_enough (fuel : Nat) (name : String) :
    Kept (Shallow name) fun b => Enough fuel name b.schema where
  bound _ _ _ hb := hb
  added b n e _ he hb := by
    intro n' e' hfind hconstructor hlonger
    have hcases : (if n' = n then some e else b.schema.find? n') = some e' :=
      (Table.find?_insert ..).symm.trans hfind
    split at hcases
    next heq =>
      subst heq
      cases hcases
      exact absurd (he hconstructor) (Nat.not_le_of_lt hlonger)
    next => exact hb n' e' hcases hconstructor hlonger

/-- A class inside the one that the walk is at has levels left, and enough of them. -/
theorem Enough.nested {fuel : Nat} {name n : String} {s : Schema} {e : Entry}
    (hs : Enough (fuel + 1) name s) (hlonger : name.length < n.length)
    (hfind : s.find? n = some e) (hconstructor : e.convention = .constructor) :
    0 < fuel ∧ Enough fuel n s := by
  have hn := hs n e hfind hconstructor hlonger
  refine ⟨by omega, fun n' e' hfind' hconstructor' hlonger' => ?_⟩
  have hn' := hs n' e' hfind' hconstructor' (hlonger.trans hlonger')
  omega

/-- What a run does with a name that it knows, if the function has turned out to be of a kind
wherever it is tried. -/
theorem exists_run_of_known (s : Settings) {kind : CallableKind} {f : Value}
    (hkind : ∀ w, h.Extends w.heap →
      (classify lib f w).1 = kind ∧ h.Extends (classify lib f w).2.heap)
    {name : String} (allowed : ¬ s.skipped.contains name = true) (fuel : Nat) {e : Entry}
    (hfind : b.schema.find? name = some e) {w : World β σ} (ext : h.Extends w.heap) :
    ∃ w', h.Extends w'.heap ∧ mapNamed lib s (fuel + 1) name f b w =
      bindMembers (mapNamed lib s fuel) s name f
        (decide (e.convention = .constructor) || kind == .constructor) (b.bind name f) w' := by
  rw [mapNamed_known allowed hfind]
  split
  next hconstructor => exact ⟨w, ext, by rw [decide_eq_true hconstructor, Bool.true_or]⟩
  next hconstructor =>
    obtain ⟨hfst, hsnd⟩ := hkind w ext
    exact ⟨_, hsnd, by rw [hfst, decide_eq_false hconstructor, Bool.false_or]⟩

theorem decide_admittedEntry (name : String) (arity : Nat) (constructs : Bool) :
    (decide ((admittedEntry name arity constructs).convention = .constructor) || constructs) =
      constructs := by
  cases constructs with
  | true => rfl
  | false => rfl

/-- The members of a class are bound by both runs if the classes inside it are. -/
theorem repeats_bindMembers {I : Binding → Prop} {fuel fuel' : Nat} (closed : h.Closed)
    {name : String} {f : Value} (hf : h.Holds f) (hkept : Kept (Shallow name) I)
    (hnested : ∀ n v b e, name.length < n.length → h.isCallable v = true → I b →
      b.schema.find? n = some e → e.convention = .constructor →
      Repeats h S b (mapNamed lib { s with onlyKnown := false } fuel n v)
        (mapNamed lib { s with onlyKnown := true } fuel' n v))
    (constructs : Bool) (hb : I b) :
    Repeats h S b
      (bindMembers (mapNamed lib { s with onlyKnown := false } fuel) { s with onlyKnown := false }
        name f constructs)
      (bindMembers (mapNamed lib { s with onlyKnown := true } fuel') { s with onlyKnown := true }
        name f constructs) := by
  have hwalk := walkClosed_maintains lib { s with onlyKnown := false } hkept
  have hmembers := members_shallow name
  unfold bindMembers
  split
  · refine (repeats_mapMethods closed name hf b).bind fun w u b' w' hr => ?_
    have hb' : I b' := hwalk.mapMethods hmembers h name f b w u b' w' hb hr
    refine repeats_mapStatics closed name hf (fun m b => ?_) hnested hb'
    exact hwalk.mapStatic_mapNamed (h := h) hmembers fuel name trivial b
  · exact .pure ()

/-- **A function that both runs come to under one name** is bound by both, with its members. -/
theorem repeats_mapNamed (closed : h.Closed) (hlib : lib.Steady h) (fuel : Nat) :
    ∀ (fuel' : Nat) (name : String) (f : Value) (b : Binding), 0 < fuel → fuel ≤ fuel' →
      h.isCallable f = true → Enough fuel name b.schema →
      Repeats h S b (mapNamed lib { s with onlyKnown := false } fuel name f)
        (mapNamed lib { s with onlyKnown := true } fuel' name f) := by
  induction fuel with
  | zero => exact fun _ _ _ _ hno => absurd hno (Nat.lt_irrefl 0)
  | succ fuel ih =>
      intro fuel' name f b _ hle hf hb
      obtain ⟨fuel', rfl⟩ : ∃ k, fuel' = k + 1 := Nat.exists_eq_add_one.mpr (by omega)
      obtain ⟨c, hc⟩ := Option.isSome_iff_exists.mp hf
      obtain ⟨kind, hkind⟩ := steady_classify closed hlib hc
      have hholds : h.Holds f := Heap.holds_of_callable? hc
      have hkept := kept_enough (fuel + 1) name
      have hmembers : ∀ (constructs : Bool) (b' : Binding), Enough (fuel + 1) name b'.schema →
          Repeats h S b'
            (bindMembers (mapNamed lib { s with onlyKnown := false } fuel)
              { s with onlyKnown := false } name f constructs)
            (bindMembers (mapNamed lib { s with onlyKnown := true } fuel')
              { s with onlyKnown := true } name f constructs) := by
        intro constructs b'
        refine repeats_bindMembers (I := fun b => Enough (fuel + 1) name b.schema) closed hholds
          hkept (fun n v b e hlonger hv hb hfind hconstructor => ?_) constructs
        obtain ⟨hpos, henough⟩ := hb.nested hlonger hfind hconstructor
        exact ih fuel' n v b hpos (Nat.le_of_succ_le_succ hle) hv henough
      by_cases hskip : s.skipped.contains name = true
      · rw [mapNamed, mapNamed, if_pos hskip, if_pos hskip]
        exact .pure ()
      cases hfind : b.schema.find? name with
      | some e =>
          refine .step (b.bind name f) name f f (.refl _) rfl
            (fun w ext => exists_run_of_known { s with onlyKnown := false } hkind hskip fuel
              hfind ext)
            (fun hS c u hc hu => exists_run_of_known { s with onlyKnown := true } hkind hskip fuel'
              (hc ▸ hS name e hfind) hu) (hmembers _ _ hb)
      | none =>
          -- The second run finds the entry that the first one admits.
          let e := admittedEntry name (arityOf h f) (kind == .constructor)
          have hb' := hkept.added b name e hfind (shallow_admittedEntry _ _ _) hb
          refine .step (b.enter name e f) name f f ((Schema.Extends.refl _).insert hfind e) rfl
            (fun w ext => ?_) (fun hS c u hc hu => ?_) (hmembers (kind == .constructor) _ hb')
          · obtain ⟨hfst, hsnd⟩ := hkind w ext
            refine ⟨_, hsnd, ?_⟩
            rw [mapNamed_unknown { s with onlyKnown := false } hskip hfind rfl, hfst,
              arityOf_eq hsnd hholds]
          · have hknown : c.schema.find? name = some e := by
              rw [hc]
              exact hS name e (Table.find?_insert_self _ _ _)
            obtain ⟨u', hu', hrun⟩ :=
              exists_run_of_known { s with onlyKnown := true } hkind hskip fuel' hknown hu
            rw [decide_admittedEntry] at hrun
            exact ⟨u', hu', hrun⟩

/-! ## The walk -/

theorem foldl_max_le_iff (l : List Nat) {m : Nat} :
    ∀ a, l.foldl max a ≤ m ↔ a ≤ m ∧ ∀ x ∈ l, x ≤ m := by
  induction l with
  | nil => exact fun a => ⟨fun ha => ⟨ha, fun x hx => absurd hx List.not_mem_nil⟩, And.left⟩
  | cons x l ih =>
      intro a
      rw [List.foldl_cons, ih, Nat.max_le, and_assoc, List.forall_mem_cons]

theorem staticFuel_le_iff {s : Schema} {m : Nat} :
    staticFuel s ≤ m + 2 ↔ ∀ n ∈ s.names, n.length ≤ m := by
  rw [staticFuel, Nat.add_le_add_iff_right, foldl_max_le_iff]
  exact ⟨fun hl n hn => hl.2 _ (List.mem_map_of_mem hn), fun hl => ⟨Nat.zero_le m, fun x hx => by
    obtain ⟨n, hn, rfl⟩ := List.mem_map.mp hx
    exact hl n hn⟩⟩

theorem length_add_two_le {s : Schema} {n : String} (hn : n ∈ s.names) :
    n.length + 2 ≤ staticFuel s :=
  Nat.add_le_add_right (staticFuel_le_iff.mp (Nat.le_refl (staticFuel s)) n hn) 2

theorem staticFuel_mono {s s' : Schema} (ext : s.Extends s') : staticFuel s ≤ staticFuel s' := by
  refine staticFuel_le_iff.mpr fun n hn => ?_
  have hn' := Schema.has_iff_mem_names.mp (ext.has (Schema.has_iff_mem_names.mpr hn))
  exact Nat.le_of_add_le_add_right (length_add_two_le hn')

/-- There are enough levels for all classes of the schema. -/
theorem enough_staticFuel (s : Schema) (name : String) : Enough (staticFuel s) name s := by
  intro n e hfind _ _
  have hn : n ∈ s.names := by
    refine Schema.has_iff_mem_names.mp ?_
    rw [Schema.has, hfind, Option.isSome_some]
  exact (length_add_two_le hn).trans (Nat.le_add_right _ _)

theorem repeats_mapFunction (closed : h.Closed) (hlib : lib.Steady h) (start : String) {f : Value}
    (hf : h.Holds f) (key : Option String) (b : Binding) :
    Repeats h S b (mapFunction lib { s with onlyKnown := false } start f key)
      (mapFunction lib { s with onlyKnown := true } start f key) := by
  refine .bind_heap fun h₁ h₂ ext₁ ext₂ => ?_
  rw [ext₁.callable?_eq hf, ext₂.callable?_eq hf]
  cases hc : h.callable? f with
  | none => exact .pure ()
  | some c =>
      have hcallable : h.isCallable f = true := by rw [Heap.isCallable, hc, Option.isSome_some]
      have hnamed : ∀ (T : Schema) (fuel' : Nat), staticFuel b.schema ≤ fuel' →
          Repeats h T b
            (mapNamed lib { s with onlyKnown := false } (staticFuel b.schema)
              (start ++ key.getD c.name) f)
            (mapNamed lib { s with onlyKnown := true } fuel' (start ++ key.getD c.name) f) :=
        fun T fuel' hle => repeats_mapNamed closed hlib _ fuel' _ f b (Nat.succ_pos _) hle hcallable
          (enough_staticFuel _ _)
      refine .bind_get fun c' hc' => ?_
      refine .of_extends (hnamed S _ (Nat.le_refl _)).advances fun hS => hnamed S _ ?_
      rw [hc']
      exact staticFuel_mono hS

theorem repeats_mapObject (closed : h.Closed) (hlib : lib.Steady h) (depth : Nat) :
    ∀ (start : String) (id : Nat) (b : Binding), id < h.objects.size →
      Repeats h S b (mapObject lib { s with onlyKnown := false } depth start id)
        (mapObject lib { s with onlyKnown := true } depth start id) := by
  induction depth with
  | zero => exact fun _ _ _ _ => .pure ()
  | succ depth ih =>
      intro start id b hid
      refine .bind_heap fun h₁ h₂ ext₁ ext₂ => ?_
      rw [ext₁.entries_eq hid, ext₂.entries_eq hid]
      refine .forM_all (fun p hp b => ?_) b
      have hvalue := closed.holds_entries hp
      refine .bind_heap fun h₁ h₂ ext₁ ext₂ => ?_
      rw [ext₁.isCallable_eq hvalue, ext₂.isCallable_eq hvalue]
      split
      · exact repeats_mapFunction closed hlib start hvalue (some p.1) b
      · cases hnested : p.2 with
        | object nested =>
            rw [hnested] at hvalue
            exact ih _ nested b hvalue
        | _ => exact .pure ()

theorem defaultExport?_eq {h' : Heap (Code β)} (ext : h.Extends h') (closed : h.Closed)
    {exports : Value} (hexports : h.Holds exports) :
    defaultExport? h' exports = defaultExport? h exports := by
  cases exports with
  | object id =>
      rw [defaultExport?, defaultExport?, ext.isCallable_eq hexports, ext.hasOwn_eq hexports,
        ext.get_eq closed hexports]
  | _ => rfl

theorem holds_defaultExport (closed : h.Closed) {exports : Value} (hexports : h.Holds exports) :
    h.Holds ((defaultExport? h exports).getD exports) := by
  cases exports with
  | object id =>
      rw [defaultExport?]
      split
      · exact closed.holds_get (.object id) "default"
      · exact hexports
  | _ => trivial

theorem repeats_mapExports (closed : h.Closed) (hlib : lib.Steady h) {exports : Value}
    (hexports : h.Holds exports) (b : Binding) :
    Repeats h S b (mapExports lib { s with onlyKnown := false } exports)
      (mapExports lib { s with onlyKnown := true } exports) := by
  have hmain := holds_defaultExport closed hexports
  refine .bind_heap fun h₁ h₂ ext₁ ext₂ => ?_
  rw [defaultExport?_eq ext₁ closed hexports, defaultExport?_eq ext₂ closed hexports]
  generalize (defaultExport? h exports).getD exports = main at hmain
  dsimp only
  rw [ext₁.isCallable_eq hmain, ext₂.isCallable_eq hmain]
  cases main with
  | object id =>
      have hwalk := fun b' =>
        repeats_mapObject (S := S) (s := s) closed hlib s.maxDepth "" id b' hmain
      split
      · exact (repeats_mapFunction closed hlib "" hmain none b).bind fun _ _ b' _ _ => hwalk b'
      · exact hwalk b
  | _ => exact .pure ()

/-! ## The host -/

/-- A value of the host that needs no entry, or for which there is none, is bound. -/
theorem mapHostValue_bind {name : String} {v : Value} {w : World β σ}
    (allowed : ¬ s.skipped.contains name = true)
    (hentry : b.schema.has name = true ∨ Standard.entries.lookup name = none) :
    mapHostValue s (name, v) b w = (.ok ((), b.bind name v), w) := by
  rw [mapHostValue_eq allowed]
  cases hhas : b.schema.has name with
  | true => rfl
  | false =>
      rcases hentry with hknown | hnone
      · cases hhas.symm.trans hknown
      · rw [hnone]
        rfl

/-- Both runs bind a value of the host; the first one may add its entry. -/
theorem repeats_mapHostValue (name : String) (v v' : Value) (b : Binding) :
    Repeats h S b (mapHostValue s (name, v) : Mapping β σ Unit) (mapHostValue s (name, v')) := by
  by_cases hskip : s.skipped.contains name = true
  · rw [mapHostValue, mapHostValue, if_pos hskip, if_pos hskip]
    exact .pure ()
  have hbind : (b.schema.has name = true ∨ Standard.entries.lookup name = none) →
      Repeats h S b (mapHostValue s (name, v) : Mapping β σ Unit) (mapHostValue s (name, v')) := by
    intro hentry
    refine .step (b.bind name v) name v v' (.refl _) rfl
      (fun w ext => ⟨w, ext, mapHostValue_bind hskip hentry⟩)
      (fun hS c u hc hu => ⟨u, hu, mapHostValue_bind hskip ?_⟩) (.pure ())
    rw [hc]
    exact hentry.imp_left hS.has
  cases hhas : b.schema.has name with
  | true => exact hbind (.inl hhas)
  | false =>
      cases hlookup : Standard.entries.lookup name with
      | none => exact hbind (.inr hlookup)
      | some e =>
          have hnone : b.schema.find? name = none := by simpa [Schema.has] using hhas
          let b' : Binding := { b.bind name v with schema := b.schema.insert name e }
          refine .step b' name v v' ((Schema.Extends.refl _).insert hnone e) rfl
            (fun w ext => ⟨w, ext, ?_⟩)
            (fun hS c u hc hu => ⟨u, hu, mapHostValue_bind hskip (.inl ?_)⟩) (.pure ())
          · rw [mapHostValue_eq hskip, hhas, hlookup]
            rfl
          · rw [hc]
            exact hS.has (Schema.has_insert_self _ _ e)

theorem repeats_hostValues {l : List (String × Value)} :
    ∀ {l' : List (String × Value)} (b : Binding), l'.map Prod.fst = l.map Prod.fst →
      Repeats h S b (l.forM (mapHostValue s) : Mapping β σ Unit) (l'.forM (mapHostValue s)) := by
  induction l with
  | nil =>
      intro l' b hnames
      obtain rfl := List.map_eq_nil_iff.mp hnames
      exact .pure ()
  | cons p l ih =>
      intro l' b hnames
      obtain ⟨p', l', rfl, hname, hrest⟩ := List.map_eq_cons_iff.mp hnames
      obtain ⟨name, v⟩ := p
      obtain ⟨name', v'⟩ := p'
      obtain rfl : name' = name := hname
      exact (repeats_mapHostValue name' v v' b).bind fun _ _ b' _ _ => ih b' hrest

theorem mapHost_eq (s : Settings) (b : Binding) (w : World β σ) :
    mapHost s b w = ((Building.host w.heap).1.forM (mapHostValue s) : Mapping β σ Unit) b
      { w with heap := (Building.host w.heap).2 } :=
  rfl

/-- The host is put beside what is on the heap, and bound under the same names. -/
theorem repeats_mapHost (s : Settings) (b : Binding) :
    Repeats h S b (mapHost s : Mapping β σ Unit) (mapHost s) := by
  have hvalues : ∀ made made' : List (String × Value) × Heap (Code β),
      made'.1.map Prod.fst = made.1.map Prod.fst →
      Repeats h S b (made.1.forM (mapHostValue s) : Mapping β σ Unit)
        (made'.1.forM (mapHostValue s)) := fun _ _ => repeats_hostValues b
  constructor
  · intro w a b' w' ext hr
    obtain ⟨ext', -⟩ := Building.apart_host w.heap ext
    rw [mapHost_eq] at hr
    generalize Building.host w.heap = made at hr ext'
    exact (hvalues made made rfl).advances { w with heap := made.2 } a b' w' ext' hr
  · intro w a b' w' ext hr hS c u hc hu
    obtain ⟨ext', -⟩ := Building.apart_host w.heap ext
    obtain ⟨hu', -⟩ := Building.apart_host u.heap hu
    have hnames := (Building.names_host u.heap).trans (Building.names_host w.heap).symm
    rw [mapHost_eq] at hr ⊢
    generalize Building.host w.heap = made at hr ext' hnames
    generalize Building.host u.heap = made' at hu' hnames
    exact (hvalues made made' hnames).follows { w with heap := made.2 } a b' w' ext' hr hS c
      { u with heap := made'.2 } hc hu'

/-! ## Whole runs -/

/-- If everything is bound, no entry is dropped in the end. -/
theorem Binding.finish_of_bound (hbound : ∀ n ∈ b.schema.names, Table.has b.endpoints n = true) :
    b.finish.schema = b.schema ∧ b.finish.dropped = [] := by
  constructor
  · have hentries : (b.schema.entries.filter fun p => Table.has b.endpoints p.1) =
        b.schema.entries :=
      List.filter_eq_self.mpr fun p hp => hbound p.1 (List.mem_map_of_mem hp)
    exact (Schema.mk.injEq ..).mpr hentries
  · refine List.filter_eq_nil_iff.mpr fun n hn => ?_
    rw [hbound n hn]
    exact Bool.false_ne_true

/-- A run that was given nothing has bound all that it knows. -/
theorem Binding.Accounts.extends_finish {live : Value → Prop}
    (hb : b.Accounts live s .empty) : b.schema.Extends b.finish.schema := by
  intro n e hfind
  have hhas : b.schema.has n = true := by rw [Schema.has, hfind, Option.isSome_some]
  have hbound : Table.has b.endpoints n = true := (hb.names n).symm.trans hhas
  have hfilter : b.finish.schema.find? n =
      if Table.has b.endpoints n then b.schema.find? n else none :=
    Table.find?_filter b.schema.entries (Table.has b.endpoints) n
  rw [hfilter, if_pos hbound]
  exact hfind

/-- The two runs, one after the other from the start. -/
theorem repeats_run (closed : h.Closed) (hlib : lib.Steady h) {exports : Value}
    (hexports : h.Holds exports) (b : Binding) :
    Repeats h S b
      (mapHost { s with onlyKnown := false } >>= fun _ =>
        mapExports lib { s with onlyKnown := false } exports)
      (mapHost { s with onlyKnown := true } >>= fun _ =>
        mapExports lib { s with onlyKnown := true } exports) :=
  (repeats_mapHost s b).bind fun _ _ b' _ _ => repeats_mapExports closed hlib hexports b'

/-- **Reflecting on a module again**, with the schema that was found and on no other names, succeeds
and finds the same: the schema, the names of the endpoints, and nothing to admit or to drop.  The
objects of the heap are as they were, so that the second run may come right after the first or start
anew, as long as they are there. -/
theorem reflect_repeats {exports : Value} {loaded : Loaded} {w w' : World β σ}
    (closed : w.heap.Closed) (hexports : w.heap.Holds exports) (hlib : lib.Steady w.heap)
    (hr : reflect lib { s with onlyKnown := false } .empty exports w = (.ok loaded, w')) :
    w.heap.Extends w'.heap ∧ ∀ v : World β σ, w.heap.Extends v.heap → ∃ again v',
      reflect lib { s with onlyKnown := true } loaded.schema exports v = (.ok again, v') ∧
        again.schema = loaded.schema ∧ Table.keys again.endpoints = Table.keys loaded.endpoints ∧
        again.unbacked = 0 ∧ again.dropped = [] := by
  have haligned := (reflect_aligned hr).1
  rw [reflect_eq] at hr
  split at hr
  next u b w₁ hrun =>
    cases hr
    have haccounts := Binding.Accounts.of_growth (growth_of_run hrun)
    have hrepeats := repeats_run (S := b.finish.schema) (s := s) closed hlib hexports
      { schema := .empty }
    refine ⟨(hrepeats.advances w u b w' (.refl _) hrun).1, fun v ext => ?_⟩
    let start : Binding := { schema := b.finish.schema }
    obtain ⟨c, v', hagain, -, hc⟩ := hrepeats.follows w u b w' (.refl _) hrun
      haccounts.extends_finish start v ⟨rfl, fun _ => rfl⟩ ext
    have hloads : reflect lib { s with onlyKnown := true } b.finish.schema exports v =
        (.ok c.finish, v') := by
      rw [reflect_eq, hagain]
    have hbound : ∀ n ∈ c.schema.names, Table.has c.endpoints n = true := by
      intro n hn
      rw [hc.schema, haligned] at hn
      rw [hc.bound]
      exact Table.has_iff.mpr hn
    obtain ⟨hschema, hdropped⟩ := Binding.finish_of_bound hbound
    have hsame : c.finish.schema = b.finish.schema := hschema.trans hc.schema
    refine ⟨c.finish, v', hloads, hsame, ?_, ((reflect_accounts hloads).closed rfl).1, hdropped⟩
    rw [← haligned, ← (reflect_aligned hloads).1, hsame]
  next => cases hr

/-! ### A module with a class that is one by what it does -/

/-- A library that counts how often its code is run, and gives every receiver a property. -/
def countsRuns : Library Unit Nat :=
  fun _ i w =>
    (.ok .undefined,
      { heap := match i.receiver with
          | .object id => w.heap.set id "x" .null
          | _ => w.heap
        state := w.state + 1 })

/-- A module that shows a function which gives its receiver a property, with a static function. -/
def pointModule : World Unit Nat :=
  ⟨{ objects := #[
      { kind := .ordinary, properties := [("Point", .plain (.object 1))] },
      { kind := .function ⟨"Point", 0, .ordinary, .library ()⟩,
        properties := [("at", .hidden (.object 3)), ("prototype", .hidden (.object 2))] },
      { kind := .ordinary },
      { kind := .function ⟨"at", 2, .arrow, .library ()⟩ }] }, 0⟩

theorem steady_countsRuns (h : Heap (Code Unit)) : countsRuns.Steady h := by
  intro f c code _ _
  constructor
  · exact ⟨none, fun w ext => ⟨rfl, ext⟩⟩
  · exact ⟨none, fun w ext => ⟨rfl, (ext.alloc _).modify ext.size_le _⟩⟩
  · refine ⟨true, fun w ext => ⟨?_, (ext.alloc _).modify ext.size_le _⟩⟩
    let o : Obj (Code Unit) := { kind := .ordinary }
    have hget : (((w.heap.alloc o).2.set w.heap.objects.size "x" .null).obj? w.heap.objects.size) =
        some { o with properties := [("x", .plain .null)] } := by
      show ((w.heap.objects.push o).modify _ _)[w.heap.objects.size]? = _
      rw [Array.getElem?_modify, if_pos rfl, Array.getElem?_push_size]
      rfl
    show (!(((w.heap.alloc o).2.set w.heap.objects.size "x" .null).entries
      w.heap.objects.size).isEmpty) = true
    rw [Heap.entries, Heap.properties, hget]
    rfl

theorem pointModule_repeats : ∃ loaded w',
    reflect countsRuns { ({} : Settings) with onlyKnown := false } .empty (.object 0) pointModule =
        (.ok loaded, w') ∧
      loaded.unbacked = 2 ∧ w'.state = 3 ∧
      pointModule.heap.Extends w'.heap ∧ ∃ again v',
        reflect countsRuns { ({} : Settings) with onlyKnown := true } loaded.schema (.object 0) w' =
            (.ok again, v') ∧
          again.schema = loaded.schema ∧
          Table.keys again.endpoints = Table.keys loaded.endpoints ∧
          again.unbacked = 0 ∧ again.dropped = [] := by
  have hrun : (reflect countsRuns { ({} : Settings) with onlyKnown := false } .empty (.object 0)
      pointModule).1.toOption.map Loaded.unbacked = some 2 ∧
      (reflect countsRuns { ({} : Settings) with onlyKnown := false } .empty (.object 0)
        pointModule).2.state = 3 := by
    decide +kernel
  obtain ⟨loaded, w', hr, hunbacked⟩ := exists_ok_of_map hrun.1
  have hclosed : pointModule.heap.Closed := by decide
  have hexports : pointModule.heap.Holds (.object 0) := by decide
  obtain ⟨ext, hagain⟩ := reflect_repeats hclosed hexports (steady_countsRuns _) hr
  rw [hr] at hrun
  exact ⟨loaded, w', hr, hunbacked, hrun.2, ext, hagain w' ext⟩

end ApiSurface.Reflect
