/-
# `ApiSurface.Proofs.Reflect.Returns` — reflecting on a module comes to an end

Exports may contain themselves, and a class may be its own static function.  The walk over them has
no set of what it has seen, and binding a function and binding its static functions call each other
without counting how deep they are.

**Main result** (`unbounded_reflect_eq`): if chains of prototypes come to an end in every world that
reflecting may come to, then the walk without bounds comes to an end, with what the walk with bounds
gives; whatever the module, the schema and the settings are.

Objects are gone into by counting, so that exports inside themselves do no harm.  What stops a class
inside itself is its name.  Only a class that the schema knows is followed, each one has a longer
name than the one before, and the walk below it adds no classes to the schema; so as many levels are
enough as the longest name of a class is longer (`Enough`).
-/
import ApiSurface.Proofs.Reflect.Methods
import ApiSurface.Proofs.Reflect.Repeated
import ApiSurface.Proofs.Reflect.Tried
import ApiSurface.Proofs.Run.Precheck

namespace ApiSurface.Reflect

open Live

variable {β σ α γ : Type} {lib : Library β σ} {s : Settings} {exports : Value} {w₀ w : World β σ}

/-! ## Steps of binding -/

/-- Wherever the predicate holds, a step of binding that may not come to an end does: it does what
another step does with the binding, and the predicate still holds. -/
def Agrees (P : World β σ → Prop) (b : Binding) (t : Unbounded.Walk β σ α) (m : Mapping β σ α) :
    Prop :=
  Ends P (t b) (m b)

namespace Agrees

variable {P : World β σ → Prop} {b : Binding} {t : Unbounded.Walk β σ α} {m : Mapping β σ α}

theorem of (hm : ∀ w, P w → P (m b w).2) : Agrees P b (.of m) m :=
  Ends.of hm

theorem pure (a : α) : Agrees P b (pure a) (pure a) :=
  Ends.pure (Except.ok (a, b))

theorem bind {t' : α → Unbounded.Walk β σ γ} {m' : α → Mapping β σ γ} (ht : Agrees P b t m)
    (ht' : ∀ w a b' w', m b w = (.ok (a, b'), w') → Agrees P b' (t' a) (m' a)) :
    Agrees P b (t >>= t') (m >>= m') := by
  intro w hw
  obtain ⟨heq, hw'⟩ := ht w hw
  rw [Unbounded.Walk.bind_eq heq, mapping_bind_eq]
  rcases hrun : m b w with ⟨c | ⟨a, b'⟩, w'⟩
  · rw [hrun] at hw'
    exact ⟨rfl, hw'⟩
  · rw [hrun] at hw'
    exact ht' w a b' w' hrun w' hw'

/-- The heap is read. -/
theorem bind_heap {t' : Heap (Code β) → Unbounded.Walk β σ α} {m' : Heap (Code β) → Mapping β σ α}
    (ht' : ∀ w, P w → Agrees P b (t' w.heap) (m' w.heap)) :
    Agrees P b (.of Mapping.heap >>= t') (Mapping.heap >>= m') :=
  fun w hw => ht' w hw w hw

/-- The binding is read. -/
theorem bind_get {m' : Binding → Mapping β σ α} (ht : Agrees P b t (m' b)) :
    Agrees P b t (get >>= m') :=
  ht

/-- The convention of a name is read. -/
theorem bind_known {name : String} {t' : Option Convention → Unbounded.Walk β σ α}
    {m' : Option Convention → Mapping β σ α}
    (ht' : Agrees P b (t' ((b.schema.find? name).map Entry.convention))
      (m' ((b.schema.find? name).map Entry.convention))) :
    Agrees P b (.of (Mapping.known? name) >>= t') (Mapping.known? name >>= m') :=
  fun w hw => ht' w hw

/-- Steps for all items of a list, if each of them keeps what the others need. -/
theorem forM {l : List α} {t' : α → Unbounded.Walk β σ Unit} {m' : α → Mapping β σ Unit}
    {I : Binding → Prop} (hkeeps : ∀ a b, Maintains I b (m' a))
    (ht' : ∀ a ∈ l, ∀ b, I b → Agrees P b (t' a) (m' a)) :
    ∀ b, I b → Agrees P b (l.forM t') (l.forM m') := by
  induction l with
  | nil => exact fun b _ => pure ()
  | cons a l ih =>
      intro b hb
      refine (ht' a List.mem_cons_self b hb).bind fun w _ b' w' hrun => ?_
      exact ih (fun a ha => ht' a (List.mem_cons_of_mem _ ha)) b' (hkeeps a b w _ b' w' hb hrun)

end Agrees

/-! ## The walk -/

theorem snd_forM {l : List α} {m : α → Mapping β σ Unit} (hm : ∀ a b w, (m a b w).2 = w) :
    ∀ b w, (l.forM m b w).2 = w := by
  induction l with
  | nil => exact fun _ _ => rfl
  | cons a l ih =>
      intro b w
      change ((m a >>= fun _ => l.forM m) b w).2 = w
      rw [mapping_bind_eq]
      have hfirst := hm a b w
      split
      next u b' w' hrun =>
        rw [hrun] at hfirst
        rw [ih b' w', ← hfirst]
      next c w' hrun =>
        rw [hrun] at hfirst
        exact hfirst

theorem mapMethod_snd (s : Settings) (C : String) (m : String × Value) (b : Binding)
    (w : World β σ) : (mapMethod s C m b w).2 = w := by
  rw [mapMethod_eq]
  split
  · rfl
  · split
    · split <;> rfl
    · split <;> rfl

theorem mapHostValue_snd (s : Settings) (p : String × Value) (b : Binding) (w : World β σ) :
    (mapHostValue s p b w).2 = w := by
  by_cases hskip : s.skipped.contains p.1 = true
  · rw [mapHostValue, if_pos hskip]
    rfl
  · rw [mapHostValue_eq hskip]

section Walk

variable (hstay : ∀ w, Met lib exports w₀ w → w.heap.Grounded) {f : Value} {b : Binding}

include hstay

theorem agrees_isConstructor (hf : Found lib exports w₀ f) :
    Agrees (Met lib exports w₀) b (Unbounded.isConstructor lib f)
      (Mapping.isConstructor lib f) := by
  intro w met
  obtain ⟨heq, met'⟩ := ends_classify hstay hf w met
  refine ⟨?_, met'⟩
  rw [Unbounded.isConstructor, heq]
  rfl

theorem agrees_mapMethods (className : String) (f : Value) :
    Agrees (Met lib exports w₀) b (Unbounded.mapMethods s className f)
      (mapMethods s className f) := by
  refine .bind_heap fun w met => ?_
  rw [Unbounded.Walk.bind_lift (Unbounded.instanceMethods_eq (hstay w met) f)]
  refine .forM (I := fun _ => True) (fun _ _ _ _ _ _ _ _ => trivial) (fun m _ b _ => ?_) b trivial
  exact .of fun w met => (mapMethod_snd s className m b w).symm ▸ met

omit hstay in
/-- A static function is bound in the same way if a class that the schema knows is. -/
theorem agrees_mapStatic {nested : String → Value → Mapping β σ Unit} (className : String)
    {m : String × Value}
    (hnested : ∀ name e, name = className ++ "." ++ m.1 → b.schema.find? name = some e →
      e.convention = .constructor →
      Agrees (Met lib exports w₀) b (Unbounded.mapNamed ⟨lib, s⟩ name m.2) (nested name m.2)) :
    Agrees (Met lib exports w₀) b (Unbounded.mapStatic ⟨lib, s⟩ className m)
      (mapStatic nested s className m) := by
  rw [Unbounded.mapStatic]
  unfold mapStatic
  extract_lets name
  split
  · exact .pure ()
  · refine .bind_known ?_
    cases hfind : b.schema.find? name with
    | some e =>
        rw [Option.map_some]
        cases hconvention : e.convention with
        | method => exact .pure ()
        | free => exact .of fun w met => met
        | constructor => exact hnested name e rfl hfind hconvention
    | none =>
        rw [Option.map_none]
        dsimp only
        split
        · exact .pure ()
        · exact .of fun w met => met

omit hstay in
theorem agrees_mapStatics {I : Binding → Prop} {nested : String → Value → Mapping β σ Unit}
    (className : String) (hf : Found lib exports w₀ f)
    (hI : ∀ m b, Maintains I b (mapStatic nested s className m))
    (hnested : ∀ name v b e, className.length < name.length → Found lib exports w₀ v → I b →
      b.schema.find? name = some e → e.convention = .constructor →
      Agrees (Met lib exports w₀) b (Unbounded.mapNamed ⟨lib, s⟩ name v) (nested name v))
    (hb : I b) :
    Agrees (Met lib exports w₀) b (Unbounded.mapStatics ⟨lib, s⟩ className f)
      (mapStatics nested s className f) := by
  unfold Unbounded.mapStatics
  cases f with
  | object id =>
      refine .bind_heap fun w met => ?_
      refine .forM hI (fun m hm b hb => ?_) b hb
      refine agrees_mapStatic className ?_
      rintro name e rfl hfind hconvention
      have hlonger : className.length < (className ++ "." ++ m.1).length := by
        rw [String.length_append, String.length_append]
        exact Nat.lt_of_lt_of_le (Nat.lt_succ_self _) (Nat.le_add_right _ _)
      exact hnested _ m.2 b e hlonger (hf.of_ownMethods met hm) hb hfind hconvention
  | _ => exact .pure ()

/-- **A function is bound under a name in the same way**, if there are enough levels for the classes
that the schema knows. -/
theorem agrees_mapNamed (fuel : Nat) : ∀ (name : String) (f : Value) (b : Binding), 0 < fuel →
    Enough fuel name b.schema → Found lib exports w₀ f →
    Agrees (Met lib exports w₀) b (Unbounded.mapNamed ⟨lib, s⟩ name f)
      (mapNamed lib s fuel name f) := by
  induction fuel with
  | zero => exact fun _ _ _ hno => absurd hno (Nat.lt_irrefl 0)
  | succ fuel ih =>
      intro name f b _ hb hf
      have hkept := kept_enough (fuel + 1) name
      have hwalk := walkClosed_maintains lib s hkept
      have hmembers : ∀ (constructs : Bool) (b' : Binding), Enough (fuel + 1) name b'.schema →
          Agrees (Met lib exports w₀) b'
            (if constructs then do
              Unbounded.mapMethods s name f
              Unbounded.mapStatics ⟨lib, s⟩ name f
            else pure ())
            (if constructs then do
              mapMethods s name f
              mapStatics (mapNamed lib s fuel) s name f
            else pure ()) := by
        intro constructs b' hb'
        split
        · refine (agrees_mapMethods hstay name f).bind fun w u b'' w' hrun => ?_
          have hb'' : Enough (fuel + 1) name b''.schema :=
            hwalk.mapMethods (members_shallow name) w.heap name f b' w u b'' w' hb' hrun
          refine agrees_mapStatics (I := fun b => Enough (fuel + 1) name b.schema) name hf
            (fun m b => ?_) (fun n v b e hlonger hv hb hfind hconstructor => ?_) hb''
          · exact hwalk.mapStatic_mapNamed (h := w.heap) (members_shallow name) fuel name trivial b
          · obtain ⟨hpos, henough⟩ := hb.nested hlonger hfind hconstructor
            exact ih n v b hpos henough hv
        · exact .pure ()
      rw [Unbounded.mapNamed, mapNamed]
      split
      · exact .pure ()
      refine .bind_known ?_
      split
      · exact .pure ()
      extract_lets found found'
      have hfound : ∀ constructs, Agrees (Met lib exports w₀) b (found constructs)
          (found' constructs) := by
        intro constructs
        have hbound := hkept.bound b name f hb
        refine .bind (.of fun w met => met) fun w u b' w' hrun => ?_
        cases hrun
        extract_lets rest rest'
        cases hfind : b.schema.find? name with
        | some e => exact hmembers constructs _ hbound
        | none =>
            refine .bind_heap fun w met => .bind (.of fun w met => met) fun w u b' w' hrun => ?_
            cases hrun
            refine hmembers constructs _ (hkept.added _ name _ hfind ?_ hbound)
            exact shallow_admittedEntry name _ constructs
      split
      · exact hfound true
      · refine (agrees_isConstructor hstay hf).bind fun w constructs b' w' hrun => ?_
        cases hrun
        exact hfound _

theorem agrees_mapFunction (start : String) (key : Option String)
    (hf : Found lib exports w₀ f) :
    Agrees (Met lib exports w₀) b (Unbounded.mapFunction ⟨lib, s⟩ start f key)
      (mapFunction lib s start f key) := by
  refine .bind_heap fun w met => ?_
  cases w.heap.callable? f with
  | none => exact .pure ()
  | some c =>
      refine .bind_get ?_
      exact agrees_mapNamed hstay _ _ f b (Nat.succ_pos _) (enough_staticFuel _ _) hf

/-- **Objects are gone into in the same way**, by counting up to the greatest depth and by counting
down what is left of it. -/
theorem agrees_mapObject (left : Nat) : ∀ (depth : Nat) (start : String) (id : Nat) (b : Binding),
    s.maxDepth = depth + left → Found lib exports w₀ (.object id) →
    Agrees (Met lib exports w₀) b (Unbounded.mapObject ⟨lib, s⟩ depth start id)
      (mapObject lib s left start id) := by
  induction left with
  | zero =>
      intro depth start id b hdepth _
      have hall : s.maxDepth ≤ depth := hdepth.le
      rw [Unbounded.mapObject, if_pos hall]
      exact .pure ()
  | succ left ih =>
      intro depth start id b hdepth hid
      have hmore : ¬s.maxDepth ≤ depth := by omega
      rw [Unbounded.mapObject, if_neg hmore]
      refine .bind_heap fun w met => ?_
      refine .forM (I := fun _ => True) (fun _ _ _ _ _ _ _ _ => trivial) (fun p hp b _ => ?_) b
        trivial
      have hvalue := hid.of_entries met hp
      refine .bind_heap fun w₁ met₁ => ?_
      split
      · exact agrees_mapFunction hstay start (some p.1) hvalue
      · cases hnested : p.2 with
        | object nested =>
            rw [hnested] at hvalue
            exact ih _ _ nested b (by omega) hvalue
        | _ => exact .pure ()

omit hstay in
/-- An object that the exports are mapped from is found. -/
theorem found_main (met : Met lib exports w₀ w) {id : Nat}
    (hmain : (defaultExport? w.heap exports).getD exports = .object id) :
    Found lib exports w₀ (.object id) := by
  cases exports with
  | object e =>
      rw [defaultExport?] at hmain
      split at hmain
      next hdefault =>
        rw [Bool.and_eq_true] at hdefault
        obtain ⟨p, hp⟩ := Option.isSome_iff_exists.mp hdefault.2
        rw [Option.getD_some, Heap.get_of_own? hp] at hmain
        refine .property .exports met (Table.mem_of_find? hp) ?_
        cases hvalue : p.value? with
        | some v => rw [← hmain, hvalue, Option.getD_some]
        | none =>
            rw [hvalue] at hmain
            cases hmain
      next =>
        cases hmain
        exact .exports
  | _ => cases hmain

theorem agrees_mapExports :
    Agrees (Met lib exports w₀) b (Unbounded.mapExports ⟨lib, s⟩ exports)
      (mapExports lib s exports) := by
  refine .bind_heap fun w met => ?_
  rw [Unbounded.Walk.bind_lift (Unbounded.defaultExport_eq (hstay w met) exports)]
  have hfound : ∀ id, (defaultExport? w.heap exports).getD exports = .object id →
      Found lib exports w₀ (.object id) := fun id => found_main met
  generalize (defaultExport? w.heap exports).getD exports = main at hfound ⊢
  cases main with
  | object id =>
      have hid := hfound id rfl
      have hwalk := fun b => agrees_mapObject (s := s) hstay _ 0 "" id b (Nat.zero_add _).symm hid
      extract_lets main walk walk'
      split
      · exact (agrees_mapFunction hstay "" none hid).bind fun _ _ b' _ _ => hwalk b'
      · exact hwalk b
  | _ => exact .pure ()

end Walk

theorem mapHost_snd (s : Settings) (b : Binding) (w : World β σ) :
    (mapHost s b w).2 = { w with heap := (Building.host w.heap).2 } :=
  snd_forM (l := (Building.host w.heap).1) (mapHostValue_snd s) b
    { w with heap := (Building.host w.heap).2 }

/-- **Reflecting on a module comes to an end.** -/
theorem unbounded_reflect_eq {w : World β σ} (given : Schema)
    (hstay : ∀ w', Met lib exports w w' → w'.heap.Grounded) :
    Unbounded.reflect lib s given exports w = some (reflect lib s given exports w) := by
  have hworld := mapHost_snd s { schema := given } w
  have hrun : (.of (mapHost s) >>= fun _ => Unbounded.mapExports ⟨lib, s⟩ exports :
      Unbounded.Walk β σ Unit) { schema := given } w =
        some ((mapHost s >>= fun _ => mapExports lib s exports) { schema := given } w) := by
    rw [Unbounded.Walk.bind_eq rfl, mapping_bind_eq]
    rcases hhost : mapHost s { schema := given } w with ⟨c | ⟨u, b⟩, w'⟩
    · rfl
    · rw [hhost] at hworld
      obtain rfl : w' = { w with heap := (Building.host w.heap).2 } := hworld
      exact (agrees_mapExports hstay _ .start).1
  rw [Unbounded.reflect, reflect_eq]
  change (_ : Option _).bind _ = _
  rw [hrun]
  rcases (mapHost s >>= fun _ => mapExports lib s exports) { schema := given } w with
    ⟨c | ⟨u, b⟩, w'⟩ <;> rfl

theorem settles_returnsNothing : Run.returnsNothing.Settles :=
  fun _ _ _ _ _ hw => hw

/-- Exports that show themselves and a class that is its own static function. -/
def circularModule : World Unit Unit :=
  ⟨{ objects := #[
      { kind := .ordinary,
        properties := [("A", .plain (.object 1)), ("self", .plain (.object 0))] },
      { kind := .function ⟨"A", 0, .ofClass, .library ()⟩,
        properties := [("A", .plain (.object 1)), ("prototype", .hidden (.object 3))] },
      { kind := .ordinary, properties := [("close", .hidden (.object 4))] },
      { kind := .ordinary, prototype := some 2 },
      { kind := .function ⟨"close", 0, .arrow, .library ()⟩ }] }, ()⟩

/-- A schema that knows the class, and knows it inside itself. -/
def circularSchema : Schema :=
  (Schema.empty.insert "A" (unknownConstructor "A" 0)).insert "A.A" (unknownConstructor "A.A" 0)

theorem circularModule_returns :
    (∀ w', Met Run.returnsNothing (.object 0) circularModule w' → w'.heap.Grounded) ∧
      ∃ loaded w', Unbounded.reflect Run.returnsNothing {} circularSchema (.object 0)
          circularModule = some (.ok loaded, w') ∧
        Table.has loaded.endpoints "A.A.close" = true := by
  have hstart : (Building.host circularModule.heap).2.Settled :=
    ⟨by decide +kernel, Heap.grounded_of_older (by decide +kernel)⟩
  have hstay : ∀ w', Met Run.returnsNothing (.object 0) circularModule w' → w'.heap.Grounded :=
    fun w' met => (met.settled settles_returnsNothing hstart).grounded
  have hbound : (reflect Run.returnsNothing {} circularSchema (.object 0)
      circularModule).1.toOption.map (fun loaded => Table.has loaded.endpoints "A.A.close") =
        some true := by
    decide +kernel
  have heq := unbounded_reflect_eq (s := {}) circularSchema hstay
  obtain ⟨loaded, w', hrun, hclose⟩ := exists_ok_of_map hbound
  rw [hrun] at heq
  exact ⟨hstay, loaded, w', heq, hclose⟩

end ApiSurface.Reflect
