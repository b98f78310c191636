/-
# `ApiSurface.Proofs.Live.Patterns` — which patterns and flags make a regular expression

A pattern is looked through once, from the left: the number of open groups is counted, and a
character class is left at the first bracket that closes it.  What this accepts are the words of a
grammar in which groups hold patterns (`IsPattern`), nested to any depth.

Two facts tie the one to the other.  A pattern does not change what the rest of the text has to be,
whatever groups are open around it (`fault?_append`).  And a text without a fault of which `depth`
groups are open is a pattern, then a bracket that closes one of them, and so on until none is open
(`Closes`), which is the invariant of the way back (`closes_of_faultless`).

**Main result** (`run_regexp_iff`): the constructor throws a syntax error if the flags or the
pattern are none, and otherwise gives a regular expression with exactly this source and these flags.
-/
import ApiSurface.Proofs.Live.Extended
import ApiSurface.Live.Host

namespace ApiSurface.Live

namespace Pattern

/-! ## The grammar -/

/-- What may stand between the brackets of a character class: escaped characters, and others but
the escape and the closing bracket. -/
inductive IsClassBody : List Char → Prop
  | nil : IsClassBody []
  | escaped (c : Char) {r : List Char} (rest : IsClassBody r) : IsClassBody ('\\' :: c :: r)
  | single {c : Char} {r : List Char} (hc : c ∉ [']', '\\']) (rest : IsClassBody r) :
      IsClassBody (c :: r)

/-- A pattern: a sequence of escaped characters, character classes, groups with a pattern in them
and single characters. -/
inductive IsPattern : List Char → Prop
  | nil : IsPattern []
  | escaped (c : Char) {r : List Char} (rest : IsPattern r) : IsPattern ('\\' :: c :: r)
  | charClass {body r : List Char} (hbody : IsClassBody body) (rest : IsPattern r) :
      IsPattern ('[' :: (body ++ ']' :: r))
  | group {inner r : List Char} (hinner : IsPattern inner) (rest : IsPattern r) :
      IsPattern ('(' :: (inner ++ ')' :: r))
  | single {c : Char} {r : List Char} (hc : c ∉ ['\\', '[', '(', ')']) (rest : IsPattern r) :
      IsPattern (c :: r)

/-! ## Patterns have no fault -/

section

variable {c : Char} (depth : Nat) (r : List Char)

theorem fault?_single (hc : c ∉ ['\\', '[', '(', ')']) :
    fault? depth (c :: r) = fault? depth r := by
  simp only [List.mem_cons, List.not_mem_nil, or_false, not_or] at hc
  obtain ⟨hescape, hclass, hopen, hclose⟩ := hc
  rw [fault?] <;> simp_all

theorem classFault?_single (hc : c ∉ [']', '\\']) :
    classFault? depth (c :: r) = classFault? depth r := by
  simp only [List.mem_cons, List.not_mem_nil, or_false, not_or] at hc
  obtain ⟨hclose, hescape⟩ := hc
  rw [classFault?] <;> simp_all

end

theorem classFault?_append {body : List Char} (h : IsClassBody body) (depth : Nat)
    (r : List Char) : classFault? depth (body ++ ']' :: r) = fault? depth r := by
  induction h with
  | nil => rw [List.nil_append, classFault?]
  | escaped c _ ih => rw [List.cons_append, List.cons_append, classFault?, ih]
  | single hc _ ih => rw [List.cons_append, classFault?_single _ _ hc, ih]

/-- A pattern leaves it to the rest of the text whether there is a fault, and which. -/
theorem fault?_append {cs : List Char} (h : IsPattern cs) :
    ∀ (depth : Nat) (r : List Char), fault? depth (cs ++ r) = fault? depth r := by
  induction h with
  | nil => exact fun _ _ => rfl
  | escaped c _ ih =>
      intro depth r
      rw [List.cons_append, List.cons_append, fault?, ih]
  | charClass hbody _ ih =>
      intro depth r
      rw [List.cons_append, List.append_assoc, List.cons_append, fault?,
        classFault?_append hbody, ih]
  | group _ _ ihinner ih =>
      intro depth r
      rw [List.cons_append, List.append_assoc, List.cons_append, fault?, ihinner, fault?,
        if_neg (Nat.succ_ne_zero depth), Nat.add_sub_cancel, ih]
  | single hc _ ih =>
      intro depth r
      rw [List.cons_append, fault?_single _ _ hc, ih]

/-! ## What has no fault is a pattern -/

/-- A pattern, then as many times as groups are open a bracket that closes one and another
pattern. -/
def Closes : Nat → List Char → Prop
  | 0, cs => IsPattern cs
  | depth + 1, cs => ∃ inner rest, IsPattern inner ∧ cs = inner ++ ')' :: rest ∧ Closes depth rest

/-- What may be put in front of every pattern may be put in front of what closes groups. -/
theorem Closes.prepend (front : List Char) (hfront : ∀ r, IsPattern r → IsPattern (front ++ r)) :
    ∀ {depth : Nat} {r : List Char}, Closes depth r → Closes depth (front ++ r)
  | 0, r, h => hfront r h
  | _ + 1, _, ⟨inner, rest, hinner, heq, hrest⟩ =>
      ⟨front ++ inner, rest, hfront inner hinner, by rw [heq, List.append_assoc], hrest⟩

theorem Closes.group {depth : Nat} {r : List Char} (h : Closes (depth + 1) r) :
    Closes depth ('(' :: r) := by
  obtain ⟨inner, rest, hinner, rfl, hrest⟩ := h
  have hfront : ∀ r, IsPattern r → IsPattern (('(' :: (inner ++ [')'])) ++ r) := by
    intro r hr
    rw [List.cons_append, List.append_assoc]
    exact .group hinner hr
  have hall := hrest.prepend _ hfront
  rwa [List.cons_append, List.append_assoc] at hall

/-- What is left of a character class, the bracket that closes it, and what closes the groups. -/
def ClosesClass (depth : Nat) (cs : List Char) : Prop :=
  ∃ body rest, IsClassBody body ∧ cs = body ++ ']' :: rest ∧ Closes depth rest

theorem ClosesClass.charClass {depth : Nat} {r : List Char} (h : ClosesClass depth r) :
    Closes depth ('[' :: r) := by
  obtain ⟨body, rest, hbody, rfl, hrest⟩ := h
  have hfront : ∀ r, IsPattern r → IsPattern (('[' :: (body ++ [']'])) ++ r) := by
    intro r hr
    rw [List.cons_append, List.append_assoc]
    exact .charClass hbody hr
  have hall := hrest.prepend _ hfront
  rwa [List.cons_append, List.append_assoc] at hall

/-- The scanner outside of a character class and inside of one, along its own cases. -/
theorem closes_of_faultless :
    (∀ depth cs, fault? depth cs = none → Closes depth cs) ∧
      ∀ depth cs, classFault? depth cs = none → ClosesClass depth cs := by
  refine fault?.mutual_induct _ _ ?done ?groupOpen ?trailing ?escaped ?classOpens ?groupOpens
    ?unmatched ?groupCloses ?single ?classOpen ?classTrailing ?classEscaped ?classCloses
    ?classSingle
  case done => exact fun _ => .nil
  case groupOpen =>
      intro depth hdepth h
      rw [fault?, if_neg hdepth] at h
      cases h
  case trailing =>
      intro depth h
      rw [fault?] at h
      cases h
  case escaped =>
      intro depth c r ih h
      rw [fault?] at h
      exact (ih h).prepend ['\\', c] fun _ hr => .escaped c hr
  case classOpens =>
      intro depth r ih h
      rw [fault?] at h
      exact (ih h).charClass
  case groupOpens =>
      intro depth r ih h
      rw [fault?] at h
      exact (ih h).group
  case unmatched =>
      intro r h
      rw [fault?, if_pos rfl] at h
      cases h
  case groupCloses =>
      intro depth r hdepth ih h
      rw [fault?, if_neg hdepth] at h
      obtain ⟨outer, rfl⟩ := Nat.exists_eq_succ_of_ne_zero hdepth
      exact ⟨[], r, .nil, rfl, ih h⟩
  case single =>
      intro depth c r htrailing hescape hclass hopen hclose ih h
      have hc : c ∉ ['\\', '[', '(', ')'] := by
        cases r <;> simp_all
      rw [fault?_single _ _ hc] at h
      exact (ih h).prepend [c] fun _ hr => .single hc hr
  case classOpen =>
      intro depth h
      rw [classFault?] at h
      cases h
  case classTrailing =>
      intro depth h
      rw [classFault?] at h
      cases h
  case classEscaped =>
      intro depth c r ih h
      rw [classFault?] at h
      obtain ⟨body, rest, hbody, rfl, hrest⟩ := ih h
      exact ⟨'\\' :: c :: body, rest, .escaped c hbody, rfl, hrest⟩
  case classCloses =>
      intro depth r ih h
      rw [classFault?] at h
      exact ⟨[], r, .nil, rfl, ih h⟩
  case classSingle =>
      intro depth c r htrailing hescape hclose ih h
      have hc : c ∉ [']', '\\'] := by
        cases r <;> simp_all
      rw [classFault?_single _ _ hc] at h
      obtain ⟨body, rest, hbody, rfl, hrest⟩ := ih h
      exact ⟨c :: body, rest, .single hc hbody, rfl, hrest⟩

/-- **The texts without a fault are the patterns.** -/
theorem fault?_eq_none_iff {cs : List Char} : fault? 0 cs = none ↔ IsPattern cs := by
  constructor
  · exact closes_of_faultless.1 0 cs
  · intro h
    rw [← List.append_nil cs, fault?_append h, fault?, if_pos rfl]

/-- A bracket in a character class opens and closes no group. -/
example : fault? 0 "(a[)]|\\))".toList = none ∧
    fault? 0 "(a[)]".toList = some .unclosedGroup := by decide

/-! ## Flags -/

/-- Flags are different letters of the eight. -/
def AreFlags (cs : List Char) : Prop :=
  cs.Nodup ∧ ∀ c ∈ cs, c ∈ "dgimsuvy".toList

theorem validFlags_iff {cs : List Char} : validFlags cs = true ↔ AreFlags cs := by
  induction cs with
  | nil => exact iff_of_true rfl ⟨.nil, nofun⟩
  | cons c r ih =>
      have hletters : flagLetters = "dgimsuvy".toList := by decide
      rw [validFlags, Bool.and_eq_true, Bool.and_eq_true, ih, AreFlags, AreFlags, ← hletters,
        List.nodup_cons, List.forall_mem_cons, List.contains_iff_mem, Bool.not_eq_true',
        ← Bool.not_eq_true, List.contains_iff_mem]
      tauto

end Pattern

/-! ## The constructor -/

section

variable {β σ : Type}

/-- An action ends with a fresh error of the name. -/
def ThrowsError (name : ErrorName) (w : World β σ) (r : Except Value Value × World β σ) : Prop :=
  ∃ id message, r.1 = .error (.object id) ∧ w.heap.objects.size ≤ id ∧
    r.2.heap.error? (.object id) = some (name, message)

/-- An action ends with a fresh object. -/
def GivesObject (o : Obj (Code β)) (w : World β σ) (r : Except Value Value × World β σ) : Prop :=
  ∃ id, r.1 = .ok (.object id) ∧ w.heap.objects.size ≤ id ∧ r.2.heap.obj? id = some o

theorem not_givesObject_of_throwsError {name : ErrorName} {o : Obj (Code β)} {w : World β σ}
    {r : Except Value Value × World β σ} (h : ThrowsError name w r) : ¬ GivesObject o w r := by
  rintro ⟨id, hok, -⟩
  obtain ⟨id', message, herror, -⟩ := h
  cases hok.symm.trans herror

theorem throwsError_raise (name : ErrorName) (message : String) (w : World β σ) :
    ThrowsError name w ((Action.raise name message : Action β σ Value Value) w) := by
  refine ⟨w.heap.objects.size, message, rfl, Nat.le_refl _, ?_⟩
  have ho := w.heap.obj?_alloc
    { kind := .error name message, properties := Building.errorProperties name message }
  show Heap.error? (w.heap.alloc _).2 _ = _
  rw [Heap.error?, Value.object?, Option.bind_some, ho]

theorem givesObject_giveObject (o : Obj (Code β)) (w : World β σ) :
    GivesObject o w ((HostCode.giveObject o : Action β σ Value Value) w) :=
  ⟨w.heap.objects.size, rfl, Nat.le_refl _, w.heap.obj?_alloc o⟩

/-- The regular expression that a call makes. -/
def regexpObject (source flags : String) (i : Invocation) (w : World β σ) : Obj (Code β) :=
  { kind := .regexp source flags, prototype := HostCode.receiverPrototype w.heap i }

variable (receiver : Value) (source flags : String) (rest : List Value) (constructs : Bool)
  (w : World β σ)

/-- The constructor looks at the flags first, then at the pattern. -/
theorem run_regexp_eq : HostCode.run ⟨receiver, .string source :: .string flags :: rest, constructs⟩
    .regexp w =
      if Pattern.validFlags flags.toList then
        match Pattern.fault? 0 source.toList with
        | some f => (Action.raise .syntaxError
            ("Invalid regular expression: /" ++ source ++ "/" ++ flags ++ ": " ++ f.message) :
              Action β σ Value Value) w
        | none => (HostCode.giveObject (regexpObject source flags
            ⟨receiver, .string source :: .string flags :: rest, constructs⟩ w) :
              Action β σ Value Value) w
      else (Action.raise .syntaxError
        ("Invalid flags supplied to RegExp constructor '" ++ flags ++ "'") :
          Action β σ Value Value) w := by
  show (if !Pattern.validFlags flags.toList then _ else _ : Action β σ Value Value) w = _
  cases Pattern.validFlags flags.toList with
  | false => rfl
  | true =>
      show (match Pattern.fault? 0 source.toList with
        | some f => _
        | none => _ : Action β σ Value Value) w = _
      cases Pattern.fault? 0 source.toList <;> rfl

/-- **The constructor throws a syntax error if the flags or the pattern are none, and otherwise it
gives a regular expression with this source and these flags.** -/
theorem run_regexp_iff :
    let i : Invocation := ⟨receiver, .string source :: .string flags :: rest, constructs⟩
    let sound := Pattern.AreFlags flags.toList ∧ Pattern.IsPattern source.toList
    (ThrowsError .syntaxError w (HostCode.run i .regexp w) ↔ ¬ sound) ∧
      (GivesObject (regexpObject source flags i w) w (HostCode.run i .regexp w) ↔ sound) := by
  intro i sound
  have hrun := run_regexp_eq receiver source flags rest constructs w
  have hgives : sound →
      GivesObject (regexpObject source flags i w) w (HostCode.run i .regexp w) := by
    rintro ⟨hflags, hpattern⟩
    rw [hrun, if_pos (Pattern.validFlags_iff.mpr hflags), Pattern.fault?_eq_none_iff.mpr hpattern]
    exact givesObject_giveObject _ w
  have hthrows : ¬ sound → ThrowsError .syntaxError w (HostCode.run i .regexp w) := by
    intro hnot
    rw [hrun]
    split
    next hflags =>
      split
      · exact throwsError_raise _ _ w
      next hpattern =>
        exact absurd ⟨Pattern.validFlags_iff.mp hflags, Pattern.fault?_eq_none_iff.mp hpattern⟩ hnot
    · exact throwsError_raise _ _ w
  refine ⟨⟨fun h hsound => not_givesObject_of_throwsError h (hgives hsound), hthrows⟩,
    ⟨fun h => ?_, hgives⟩⟩
  by_contra hnot
  exact not_givesObject_of_throwsError (hthrows hnot) h

end

end ApiSurface.Live
