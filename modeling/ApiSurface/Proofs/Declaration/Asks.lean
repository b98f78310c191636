/-
# `ApiSurface.Proofs.Declaration.Asks` — what a computation asks a converter for

The functions of the conversion take the converter for nested types as an argument.  Which nested
types they ask it for, and in which places, does not depend on what it answers: a computation makes
the same requests whatever the answers are, and it has an answer exactly when all of the requests
have one (`Follows`).  The guesses bound to type parameters do not matter either, only their names
do, so a request keeps the names alone, and what is proved of a computation is proved at once for
all the environments with the same names (`Asks`).
-/
import ApiSurface.Proofs.Declaration.Hereditary

namespace ApiSurface.Declaration

/-- The scope of a place and the names that are bound there. -/
abbrev Outline := Nat × List String

/-- A type at the scope and under the names of an outline. -/
def Outline.at (o : Outline) (ty : TypeExpr) : Place :=
  ⟨o.1, o.2, ty⟩

/-- What an environment says about the place of a type. -/
def Env.outline (env : Env) : Outline :=
  (env.scope, Table.keys env.bindings)

/-- What a converter is asked for: the declarations being expanded, and the type with its place. -/
structure Request where
  active : List DeclKey
  place : Place

/-- A conversion has an answer. -/
def Conversion.Ends {α : Type} (x : Conversion α) : Prop :=
  ∃ a refs, x = some (a, refs)

/-- Whether a converter has an answer does not depend on the guesses that are bound. -/
def Uniform (conv : Converter) : Prop :=
  ∀ active env env' ty, env.outline = env'.outline → (conv active env ty).Ends →
    (conv active env' ty).Ends

/-- The converter has an answer to a request, whatever guesses are bound. -/
def Answers (conv : Converter) (t : Request) : Prop :=
  ∀ env, env.outline.at t.place.type = t.place → (conv t.active env t.place.type).Ends

/-- Wherever the first converter has an answer, the second one has the same. -/
def Refines (conv conv' : Converter) : Prop :=
  ∀ active env ty r, conv active env ty = some r → conv' active env ty = some r

/-- Whatever the converter answers, the computation asks it for the requests in `N`; it has an
answer exactly when they all have one, and the answer has the property `P`. -/
structure Follows {α : Type} (N : Request → Prop) (P : α → Prop) (F : Converter → Conversion α) :
    Prop where
  ends_iff : ∀ conv, Uniform conv → ((F conv).Ends ↔ ∀ t, N t → Answers conv t)
  gives : ∀ conv a refs, F conv = some (a, refs) → P a
  refines : ∀ conv conv', Refines conv conv' → ∀ r, F conv = some r → F conv' = some r

/-- The computations of a family all make the same requests, which are among those in `U`. -/
def Asks {ι α : Type} (U : Request → Prop) (P : α → Prop) (X : ι → Converter → Conversion α) :
    Prop :=
  ∃ N : Request → Prop, (∀ t, N t → U t) ∧ ∀ i, Follows N P (X i)

/-! ## Names in tables -/

theorem keys_insert_congr {α β : Type} {t : List (String × α)} {t' : List (String × β)}
    (h : Table.keys t = Table.keys t') (name : String) (a : α) (b : β) :
    Table.keys (Table.insert t name a) = Table.keys (Table.insert t' name b) := by
  induction t generalizing t' with
  | nil =>
      cases t' with
      | nil => rfl
      | cons p t' => cases h
  | cons p t ih =>
      cases t' with
      | nil => cases h
      | cons p' t' =>
          obtain ⟨k, x⟩ := p
          obtain ⟨k', x'⟩ := p'
          obtain ⟨hk, ht⟩ := List.cons.inj h
          simp only at hk
          subst hk
          have ht : Table.keys t = Table.keys t' := ht
          simp only [Table.insert]
          split
          · exact congrArg (name :: k :: ·) ht
          · exact congrArg (name :: ·) ht
          · exact congrArg (k :: ·) (ih ht)

theorem keys_ofList_congr {α β : Type} {l : List (String × α)} {l' : List (String × β)}
    (h : l.map Prod.fst = l'.map Prod.fst) :
    Table.keys (Table.ofList l) = Table.keys (Table.ofList l') := by
  have hfold : ∀ (l : List (String × α)) (l' : List (String × β)) (t : List (String × α))
      (t' : List (String × β)), l.map Prod.fst = l'.map Prod.fst → Table.keys t = Table.keys t' →
        Table.keys (l.foldl (fun t p => Table.insert t p.1 p.2) t) =
          Table.keys (l'.foldl (fun t p => Table.insert t p.1 p.2) t') := by
    intro l
    induction l with
    | nil =>
        intro l' t t' hl ht
        cases l' with
        | nil => exact ht
        | cons p l' => cases hl
    | cons p l ih =>
        intro l' t t' hl ht
        cases l' with
        | nil => cases hl
        | cons p' l' =>
            obtain ⟨hk, hl⟩ := List.cons.inj hl
            rw [List.foldl_cons, List.foldl_cons, ← hk]
            exact ih l' _ _ hl (keys_insert_congr ht _ _ _)
  exact hfold l l' [] [] h rfl

/-! ## Rules -/

theorem Conversion.ends_bind {α β : Type} {x : Conversion α} {f : α → Conversion β} :
    (x >>= f).Ends ↔ ∃ a refs, x = some (a, refs) ∧ (f a).Ends := by
  constructor
  · rintro ⟨b, refs, h⟩
    obtain ⟨a, first, more, hx, hf, -⟩ := bind_eq_some_iff.mp h
    exact ⟨a, first, hx, b, more, hf⟩
  · rintro ⟨a, first, hx, b, more, hf⟩
    exact ⟨b, first ++ more, bind_eq_some_iff.mpr ⟨a, first, more, hx, hf, rfl⟩⟩

namespace Asks

variable {ι α β : Type} {U : Request → Prop}

/-- A computation without requests. -/
theorem const {x : ι → Conversion α} {P : α → Prop}
    (h : ∀ i, ∃ a refs, x i = some (a, refs) ∧ P a) : Asks U P fun i _ => x i := by
  refine ⟨fun _ => False, fun _ => False.elim, fun i => ?_⟩
  obtain ⟨a, refs, hx, ha⟩ := h i
  refine ⟨fun conv _ => ⟨fun _ _ => False.elim, fun _ => ⟨a, refs, hx⟩⟩, ?_, fun _ _ _ r h => h⟩
  intro conv b refs' heq
  cases hx.symm.trans heq
  exact ha

theorem pure {a : ι → α} {P : α → Prop} (h : ∀ i, P (a i)) :
    Asks U P fun i _ => (Pure.pure (a i) : Conversion α) :=
  const fun i => ⟨a i, [], rfl, h i⟩

theorem congr {X Y : ι → Converter → Conversion α} {P : α → Prop} (hY : Asks U P Y)
    (h : ∀ i conv, X i conv = Y i conv) : Asks U P X := by
  have heq : X = Y := funext fun i => funext fun conv => h i conv
  exact heq ▸ hY

theorem of_pure {X : ι → Converter → Conversion α} {P : α → Prop} (a : ι → α)
    (hX : ∀ i conv, X i conv = Pure.pure (a i)) (h : ∀ i, P (a i)) : Asks U P X :=
  (pure h).congr hX

/-- A single request. -/
theorem ask {active : List DeclKey} {ty : TypeExpr} {o : Outline} (h : U ⟨active, o.at ty⟩) :
    Asks U (fun _ => True) fun (env : {env : Env // env.outline = o}) conv =>
      conv active env ty := by
  refine ⟨fun t => t = ⟨active, o.at ty⟩, fun t ht => ht ▸ h, fun ⟨env, henv⟩ =>
    ⟨fun conv huniform => ?_, fun _ _ _ _ => trivial, fun conv conv' hsub r hr => hsub _ _ _ r hr⟩⟩
  constructor
  · rintro hends t rfl env' henv'
    refine huniform active env env' ty ?_ hends
    obtain ⟨hscope, hbound, -⟩ := Place.mk.inj henv'
    exact henv.trans (Prod.ext hscope hbound).symm
  · intro hall
    exact hall _ rfl env (henv ▸ rfl)

theorem bind {X : ι → Converter → Conversion α} {P : α → Prop}
    {G : ι → α → Converter → Conversion β} {Q : β → Prop} (hX : Asks U P X)
    (hG : Asks U Q fun (p : ι × {a // P a}) conv => G p.1 p.2 conv) :
    Asks U Q fun i conv => X i conv >>= fun a => G i a conv := by
  obtain ⟨N, hN, hX⟩ := hX
  obtain ⟨N', hN', hG⟩ := hG
  refine ⟨fun t => N t ∨ N' t, fun t ht => ht.elim (hN t) (hN' t), fun i =>
    ⟨fun conv huniform => ?_, fun conv b refs heq => ?_, fun conv conv' hsub r heq => ?_⟩⟩
  · rw [Conversion.ends_bind]
    constructor
    · rintro ⟨a, refs, ha, hends⟩ t (ht | ht)
      · exact ((hX i).ends_iff conv huniform).mp ⟨a, refs, ha⟩ t ht
      · have hP := (hX i).gives conv a refs ha
        exact ((hG ⟨i, a, hP⟩).ends_iff conv huniform).mp hends t ht
    · intro hall
      obtain ⟨a, refs, ha⟩ := ((hX i).ends_iff conv huniform).mpr fun t ht => hall t (Or.inl ht)
      have hP := (hX i).gives conv a refs ha
      exact ⟨a, refs, ha, ((hG ⟨i, a, hP⟩).ends_iff conv huniform).mpr fun t ht =>
        hall t (Or.inr ht)⟩
  · obtain ⟨a, first, more, ha, hb, -⟩ := Conversion.bind_eq_some_iff.mp heq
    exact (hG ⟨i, a, (hX i).gives conv a first ha⟩).gives conv b more hb
  · obtain ⟨b, refs⟩ := r
    obtain ⟨a, first, more, ha, hb, hrefs⟩ := Conversion.bind_eq_some_iff.mp heq
    refine Conversion.bind_eq_some_iff.mpr ⟨a, first, more, (hX i).refines conv conv' hsub _ ha,
      ?_, hrefs⟩
    exact (hG ⟨i, a, (hX i).gives conv a first ha⟩).refines conv conv' hsub _ hb

theorem comp {κ : Type} {X : ι → Converter → Conversion α} {P : α → Prop} (h : Asks U P X)
    (f : κ → ι) : Asks U P fun k => X (f k) := by
  obtain ⟨N, hN, hX⟩ := h
  exact ⟨N, hN, fun k => hX (f k)⟩

theorem imp {U' : Request → Prop} {X : ι → Converter → Conversion α} {P P' : α → Prop}
    (h : Asks U P X) (hU : ∀ t, U t → U' t) (hP : ∀ a, P a → P' a) : Asks U' P' X := by
  obtain ⟨N, hN, hX⟩ := h
  exact ⟨N, fun t ht => hU t (hN t ht), fun i =>
    ⟨(hX i).ends_iff, fun conv a refs heq => hP a ((hX i).gives conv a refs heq), (hX i).refines⟩⟩

theorem widen {U' : Request → Prop} {X : ι → Converter → Conversion α} {P : α → Prop}
    (h : Asks U P X) (hU : ∀ t, U t → U' t) : Asks U' P X :=
  h.imp hU fun _ ha => ha

theorem mapM {γ : Type} {f : ι → γ → Converter → Conversion α} {l : List γ}
    (h : ∀ c ∈ l, Asks U (fun _ => True) fun i conv => f i c conv) :
    Asks U (fun _ => True) fun i conv => l.mapM fun c => f i c conv := by
  induction l with
  | nil => exact .pure fun _ => trivial
  | cons c l ih =>
      simp only [List.mapM_cons]
      have hrest := ih fun c hc => h c (List.mem_cons_of_mem _ hc)
      exact .bind (h c List.mem_cons_self) (.bind (hrest.comp Prod.fst) (.pure fun _ => trivial))

end Asks

end ApiSurface.Declaration
