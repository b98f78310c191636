/-
# `ApiSurface.Proofs.Declaration.Skipped` — where skipping stops

What is skipped is never read, so the reader finds back into the text by counting brackets.  A
function on the list of tokens that is inside `depth` groups stops after the first tokens that close
`depth` groups more than they open: with one token taken off the front, the others have to close one
group more, one less, or as many (`valueStops_cons_iff`, `groupEnds_cons_iff`), and that is how the
functions recur.

The count is a natural number there and is only made smaller where it is not zero.  As a loop over
the tokens with an integer to count in, which could fall below zero (`valuePass`), the skipping of
an initial value never comes below zero (`nonneg_of_valuePasses`), because what closes a group is
not taken at zero; and it comes to a stop where the function does (`valuePasses_afterValue`).
-/
import ApiSurface.Proofs.Declaration.Progress
import Mathlib.Logic.Relation
import Mathlib.Order.Bounds.Basic

namespace ApiSurface.Declaration

open Reader

/-! ## The first number with a property -/

section Least

variable {P Q : Nat → Prop}

theorem isLeast_zero (h : P 0) : IsLeast {k | P k} 0 :=
  ⟨h, fun k _ => Nat.zero_le k⟩

/-- The first number is found one further on if zero is none. -/
theorem isLeast_succ_iff (hzero : ¬ P 0) (hsucc : ∀ k, P (k + 1) ↔ Q k) {k : Nat} :
    IsLeast {k | P k} (k + 1) ↔ IsLeast {k | Q k} k := by
  constructor
  · rintro ⟨hk, hleast⟩
    exact ⟨(hsucc k).mp hk, fun j hj => Nat.le_of_succ_le_succ (hleast ((hsucc j).mpr hj))⟩
  · rintro ⟨hk, hleast⟩
    refine ⟨(hsucc k).mpr hk, fun j hj => ?_⟩
    cases j with
    | zero => exact absurd hj hzero
    | succ j => exact Nat.succ_le_succ (hleast ((hsucc j).mp hj))

theorem isLeast_of_succ (hzero : ¬ P 0) (hsucc : ∀ k, P (k + 1) ↔ Q k) {k : Nat}
    (h : IsLeast {k | P k} k) : ∃ j, k = j + 1 ∧ IsLeast {k | Q k} j := by
  cases k with
  | zero => exact absurd h.1 hzero
  | succ k => exact ⟨k, rfl, (isLeast_succ_iff hzero hsucc).mp h⟩

end Least

/-! ## Initial values -/

/-- Inside `depth` groups of an initial value, the value is at its end after `k` tokens: there are
no more, or the next one ends a value and the tokens close `depth` groups more than they open. -/
def ValueStops (depth : Nat) (ts : List Token) (k : Nat) : Prop :=
  k = ts.length ∨ (∃ t, ts[k]? = some t ∧ endsValue t = true) ∧
    (ts.take k).countP Token.closes = (ts.take k).countP Token.opens + depth

theorem valueStops_nil_iff {depth k : Nat} : ValueStops depth [] k ↔ k = 0 := by
  simp [ValueStops]

theorem valueStops_zero_iff {depth : Nat} {t : Token} {ts : List Token} :
    ValueStops depth (t :: ts) 0 ↔ endsValue t = true ∧ depth = 0 := by
  constructor
  · rintro (hlength | ⟨⟨u, hu, hends⟩, hcount⟩)
    · cases hlength
    · cases hu
      exact ⟨hends, (hcount.trans (Nat.zero_add depth)).symm⟩
  · rintro ⟨hends, rfl⟩
    exact .inr ⟨⟨t, rfl, hends⟩, rfl⟩

theorem Token.not_closes_of_opens {t : Token} (h : t.opens = true) : t.closes = false := by
  unfold opens at h
  unfold closes
  cases ht : t.kind with
  | punct p =>
      rw [ht] at h
      cases p <;> first | rfl | cases h
  | _ => rfl

theorem endsValue_of_closes {t : Token} (h : t.closes = true) : endsValue t = true := by
  rw [endsValue, h, Bool.or_true]

/-- What the tokens after the first one have to close. -/
theorem valueStops_cons_iff {depth depth' : Nat} {t : Token} {ts : List Token}
    (hdepth : depth + t.opens.toNat = depth' + t.closes.toNat) (k : Nat) :
    ValueStops depth (t :: ts) (k + 1) ↔ ValueStops depth' ts k := by
  have hcount : ((t :: ts).take (k + 1)).countP Token.closes =
        ((t :: ts).take (k + 1)).countP Token.opens + depth ↔
      (ts.take k).countP Token.closes = (ts.take k).countP Token.opens + depth' := by
    cases hopens : t.opens <;> cases hcloses : t.closes <;>
      simp only [hopens, hcloses, List.take_succ_cons, List.countP_cons, Bool.toNat_true,
        Bool.toNat_false, if_true, if_false, Bool.false_eq_true] at hdepth ⊢ <;> omega
  rw [ValueStops, ValueStops, hcount, List.getElem?_cons_succ, List.length_cons,
    Nat.add_right_cancel_iff]

/-- **An initial value ends where it first can.** -/
theorem exists_afterValue (depth : Nat) (ts : List Token) :
    ∃ k, IsLeast {k | ValueStops depth ts k} k ∧ afterValue depth ts = ts.drop k := by
  have hlater : ∀ {depth depth' : Nat} {t : Token} {ts us : List Token},
      ¬ (endsValue t = true ∧ depth = 0) →
      depth + t.opens.toNat = depth' + t.closes.toNat →
      (∃ k, IsLeast {k | ValueStops depth' ts k} k ∧ us = ts.drop k) →
      ∃ k, IsLeast {k | ValueStops depth (t :: ts) k} k ∧ us = (t :: ts).drop k := by
    rintro depth depth' t ts us hzero hdepth ⟨k, hk, rfl⟩
    refine ⟨k + 1, ?_, (List.drop_succ_cons).symm⟩
    exact (isLeast_succ_iff (fun h => hzero (valueStops_zero_iff.mp h))
      (valueStops_cons_iff hdepth)).mpr hk
  fun_induction afterValue depth ts with
  | case1 depth => exact ⟨0, isLeast_zero (valueStops_nil_iff.mpr rfl), rfl⟩
  | case2 t ts hends => exact ⟨0, isLeast_zero (valueStops_zero_iff.mpr ⟨hends, rfl⟩), rfl⟩
  | case3 t ts hends hopens ih =>
      refine hlater (fun h => hends h.1) ?_ ih
      rw [hopens, Token.not_closes_of_opens hopens]
      rfl
  | case4 t ts hends hopens ih =>
      have hcloses : t.closes = false :=
        Bool.eq_false_iff.mpr fun h => hends (endsValue_of_closes h)
      refine hlater (fun h => hends h.1) ?_ ih
      rw [Bool.eq_false_iff.mpr hopens, hcloses]
  | case5 depth t ts hopens ih =>
      refine hlater (fun h => Nat.succ_ne_zero _ h.2) ?_ ih
      rw [hopens, Token.not_closes_of_opens hopens]
      rfl
  | case6 depth t ts hopens hcloses ih =>
      refine hlater (fun h => Nat.succ_ne_zero _ h.2) ?_ ih
      rw [Bool.eq_false_iff.mpr hopens, hcloses]
      rfl
  | case7 depth t ts hopens hcloses ih =>
      refine hlater (fun h => Nat.succ_ne_zero _ h.2) ?_ ih
      rw [Bool.eq_false_iff.mpr hopens, Bool.eq_false_iff.mpr hcloses]

/-! ### As a loop -/

/-- One pass of the loop over an initial value, if the loop goes on.  The groups that are open are
counted in an integer, which nothing keeps from falling below zero. -/
def valuePass (s : Cursor × Int) : Option (Cursor × Int) :=
  if s.1.next.kind = .finish then none
  else if s.2 = 0 ∧ endsValue s.1.next = true then none
  else if s.1.next.opens then some (s.1.skip, s.2 + 1)
  else if s.1.next.closes then some (s.1.skip, s.2 - 1)
  else some (s.1.skip, s.2)

/-- Any number of passes, one after the other. -/
def ValuePasses : Cursor × Int → Cursor × Int → Prop :=
  Relation.ReflTransGen fun s s' => valuePass s = some s'

/-- A pass that closes a group begins above zero. -/
theorem nonneg_of_valuePass {s s' : Cursor × Int} (h : valuePass s = some s') (hs : 0 ≤ s.2) :
    0 ≤ s'.2 := by
  unfold valuePass at h
  split at h
  · cases h
  split at h
  · cases h
  next hends =>
    split at h
    · cases h
      exact Int.add_nonneg hs Int.one_nonneg
    split at h
    next hcloses =>
      cases h
      have hne : s.2 ≠ 0 := fun hzero => hends ⟨hzero, endsValue_of_closes hcloses⟩
      show 0 ≤ s.2 - 1
      omega
    · cases h
      exact hs

/-- **The count never falls below zero.** -/
theorem nonneg_of_valuePasses {s s' : Cursor × Int} (h : ValuePasses s s') (hs : 0 ≤ s.2) :
    0 ≤ s'.2 := by
  induction h with
  | refl => exact hs
  | tail _ hpass ih => exact nonneg_of_valuePass hpass ih

/-- The loop stops where the initial value ends. -/
theorem valuePasses_afterValue {finish : Token} (hends : finish.kind = .finish) (depth : Nat)
    (ts : List Token) (honly : ∀ t ∈ ts, t.kind ≠ .finish) :
    ∃ last, ValuePasses (⟨ts, finish⟩, depth) (⟨afterValue depth ts, finish⟩, last) ∧
      valuePass (⟨afterValue depth ts, finish⟩, last) = none := by
  have hlater : ∀ {t : Token} {ts us : List Token} {d : Int} {d' : Nat},
      valuePass (⟨t :: ts, finish⟩, d) = some (Cursor.mk ts finish, (d' : Int)) →
      (∃ last, ValuePasses (⟨ts, finish⟩, d') (⟨us, finish⟩, last) ∧
        valuePass (⟨us, finish⟩, last) = none) →
      ∃ last, ValuePasses (⟨t :: ts, finish⟩, d) (⟨us, finish⟩, last) ∧
        valuePass (⟨us, finish⟩, last) = none := by
    rintro t ts us d d' hpass ⟨last, hpasses, hstops⟩
    exact ⟨last, .head hpass hpasses, hstops⟩
  fun_induction afterValue depth ts with
  | case1 depth => exact ⟨depth, Relation.ReflTransGen.refl, if_pos hends⟩
  | case2 t ts hvalue =>
      refine ⟨0, Relation.ReflTransGen.refl, ?_⟩
      simp [valuePass, hvalue]
  | case3 t ts hvalue hopens ih =>
      obtain ⟨ht, honly⟩ := List.forall_mem_cons.mp honly
      refine hlater ?_ (ih honly)
      simp [valuePass, ht, hvalue, hopens]
  | case4 t ts hvalue hopens ih =>
      obtain ⟨ht, honly⟩ := List.forall_mem_cons.mp honly
      have hcloses : t.closes = false :=
        Bool.eq_false_iff.mpr fun h => hvalue (endsValue_of_closes h)
      refine hlater ?_ (ih honly)
      simp [valuePass, ht, hvalue, hopens, hcloses]
  | case5 depth t ts hopens ih =>
      obtain ⟨ht, honly⟩ := List.forall_mem_cons.mp honly
      refine hlater ?_ (ih honly)
      simp [valuePass, ht, hopens]
      omega
  | case6 depth t ts hopens hcloses ih =>
      obtain ⟨ht, honly⟩ := List.forall_mem_cons.mp honly
      refine hlater ?_ (ih honly)
      simp [valuePass, ht, hopens, hcloses]
      omega
  | case7 depth t ts hopens hcloses ih =>
      obtain ⟨ht, honly⟩ := List.forall_mem_cons.mp honly
      refine hlater ?_ (ih honly)
      simp [valuePass, ht, hopens, hcloses]
      omega

/-! ## Groups -/

/-- Inside `depth` groups, these are at their end after `k` tokens: the tokens close `depth` groups
more than they open. -/
def GroupEnds (opening closing : Punct) (depth : Nat) (ts : List Token) (k : Nat) : Prop :=
  k ≤ ts.length ∧
    (ts.take k).countP (·.isPunct closing) = (ts.take k).countP (·.isPunct opening) + depth

section Groups

variable {opening closing : Punct} {depth depth' : Nat} {t : Token} {ts : List Token}

theorem groupEnds_zero_iff : GroupEnds opening closing depth ts 0 ↔ depth = 0 := by
  simp [GroupEnds, @eq_comm Nat 0]

theorem groupEnds_cons_iff
    (hdepth : depth + (t.isPunct opening).toNat = depth' + (t.isPunct closing).toNat) (k : Nat) :
    GroupEnds opening closing depth (t :: ts) (k + 1) ↔ GroupEnds opening closing depth' ts k := by
  have hcount : ((t :: ts).take (k + 1)).countP (·.isPunct closing) =
        ((t :: ts).take (k + 1)).countP (·.isPunct opening) + depth ↔
      (ts.take k).countP (·.isPunct closing) =
        (ts.take k).countP (·.isPunct opening) + depth' := by
    cases hopens : t.isPunct opening <;> cases hcloses : t.isPunct closing <;>
      simp only [hopens, hcloses, List.take_succ_cons, List.countP_cons, Bool.toNat_true,
        Bool.toNat_false, if_true, if_false, Bool.false_eq_true] at hdepth ⊢ <;> omega
  rw [GroupEnds, GroupEnds, hcount, List.length_cons, Nat.add_le_add_iff_right]

theorem Token.isPunct_false_of_ne (hne : opening ≠ closing) (h : t.isPunct opening = true) :
    t.isPunct closing = false := by
  have hkind : t.kind = .punct opening := of_decide_eq_true h
  refine decide_eq_false fun hclosing => hne ?_
  exact TokenKind.punct.inj (hkind.symm.trans hclosing)

/-- **Groups end where they first can**, after a closing punctuator, and if they cannot end, nothing
is left after them. -/
theorem afterGroups_eq (hne : opening ≠ closing) (depth : Nat) (ts : List Token) :
    match afterGroups opening closing depth ts with
    | some us => ∃ k, IsLeast {k | GroupEnds opening closing depth ts k} k ∧ us = ts.drop k ∧
        (depth ≠ 0 → ∃ u, ts[k - 1]? = some u ∧ u.isPunct closing = true)
    | none => ∀ k, ¬ GroupEnds opening closing depth ts k := by
  have hlater : ∀ {depth depth' : Nat} {t : Token} {ts : List Token}, depth ≠ 0 →
      (depth' ≠ 0 ∨ t.isPunct closing = true) →
      depth + (t.isPunct opening).toNat = depth' + (t.isPunct closing).toNat →
      (match afterGroups opening closing depth' ts with
      | some us => ∃ k, IsLeast {k | GroupEnds opening closing depth' ts k} k ∧ us = ts.drop k ∧
          (depth' ≠ 0 → ∃ u, ts[k - 1]? = some u ∧ u.isPunct closing = true)
      | none => ∀ k, ¬ GroupEnds opening closing depth' ts k) →
      match afterGroups opening closing depth' ts with
      | some us => ∃ k, IsLeast {k | GroupEnds opening closing depth (t :: ts) k} k ∧
          us = (t :: ts).drop k ∧
          (depth ≠ 0 → ∃ u, (t :: ts)[k - 1]? = some u ∧ u.isPunct closing = true)
      | none => ∀ k, ¬ GroupEnds opening closing depth (t :: ts) k := by
    intro depth depth' t ts hdepth hcloses hsum h
    have hzero : ¬ GroupEnds opening closing depth (t :: ts) 0 :=
      fun h => hdepth (groupEnds_zero_iff.mp h)
    split at h
    next us _ =>
      obtain ⟨k, hk, rfl, hlast⟩ := h
      refine ⟨k + 1, (isLeast_succ_iff hzero (groupEnds_cons_iff hsum)).mpr hk,
        List.drop_succ_cons.symm, fun _ => ?_⟩
      cases k with
      | zero =>
          have hdepth' : depth' = 0 := groupEnds_zero_iff.mp hk.1
          exact ⟨t, rfl, hcloses.resolve_left fun h => h hdepth'⟩
      | succ k =>
          refine hlast fun hdepth' => ?_
          exact absurd (hk.2 (groupEnds_zero_iff.mpr hdepth')) (Nat.not_succ_le_zero k)
    · intro k hk
      cases k with
      | zero => exact hzero hk
      | succ k => exact h k ((groupEnds_cons_iff hsum k).mp hk)
  fun_induction afterGroups opening closing depth ts with
  | case1 ts => exact ⟨0, isLeast_zero (groupEnds_zero_iff.mpr rfl), rfl, fun h => absurd rfl h⟩
  | case2 depth =>
      rintro k ⟨hk, hcount⟩
      rw [List.take_nil] at hcount
      cases hcount
  | case3 depth t ts hopens ih =>
      refine hlater (Nat.succ_ne_zero _) (.inl (Nat.succ_ne_zero _)) ?_ ih
      rw [hopens, Token.isPunct_false_of_ne hne hopens]
      rfl
  | case4 depth t ts hopens hcloses ih =>
      refine hlater (Nat.succ_ne_zero _) (.inr hcloses) ?_ ih
      rw [Bool.eq_false_iff.mpr hopens, hcloses]
      rfl
  | case5 depth t ts hopens hcloses ih =>
      refine hlater (Nat.succ_ne_zero _) (.inl (Nat.succ_ne_zero _)) ?_ ih
      rw [Bool.eq_false_iff.mpr hopens, Bool.eq_false_iff.mpr hcloses]

/-- What is left after the group that begins at a cursor. -/
theorem skipGroup_cons (h : t.isPunct opening = true) (finish : Token) :
    skipGroup opening closing ⟨t :: ts, finish⟩ = match afterGroups opening closing 1 ts with
      | some us => .ok ((), ⟨us, finish⟩)
      | none => .error (.unexpected finish.place (.punct closing) finish.kind) := by
  have hexpect : expect opening ⟨t :: ts, finish⟩ = .ok ((), ⟨ts, finish⟩) := if_pos h
  cases hafter : afterGroups opening closing 1 ts <;>
    simp only [skipGroup, run_bind, hexpect, hafter]

theorem skipGroup_of_next {c : Cursor} (h : c.next.isPunct opening = false) :
    ∃ e, skipGroup opening closing c = .error e := by
  have hexpect : expect opening c =
      .error (.unexpected c.next.place (.punct opening) c.next.kind) :=
    if_neg (Bool.eq_false_iff.mp h)
  refine ⟨.unexpected c.next.place (.punct opening) c.next.kind, ?_⟩
  rw [skipGroup, run_bind, hexpect]

/-- At a token that opens a group: the first tokens that close as many groups as they open are that
token and the first ones after it that close one group more. -/
theorem isLeast_group_iff (hne : opening ≠ closing) (h : t.isPunct opening = true) {k : Nat} :
    IsLeast {k | 0 < k ∧ GroupEnds opening closing 0 (t :: ts) k} (k + 1) ↔
      IsLeast {k | GroupEnds opening closing 1 ts k} k := by
  refine isLeast_succ_iff (fun h => Nat.lt_irrefl 0 h.1) fun k => ?_
  rw [and_iff_right (Nat.succ_pos k)]
  refine groupEnds_cons_iff ?_ k
  rw [h, Token.isPunct_false_of_ne hne h]
  rfl

/-- **A group is taken up to the first token at which as many are closed as opened.** -/
theorem skipGroup_iff (hne : opening ≠ closing) {c : Cursor} (hends : c.finish.kind = .finish)
    (c' : Cursor) : skipGroup opening closing c = .ok ((), c') ↔
      c.next.isPunct opening = true ∧
        ∃ k, IsLeast {k | 0 < k ∧ GroupEnds opening closing 0 c.rest k} k ∧
          (∃ u, c.rest[k - 1]? = some u ∧ u.isPunct closing = true) ∧
          c' = { c with rest := c.rest.drop k } := by
  cases hnext : c.next.isPunct opening with
  | false =>
      obtain ⟨e, he⟩ : ∃ e, skipGroup opening closing c = .error e := skipGroup_of_next hnext
      rw [he]
      exact ⟨nofun, fun h => nomatch h.1⟩
  | true =>
      obtain ⟨rest, finish⟩ := c
      obtain ⟨t, ts, rfl⟩ := List.exists_cons_of_ne_nil
        (Cursor.rest_ne_nil hends (Token.ne_finish_of_isPunct hnext))
      have ht : t.isPunct opening = true := hnext
      have hgroups := afterGroups_eq hne 1 ts
      rw [skipGroup_cons ht]
      split at hgroups
      next us _ =>
        obtain ⟨k, hk, rfl, hlast⟩ := hgroups
        obtain ⟨u, hu, hcloses⟩ := hlast Nat.one_ne_zero
        have hpos : k ≠ 0 := by
          rintro rfl
          exact Nat.one_ne_zero (groupEnds_zero_iff.mp hk.1)
        have hlast : (t :: ts)[k + 1 - 1]? = some u := by
          rw [Nat.add_sub_cancel, ← hu, List.getElem?_cons, if_neg hpos]
        have hgroup := (isLeast_group_iff hne ht).mpr hk
        constructor
        · rintro ⟨⟩
          exact ⟨rfl, k + 1, hgroup, ⟨u, hlast, hcloses⟩, rfl⟩
        · rintro ⟨-, k', hk', -, rfl⟩
          rw [hk'.unique hgroup, List.drop_succ_cons]
      next =>
        refine ⟨nofun, ?_⟩
        rintro ⟨-, k, hk, -, -⟩
        obtain ⟨j, rfl, -⟩ := isLeast_of_succ (fun h => Nat.lt_irrefl 0 h.1) (fun _ => Iff.rfl) hk
        exact absurd ((isLeast_group_iff hne ht).mp hk).1 (hgroups j)

end Groups

/-! ## Positions -/

/-- From a position among the tokens of a text, skipping stops at the first place where the brackets
are even. -/
structure SkipsToBalance (ts : List Token) (finish : Token) (p : Nat) (opening closing : Punct) :
    Prop where
  /-- The loop over an initial value never counts below zero. -/
  nonneg : ∀ s, ValuePasses (.atIndex ts finish p, 0) s → 0 ≤ s.2
  /-- It stops before the first token that ends a value and has as many closing as opening brackets
  before it, or at the end. -/
  value : ∃ k, IsLeast {k | ValueStops 0 (ts.drop p) k} k ∧ p + k ≤ ts.length ∧
    skipValue (.atIndex ts finish p) = .ok ((), .atIndex ts finish (p + k)) ∧
    ∃ last, ValuePasses (.atIndex ts finish p, 0) (.atIndex ts finish (p + k), last) ∧
      valuePass (.atIndex ts finish (p + k), last) = none
  /-- A group is taken up to the first tokens that close as many groups as they open, the last of
  which closes one. -/
  group : ∀ c, skipGroup opening closing (.atIndex ts finish p) = .ok ((), c) ↔
    (Cursor.atIndex ts finish p).next.isPunct opening = true ∧
      ∃ k, IsLeast {k | 0 < k ∧ GroupEnds opening closing 0 (ts.drop p) k} k ∧
        (∃ u, ts[p + k - 1]? = some u ∧ u.isPunct closing = true) ∧
        c = .atIndex ts finish (p + k)
  /-- Without an opening token, or tokens from there on that close as many groups as they open,
  nothing is taken. -/
  fails : ¬ ((Cursor.atIndex ts finish p).next.isPunct opening = true ∧
      ∃ k, 0 < k ∧ GroupEnds opening closing 0 (ts.drop p) k) →
    ∃ e, skipGroup opening closing (.atIndex ts finish p) = .error e

/-- **Skipping stops at the first place where the brackets are even**, from every position among
tokens of which only the last one is the end. -/
theorem skips_to_balance {ts : List Token} {finish : Token} (hends : finish.kind = .finish)
    (honly : ∀ t ∈ ts, t.kind ≠ .finish) {p : Nat} (hp : p ≤ ts.length) {opening closing : Punct}
    (hne : opening ≠ closing) : SkipsToBalance ts finish p opening closing := by
  have hgroup : ∀ c, skipGroup opening closing (.atIndex ts finish p) = .ok ((), c) ↔ _ :=
    skipGroup_iff hne (c := .atIndex ts finish p) hends
  constructor
  case nonneg => exact fun s h => nonneg_of_valuePasses h (Int.le_refl 0)
  case value =>
    obtain ⟨k, hk, hdrop⟩ := exists_afterValue 0 (ts.drop p)
    have hlength : p + k ≤ ts.length := by
      have hle : k ≤ (ts.drop p).length := hk.2 (.inl rfl)
      rw [List.length_drop] at hle
      omega
    have hlater : (⟨afterValue 0 (ts.drop p), finish⟩ : Cursor) = .atIndex ts finish (p + k) := by
      rw [hdrop, List.drop_drop, Cursor.atIndex]
    refine ⟨k, hk, hlength, congrArg (fun c => Except.ok ((), c)) hlater, ?_⟩
    rw [← hlater]
    exact valuePasses_afterValue hends 0 (ts.drop p) fun t ht => honly t (List.mem_of_mem_drop ht)
  case group =>
    intro c
    rw [hgroup c]
    refine and_congr_right fun _ => exists_congr fun k => and_congr_right fun hk => ?_
    have hpos : 0 < k := hk.1.1
    rw [Cursor.atIndex, Cursor.atIndex, List.drop_drop, List.getElem?_drop,
      Nat.add_sub_assoc hpos p]
  case fails =>
    intro hnot
    cases hskip : skipGroup opening closing (.atIndex ts finish p) with
    | error e => exact ⟨e, rfl⟩
    | ok r =>
        obtain ⟨hnext, k, hk, -, -⟩ := (hgroup r.2).mp hskip
        exact absurd ⟨hnext, k, hk.1⟩ hnot

/-- A token on the first line. -/
def tokenOf (kind : TokenKind) : Token :=
  ⟨kind, .start, false⟩

/-- The tokens of `(a, [b)], c }`, with brackets of two kinds that cross. -/
def pairedValue : List Token :=
  [.punct .openParen, .word "a", .punct .comma, .punct .openBracket, .word "b", .punct .closeParen,
    .punct .closeBracket, .punct .comma, .word "c", .punct .closeBrace].map tokenOf

/-- The value ends before its last comma, where two brackets are open and two are closed; the group
in round brackets ends one token earlier. -/
theorem pairedValue_skips_to_balance :
    (tokenOf .finish).kind = .finish ∧ (∀ t ∈ pairedValue, t.kind ≠ .finish) ∧
      Punct.openParen ≠ .closeParen ∧
      SkipsToBalance pairedValue (tokenOf .finish) 0 .openParen .closeParen ∧
      skipValue (.atIndex pairedValue (tokenOf .finish) 0) =
        .ok ((), .atIndex pairedValue (tokenOf .finish) 7) ∧
      skipGroup .openParen .closeParen (.atIndex pairedValue (tokenOf .finish) 0) =
        .ok ((), .atIndex pairedValue (tokenOf .finish) 6) :=
  ⟨rfl, by decide, by decide, skips_to_balance rfl (by decide) (Nat.zero_le _) (by decide),
    rfl, rfl⟩

end ApiSurface.Declaration
