/-
# `ApiSurface.Proofs.Decimal.Bounds` — bounds that rounding keeps

A sum, a quotient or a product of doubles is rounded once, to the nearest double.  If the exact
result is at most a whole number that is itself a double, then so is the rounded one; every natural
number up to two to the power of 53 is a double, so bounds of that kind pass through a calculation
step by step.  One bound is kept beyond that: two to the power of 53 and at most one more is a tie
and goes back to two to the power of 53 (`upTo_round`), so that a sum of summands up to one never
exceeds it.

Rounding drops binary digits and looks at two bits of what was dropped.  `halves` bounds what a
mantissa with these two bits may stand for, in half units; the bound is kept by every shift.
Exponents may be negative, so values are compared as rationals.
-/
import ApiSurface.Proofs.Decimal.Whole

namespace ApiSurface.Decimal

open Float.Model Float.Model.UnpackedFloat

/-! ## Residual bits -/

/-- How many half units a mantissa with its residual bits stands for, rounded up. -/
def halves (em : ExtendedMantissa) : Nat :=
  2 * em.mantissa + em.roundBit.toNat + em.stickyBit.toNat

theorem halves_shiftRightOne (em : ExtendedMantissa) :
    halves em.shiftRightOne = (halves em + 1) / 2 := by
  obtain ⟨m, r, s⟩ := em
  have hdigits := Nat.div_add_mod m 2
  rcases Nat.mod_two_eq_zero_or_one m with hlast | hlast <;> cases r <;> cases s <;>
    simp [halves, ExtendedMantissa.shiftRightOne, hlast] <;> omega

theorem halves_shiftRight_le {em : ExtendedMantissa} {n bound : Nat}
    (h : halves em ≤ bound * 2 ^ n) : halves (em >>> n) ≤ bound := by
  show halves (n.repeat ExtendedMantissa.shiftRightOne em) ≤ bound
  induction n generalizing bound with
  | zero => simpa [Nat.repeat] using h
  | succ n ih =>
      have hinner : halves (n.repeat ExtendedMantissa.shiftRightOne em) ≤ bound * 2 := by
        refine ih ?_
        rwa [Nat.mul_assoc, Nat.mul_comm 2, ← Nat.pow_succ]
      rw [Nat.repeat, halves_shiftRightOne]
      omega

theorem le_roundedMantissa (em : ExtendedMantissa) : em.mantissa ≤ em.roundedMantissa := by
  obtain ⟨m, r, s⟩ := em
  cases r <;> cases s <;>
    simp [ExtendedMantissa.roundedMantissa, ExtendedMantissa.accuracy,
      Accuracy.roundToNearestEven]

theorem roundedMantissa_le_of_halves {em : ExtendedMantissa} {n : Nat} (h : halves em ≤ 2 * n) :
    em.roundedMantissa ≤ n := by
  obtain ⟨m, r, s⟩ := em
  cases r <;> cases s <;>
    simp [halves, ExtendedMantissa.roundedMantissa, ExtendedMantissa.accuracy,
      Accuracy.roundToNearestEven] at h ⊢ <;> omega

/-- A tie goes to the even mantissa. -/
theorem roundedMantissa_le_of_even {em : ExtendedMantissa} {n : Nat} (heven : n % 2 = 0)
    (h : halves em ≤ 2 * n + 1) : em.roundedMantissa ≤ n := by
  obtain ⟨m, r, s⟩ := em
  cases r <;> cases s <;>
    simp [halves, ExtendedMantissa.roundedMantissa, ExtendedMantissa.accuracy,
      Accuracy.roundToNearestEven] at h ⊢ <;> omega

theorem mantissa_ofMantissaAndAccuracy (m : Nat) (acc : Accuracy) :
    (ExtendedMantissa.ofMantissaAndAccuracy m acc).mantissa = m := by
  cases acc with
  | exact => rfl
  | inexact o => cases o <;> rfl

theorem two_mul_le_halves (m : Nat) (acc : Accuracy) :
    2 * m ≤ halves (.ofMantissaAndAccuracy m acc) := by
  rw [halves, mantissa_ofMantissaAndAccuracy, Nat.add_assoc]
  exact Nat.le_add_right _ _

/-! ## Rounding -/

/-- How many binary digits rounding drops. -/
def dropped (m : Nat) (e : Int) : Nat :=
  (max ((m.log2 : Int) + e - 52) (-1074) - e).toNat

/-- The mantissa with as many digits as fit, and the residual bits. -/
def fitted (m : Nat) (e : Int) (acc : Accuracy) : ExtendedMantissa :=
  ExtendedMantissa.ofMantissaAndAccuracy m acc >>> dropped m e

/-- The mantissa after rounding, before an overflow of its digits is taken care of. -/
def rounded (m : Nat) (e : Int) (acc : Accuracy) : Nat :=
  (fitted m e acc).roundedMantissa

/-- There are as many digits as a mantissa has, or the exponent is the lowest: rounding has only to
drop digits. -/
def Ample (m : Nat) (e : Int) : Prop :=
  2 ^ 52 ≤ m ∨ e ≤ -1074

theorem shiftToTargetExponent_eq (m : Nat) (e : Int) (acc : Accuracy) :
    shiftToTargetExponent .binary64 m e acc = (fitted m e acc, e + dropped m e) := by
  have htarget : Format.binary64.targetExponent (totalExponent m e) =
      max ((m.log2 : Int) + e - 52) (-1074) := by
    rw [targetExponent_eq, totalExponent]
    omega
  rw [shiftToTargetExponent]
  simp only [htarget]
  rfl

theorem div_le_rounded (m : Nat) (e : Int) (acc : Accuracy) :
    m / 2 ^ dropped m e ≤ rounded m e acc := by
  have h := le_roundedMantissa (fitted m e acc)
  rwa [fitted, shiftRight_mantissa, mantissa_ofMantissaAndAccuracy] at h

theorem halves_le (m : Nat) (acc : Accuracy) :
    halves (.ofMantissaAndAccuracy m acc) ≤ 2 * (m + 1) := by
  cases acc with
  | exact => simp [halves, ExtendedMantissa.ofMantissaAndAccuracy]
  | inexact o => cases o <;> simp [halves, ExtendedMantissa.ofMantissaAndAccuracy]; omega

theorem rounded_le_of_lt {m n : Nat} {e : Int} {acc : Accuracy} (h : m < n * 2 ^ dropped m e) :
    rounded m e acc ≤ n := by
  refine roundedMantissa_le_of_halves (halves_shiftRight_le ?_)
  rw [Nat.mul_assoc]
  exact le_trans (halves_le m acc) (Nat.mul_le_mul_left 2 h)

theorem rounded_le (m : Nat) (e : Int) (acc : Accuracy) : rounded m e acc ≤ 2 ^ 53 := by
  refine rounded_le_of_lt (lt_of_lt_of_le Nat.lt_log2_self ?_)
  rw [← Nat.pow_add]
  refine Nat.pow_le_pow_right (by omega) ?_
  rw [dropped]
  omega

/-- Rounding goes to one of the two mantissas next to the number. -/
theorem rounded_le_div (m : Nat) (e : Int) (acc : Accuracy) :
    rounded m e acc ≤ m / 2 ^ dropped m e + 1 :=
  rounded_le_of_lt (Nat.lt_mul_of_div_lt (Nat.lt_succ_self _) (Nat.two_pow_pos _))

theorem dropped_of_lt {m : Nat} {e : Int} (hm : m < 2 ^ 53) (he : -1074 ≤ e) :
    dropped m e = 0 := by
  have hlog : m.log2 ≤ 52 := by
    rcases Nat.eq_zero_or_pos m with rfl | hpos
    · simp
    · exact log2_le hpos hm
  rw [dropped]
  omega

/-- A mantissa of 54 digits, which is two to the power of 53, loses its last one. -/
theorem shiftToTargetExponent_rounded {r : Nat} (hr : r ≤ 2 ^ 53) {e : Int} (he : -1074 ≤ e) :
    shiftToTargetExponent .binary64 r e .exact =
      if r < 2 ^ 53 then (⟨r, false, false⟩, e) else (⟨2 ^ 52, false, false⟩, e + 1) := by
  rw [shiftToTargetExponent_eq]
  split
  next hsmall =>
    rw [fitted, dropped_of_lt hsmall he, Nat.cast_zero, Int.add_zero]
    rfl
  next hbig =>
    obtain rfl : r = 2 ^ 53 := by omega
    have hone : dropped (2 ^ 53) e = 1 := by
      rw [dropped, Nat.log2_two_pow]
      omega
    rw [fitted, hone]
    rfl

/-- **What rounding gives**: the rounded mantissa, with one digit less where it came to have 54. -/
theorem roundWithAccuracy_eq (m : Nat) (e : Int) (acc : Accuracy) :
    roundWithAccuracy .binary64 .positive m e acc =
      if h : rounded m e acc = 0 then .zero .positive
      else if rounded m e acc < 2 ^ 53 then
        .finite .positive (rounded m e acc) (e + dropped m e) (Nat.pos_of_ne_zero h)
      else .finite .positive (2 ^ 52) (e + dropped m e + 1) (by decide) := by
  have hlow : -1074 ≤ e + dropped m e := by
    rw [dropped]
    omega
  have hround : (fitted m e acc).roundedMantissa = rounded m e acc := rfl
  simp only [roundWithAccuracy, shiftToTargetExponent_eq m e acc, hround,
    shiftToTargetExponent_rounded (rounded_le m e acc) hlow]
  by_cases hsmall : rounded m e acc < 2 ^ 53
  · simp only [if_pos hsmall]
  · have hne : rounded m e acc ≠ 0 := by omega
    simp only [if_neg hsmall, dif_neg hne]
    rfl

/-! ## Packing -/

/-- What is packed comes back, if its mantissa has all its digits or its exponent is the lowest;
beyond the largest exponent it becomes infinite. -/
theorem unpack_pack {m : Nat} (hm : 0 < m) (hdigits : m < 2 ^ 53) {e : Int} (he : -1074 ≤ e)
    (hfull : 2 ^ 52 ≤ m ∨ e = -1074) :
    unpack .binary64 (pack .binary64 (.finite .positive m e hm)) =
      if e ≤ 971 then .finite .positive m e hm else .infinity .positive := by
  have hb : ((e + Format.binary64.exponentBias + Format.binary64.mantissaBitsWithoutImplicit).toNat
      : Int) = e + 1075 := by
    show ((e + 1023 + 52).toNat : Int) = _
    omega
  have hlog := log2_le hm hdigits
  have hbits : Format.binary64.mantissaBits = 53 := rfl
  unfold UnpackedFloat.pack
  simp only [hbits]
  generalize Int.toNat _ = b at hb
  by_cases hsmall : e ≤ 971
  · rw [if_pos hsmall, if_neg (show ¬ 2 ^ 11 ≤ b + 1 by omega)]
    by_cases hnormal : 2 ^ 52 ≤ m
    · have h52 : m.log2 = 52 := (Nat.log2_eq_iff hm.ne').mpr ⟨hnormal, hdigits⟩
      rw [if_pos (show m.log2 + 1 = 53 by omega), unpack_normal (by omega) (by omega) hnormal
        hdigits]
      congr 1
      omega
    · obtain rfl : e = -1074 := hfull.resolve_left hnormal
      have h52 : m.log2 < 52 := (Nat.log2_lt hm.ne').mpr (by omega)
      rw [if_neg (show ¬ m.log2 + 1 = 53 by omega), unpack_subnormal hm (by omega)]
  · rw [if_neg hsmall, if_pos (show 2 ^ 11 ≤ b + 1 by omega)]
    exact unpack_packedInfinity

/-- Rounding a number with enough digits gives nothing, or the rounded mantissa in its place, or
something infinite where that place is beyond all exponents. -/
theorem unpack_pack_roundWithAccuracy {m : Nat} {e : Int} (hample : Ample m e) (acc : Accuracy) :
    (rounded m e acc = 0 ∧
      unpack .binary64 (pack .binary64 (roundWithAccuracy .binary64 .positive m e acc)) =
        .zero .positive) ∨
    ∃ (m' : Nat) (e' : Int) (h : 0 < m'),
      (m' : ℚ) * 2 ^ e' = rounded m e acc * 2 ^ (e + dropped m e) ∧
      unpack .binary64 (pack .binary64 (roundWithAccuracy .binary64 .positive m e acc)) =
        if e' ≤ 971 then .finite .positive m' e' h else .infinity .positive := by
  have hlow : -1074 ≤ e + dropped m e := by
    rw [dropped]
    omega
  -- Dropping digits leaves 53 of them, unless the exponent is the lowest.
  have hfull : 2 ^ 52 ≤ rounded m e acc ∨ e + dropped m e = -1074 := by
    have hlog : 52 ≤ m.log2 ∨ e ≤ -1074 :=
      hample.imp_left fun hm => (Nat.le_log2 (by omega)).mpr hm
    by_cases hlowest : e + dropped m e = -1074
    · exact Or.inr hlowest
    · have hdropped : 52 + dropped m e ≤ m.log2 := by
        rw [dropped] at hlowest ⊢
        omega
      have hne : m ≠ 0 := by
        rintro rfl
        rw [Nat.log2_zero] at hdropped
        omega
      refine Or.inl (le_trans ?_ (div_le_rounded m e acc))
      rw [Nat.le_div_iff_mul_le (Nat.two_pow_pos _), ← Nat.pow_add]
      exact le_trans (Nat.pow_le_pow_right (by omega) hdropped) (Nat.log2_self_le hne)
  rw [roundWithAccuracy_eq]
  by_cases hzero : rounded m e acc = 0
  · rw [dif_pos hzero]
    exact Or.inl ⟨hzero, rfl⟩
  · rw [dif_neg hzero]
    right
    split
    next hsmall =>
      exact ⟨_, _, Nat.pos_of_ne_zero hzero, rfl, unpack_pack _ hsmall hlow hfull⟩
    next hbig =>
      refine ⟨_, _, by decide, ?_, unpack_pack _ (by decide) (by omega) (Or.inl (le_refl _))⟩
      have hmax : rounded m e acc = 2 ^ 53 := le_antisymm (rounded_le m e acc) (by omega)
      rw [hmax, zpow_add_one₀ (by norm_num)]
      push_cast
      ring

/-! ## Bounds -/

theorem dyadic_le_iff {m n a : Nat} : (m : ℚ) * 2 ^ (-(a : Int)) ≤ n ↔ m ≤ n * 2 ^ a := by
  rw [zpow_neg, zpow_natCast, ← div_eq_mul_inv, div_le_iff₀ (by positivity)]
  exact_mod_cast Iff.rfl

/-- The exponent of a number is bounded as the number is. -/
theorem exponent_le_of_dyadic_le {m : Nat} (hm : 0 < m) {e : Int} {k : Nat}
    (h : (m : ℚ) * 2 ^ e ≤ 2 ^ k) : e ≤ k := by
  have hone : (1 : ℚ) ≤ m := by exact_mod_cast hm
  have hpow : (2 : ℚ) ^ e ≤ 2 ^ (k : Int) := by
    rw [zpow_natCast]
    exact le_trans (le_mul_of_one_le_left (by positivity) hone) h
  exact (zpow_le_zpow_iff_right₀ (by norm_num)).mp hpow

/-- Leading digits compare as the numbers do. -/
theorem exponent_lt_of_dyadic_le {m₁ m₂ : Nat} (hm₁ : 0 < m₁) {e₁ e₂ : Int}
    (h : (m₁ : ℚ) * 2 ^ e₁ ≤ m₂ * 2 ^ e₂) : (m₁.log2 : Int) + e₁ < m₂.log2 + 1 + e₂ := by
  have hlow : (2 : ℚ) ^ (m₁.log2 : Int) ≤ m₁ := by
    rw [zpow_natCast]
    exact_mod_cast Nat.log2_self_le hm₁.ne'
  have hhigh : (m₂ : ℚ) < 2 ^ ((m₂.log2 : Int) + 1) := by
    have := Nat.lt_log2_self (n := m₂)
    exact_mod_cast this
  refine (zpow_lt_zpow_iff_right₀ (a := (2 : ℚ)) (by norm_num)).mp ?_
  rw [zpow_add₀ (by norm_num), zpow_add₀ (n := e₂) (by norm_num)]
  calc (2 : ℚ) ^ (m₁.log2 : Int) * 2 ^ e₁ ≤ m₁ * 2 ^ e₁ :=
        mul_le_mul_of_nonneg_right hlow (by positivity)
    _ ≤ m₂ * 2 ^ e₂ := h
    _ < 2 ^ ((m₂.log2 : Int) + 1) * 2 ^ e₂ := mul_lt_mul_of_pos_right hhigh (by positivity)

/-- The unpacked form of positive zero, or of a positive double that is at most `n`. -/
inductive UpTo (n : Nat) : UnpackedFloat → Prop
  | zero : UpTo n (.zero .positive)
  | finite {m : Nat} {e : Int} (hm : 0 < m) (bound : (m : ℚ) * 2 ^ e ≤ n) :
      UpTo n (.finite .positive m e hm)

theorem upTo_of_rounded {m n : Nat} {e : Int} {acc : Accuracy} (hample : Ample m e)
    (hn : n ≤ 2 ^ 53) (h : (rounded m e acc : ℚ) * 2 ^ (e + dropped m e) ≤ n) :
    UpTo n (unpack .binary64 (pack .binary64 (roundWithAccuracy .binary64 .positive m e acc))) := by
  rcases unpack_pack_roundWithAccuracy hample acc with ⟨-, hzero⟩ | ⟨m', e', hm', hvalue, hfinite⟩
  · rw [hzero]
    exact .zero
  · have hbound : (m' : ℚ) * 2 ^ e' ≤ n := hvalue ▸ h
    have hle : (m' : ℚ) * 2 ^ e' ≤ 2 ^ 53 := le_trans hbound (by exact_mod_cast hn)
    have hexp : e' ≤ 971 := le_trans (exponent_le_of_dyadic_le hm' hle) (by norm_num)
    rw [hfinite, if_pos hexp]
    exact .finite hm' hbound

/-- Beyond two to the power of 53, digits are dropped up to the unit and one place more. -/
theorem log2_of_le_dropped {m a : Nat} (h : a < dropped m (-a)) :
    m.log2 = 52 + dropped m (-a) := by
  rw [dropped] at h ⊢
  omega

/-- **A bound on the exact value is one on the rounded value.** -/
theorem rounded_le_of_halves {m n a : Nat} {acc : Accuracy} (hn : n ≤ 2 ^ 53)
    (h : halves (.ofMantissaAndAccuracy m acc) ≤ 2 * n * 2 ^ a) :
    (rounded m (-a) acc : ℚ) * 2 ^ (-(a : Int) + dropped m (-a)) ≤ n := by
  by_cases hd : dropped m (-a) ≤ a
  · -- The digits that stay include the unit: in units of the last one the bound is whole.
    obtain ⟨b, hb⟩ := Nat.exists_eq_add_of_le' hd
    have hexp : -(a : Int) + dropped m (-a) = -(b : Int) := by omega
    rw [hexp, dyadic_le_iff]
    refine roundedMantissa_le_of_halves (halves_shiftRight_le (le_trans h (le_of_eq ?_)))
    have hpow : 2 ^ a = 2 ^ b * 2 ^ dropped m (-a) := by rw [← Nat.pow_add, ← hb]
    rw [hpow]
    ring
  · -- Otherwise the number is two to the power of 53, and nothing is lost.
    have hlog := log2_of_le_dropped (Nat.lt_of_not_le hd)
    have hne : m ≠ 0 := by
      rintro rfl
      rw [Nat.log2_zero] at hlog
      omega
    have hlow : 2 ^ (52 + dropped m (-a)) ≤ m := hlog ▸ Nat.log2_self_le hne
    have hm : m ≤ n * 2 ^ a := by
      have := two_mul_le_halves m acc
      rw [Nat.mul_assoc] at h
      omega
    have hpow : 2 ^ (52 + dropped m (-a)) ≤ 2 ^ (53 + a) := by
      refine le_trans hlow (le_trans hm ?_)
      rw [Nat.pow_add]
      exact Nat.mul_le_mul_right _ hn
    have hone : dropped m (-a) = a + 1 := by
      have := (Nat.pow_le_pow_iff_right (by omega)).mp hpow
      omega
    have hexact : n = 2 ^ 53 := by
      refine le_antisymm hn (Nat.le_of_mul_le_mul_right ?_ (Nat.two_pow_pos a))
      rw [← Nat.pow_add, show 53 + a = 52 + dropped m (-a) by omega]
      exact le_trans hlow hm
    have hround : rounded m (-a) acc ≤ 2 ^ 52 := by
      refine roundedMantissa_le_of_halves (halves_shiftRight_le (le_trans h (le_of_eq ?_)))
      rw [hone, hexact, Nat.pow_succ]
      ring
    have hexp : -(a : Int) + dropped m (-a) = 1 := by omega
    have hdouble : rounded m (-a) acc * 2 ≤ n := by omega
    rw [hexp, zpow_one]
    exact_mod_cast hdouble

/-- Two to the power of 53 and one more is a tie, which goes to the even mantissa. -/
theorem rounded_le_of_tie {m a : Nat} (h : m ≤ (2 ^ 53 + 1) * 2 ^ a) :
    (rounded m (-a) .exact : ℚ) * 2 ^ (-(a : Int) + dropped m (-a)) ≤ (2 ^ 53 : Nat) := by
  by_cases hle : m ≤ 2 ^ 53 * 2 ^ a
  · refine rounded_le_of_halves (le_refl _) ?_
    rw [Nat.mul_assoc]
    exact Nat.mul_le_mul_left 2 hle
  · have hlog : m.log2 = 53 + a := by
      refine (Nat.log2_eq_iff (by omega)).mpr ⟨?_, ?_⟩
      · rw [Nat.pow_add]
        omega
      · refine lt_of_le_of_lt h ?_
        rw [show 53 + a + 1 = 54 + a by omega, Nat.pow_add 2 54]
        exact Nat.mul_lt_mul_of_pos_right (by norm_num) (Nat.two_pow_pos a)
    have hone : dropped m (-a) = a + 1 := by
      rw [dropped]
      omega
    have hround : rounded m (-a) .exact ≤ 2 ^ 52 := by
      refine roundedMantissa_le_of_even (by norm_num) (halves_shiftRight_le ?_)
      show 2 * m + 0 + 0 ≤ _
      rw [hone, Nat.pow_succ]
      omega
    have hexp : -(a : Int) + dropped m (-a) = 1 := by omega
    have hdouble : rounded m (-a) .exact * 2 ≤ 2 ^ 53 := by omega
    rw [hexp, zpow_one]
    exact_mod_cast hdouble

theorem halves_exact (m : Nat) : halves (.ofMantissaAndAccuracy m .exact) = 2 * m := rfl

/-- Zeros are put behind a number until it has enough digits, and then it is rounded. -/
theorem exists_round_eq {m : Nat} (hm : 0 < m) (a : Nat) :
    ∃ k, Ample (m * 2 ^ k) (-((a + k : Nat) : Int)) ∧
      round .binary64 .positive m (-a) =
        roundWithAccuracy .binary64 .positive (m * 2 ^ k) (-((a + k : Nat) : Int)) .exact := by
  have htarget : Format.binary64.targetExponent (totalExponent m (-a)) =
      max ((m.log2 : Int) + -a - 52) (-1074) := by
    rw [targetExponent_eq, totalExponent]
    omega
  obtain ⟨k, hk⟩ : ∃ k, k = (-(a : Int) - max ((m.log2 : Int) + -a - 52) (-1074)).toNat := ⟨_, rfl⟩
  refine ⟨k, ?_, ?_⟩
  · by_cases hlowest : -((a + k : Nat) : Int) ≤ -1074
    · exact Or.inr hlowest
    · have hlog : 52 ≤ m.log2 + k := by omega
      refine Or.inl (le_trans (Nat.pow_le_pow_right (by omega) hlog) ?_)
      rw [Nat.pow_add]
      exact Nat.mul_le_mul_right _ (Nat.log2_self_le hm.ne')
  · rw [UnpackedFloat.round, htarget]
    simp only [decreaseExponent, Nat.shiftLeft_eq, ← hk]
    congr 1
    push_cast
    ring

/-- **Rounding a number that is at most one above a bound** keeps to the bound and one more, where
that is a double, and else to the bound. -/
theorem upTo_round {m n a : Nat} (hm : 0 < m) (hn : n ≤ 2 ^ 53) (h : m ≤ (n + 1) * 2 ^ a) :
    UpTo (min (n + 1) (2 ^ 53))
      (unpack .binary64 (pack .binary64 (round .binary64 .positive m (-a)))) := by
  obtain ⟨k, hample, hround⟩ := exists_round_eq hm a
  have hbound : m * 2 ^ k ≤ (n + 1) * 2 ^ (a + k) := by
    rw [Nat.pow_add, ← Nat.mul_assoc]
    exact Nat.mul_le_mul_right _ h
  rw [hround]
  refine upTo_of_rounded hample (min_le_right _ _) ?_
  by_cases hdouble : n + 1 ≤ 2 ^ 53
  · rw [min_eq_left hdouble]
    refine rounded_le_of_halves hdouble ?_
    rw [halves_exact, Nat.mul_assoc]
    exact Nat.mul_le_mul_left 2 hbound
  · obtain rfl : n = 2 ^ 53 := by omega
    rw [min_eq_right (by omega)]
    exact rounded_le_of_tie hbound

/-! ## Sums, products and quotients -/

theorem dyadic_shift (m k : Nat) (e : Int) :
    ((m * 2 ^ k : Nat) : ℚ) * 2 ^ e = m * 2 ^ (e + k) := by
  rw [zpow_add₀ (by norm_num), zpow_natCast]
  push_cast
  ring

theorem unpack_pack_unpack (x : Float) :
    unpack .binary64 (pack .binary64 x.toModel.unpack) = x.toModel.unpack := by
  have h := pack_unpack_of_valid x.toModel.valid
  exact congrArg (unpack .binary64) h

theorem UpTo.mono {n n' : Nat} (hle : n ≤ n') {u : UnpackedFloat} (h : UpTo n u) : UpTo n' u := by
  cases h with
  | zero => exact .zero
  | finite hm bound => exact .finite hm (le_trans bound (by exact_mod_cast hle))

/-- Summands are written in units of the lower place and their sum is rounded. -/
theorem add_finite {m₁ m₂ : Nat} (hm₁ : 0 < m₁) (hm₂ : 0 < m₂) {e₁ e₂ : Int} {a : Nat}
    (ha : min e₁ e₂ = -(a : Int)) :
    UnpackedFloat.add .binary64 (.finite .positive m₁ e₁ hm₁) (.finite .positive m₂ e₂ hm₂) =
      round .binary64 .positive (m₁ * 2 ^ (e₁ - -(a : Int)).toNat +
        m₂ * 2 ^ (e₂ - -(a : Int)).toNat) (-a) := by
  have hpos : 0 < m₁ * 2 ^ (e₁ - -(a : Int)).toNat := Nat.mul_pos hm₁ (Nat.two_pow_pos _)
  show normalize .binary64 ((m₁ <<< (e₁ - min e₁ e₂).toNat : Nat) +
    (m₂ <<< (e₂ - min e₁ e₂).toNat : Nat)) (min e₁ e₂) .positive = _
  rw [ha, Nat.shiftLeft_eq, Nat.shiftLeft_eq, ← Int.natCast_add, UnpackedFloat.normalize,
    Int.compare_eq_gt.mpr (Int.natCast_pos.mpr (Nat.add_pos_left hpos _))]
  rfl

/-- A sum is rounded once, if a summand has no more than places. -/
theorem exists_add_eq {m₁ m₂ : Nat} (hm₁ : 0 < m₁) (hm₂ : 0 < m₂) (e₁ : Int) {e₂ : Int}
    (he₂ : e₂ ≤ 0) :
    ∃ m a : Nat, 0 < m ∧ (m : ℚ) * 2 ^ (-(a : Int)) = m₁ * 2 ^ e₁ + m₂ * 2 ^ e₂ ∧
      UnpackedFloat.add .binary64 (.finite .positive m₁ e₁ hm₁) (.finite .positive m₂ e₂ hm₂) =
        round .binary64 .positive m (-a) := by
  obtain ⟨a, ha⟩ : ∃ a : Nat, min e₁ e₂ = -(a : Int) := by
    refine ⟨(-min e₁ e₂).toNat, ?_⟩
    omega
  have hk₁ : -(a : Int) + ((e₁ - -(a : Int)).toNat : Int) = e₁ := by omega
  have hk₂ : -(a : Int) + ((e₂ - -(a : Int)).toNat : Int) = e₂ := by omega
  refine ⟨_, a, Nat.add_pos_left (Nat.mul_pos hm₁ (Nat.two_pow_pos _)) _, ?_,
    add_finite hm₁ hm₂ ha⟩
  rw [Nat.cast_add, add_mul, dyadic_shift, dyadic_shift, hk₁, hk₂]

/-- A summand up to one raises the bound of a sum by one, where that is a double. -/
theorem upTo_add {n : Nat} (hn : n ≤ 2 ^ 53) {x y : Float} (hx : UpTo n x.toModel.unpack)
    (hy : UpTo 1 y.toModel.unpack) : UpTo (min (n + 1) (2 ^ 53)) (x + y).toModel.unpack := by
  have hleft : n ≤ min (n + 1) (2 ^ 53) := by omega
  have hright : 1 ≤ min (n + 1) (2 ^ 53) := by omega
  have hx' := unpack_pack_unpack x
  have hy' := unpack_pack_unpack y
  show UpTo _ (unpack .binary64
    (pack .binary64 (UnpackedFloat.add .binary64 x.toModel.unpack y.toModel.unpack)))
  generalize x.toModel.unpack = u at hx hx'
  generalize y.toModel.unpack = v at hy hy'
  cases hx with
  | zero =>
      have hadd : UnpackedFloat.add .binary64 (.zero .positive) v = v := by
        cases hy <;> rfl
      rw [hadd, hy']
      exact hy.mono hright
  | @finite m₁ e₁ hm₁ bound₁ =>
      cases hy with
      | zero =>
          have hadd : UnpackedFloat.add .binary64 (.finite .positive m₁ e₁ hm₁) (.zero .positive) =
              .finite .positive m₁ e₁ hm₁ := rfl
          rw [hadd, hx']
          exact UpTo.mono hleft (.finite hm₁ bound₁)
      | @finite m₂ e₂ hm₂ bound₂ =>
          have he₂ : e₂ ≤ 0 := exponent_le_of_dyadic_le (k := 0) hm₂ (by simpa using bound₂)
          obtain ⟨m, a, hm, hvalue, hadd⟩ := exists_add_eq hm₁ hm₂ e₁ he₂
          rw [hadd]
          refine upTo_round hm hn ?_
          rw [← dyadic_le_iff, hvalue]
          push_cast at bound₂ ⊢
          exact add_le_add bound₁ bound₂

/-- The unpacked form of a positive double that is at least `n`, or infinite. -/
inductive From (n : Nat) : UnpackedFloat → Prop
  | infinity : From n (.infinity .positive)
  | finite {m : Nat} {e : Int} (hm : 0 < m) (bound : n ≤ (m : ℚ) * 2 ^ e) :
      From n (.finite .positive m e hm)

/-- The double of a number is not below it, as long as there is a double for every number. -/
theorem from_ofNat {n : Nat} (hn : 0 < n) : From (min n (2 ^ 53)) (ofNat n).toModel.unpack := by
  by_cases h : n < 2 ^ 53
  · rw [min_eq_left h.le, ofNat_eq_ofWhole hn h, unpack_ofWhole hn h]
    refine .finite _ ?_
    rw [dyadic_shift, neg_add_cancel, zpow_zero, mul_one]
  · rw [min_eq_right (by omega), ofNat_eq_rounded (by omega)]
    show From _ (unpack .binary64
      (pack .binary64 (roundWithAccuracy .binary64 .positive (n * 2 ^ 53) (-53) .exact)))
    have hlog : (n * 2 ^ 53).log2 = n.log2 + 53 := log2_mul_two_pow hn 53
    have h53 : 53 ≤ n.log2 := (Nat.le_log2 hn.ne').mpr (by omega)
    have hdropped : dropped (n * 2 ^ 53) (-53) = n.log2 + 1 := by
      rw [dropped, hlog]
      omega
    have hround : 2 ^ 52 ≤ rounded (n * 2 ^ 53) (-53) .exact := by
      refine le_trans ?_ (div_le_rounded _ _ _)
      rw [hdropped, Nat.le_div_iff_mul_le (Nat.two_pow_pos _), ← Nat.pow_add,
        show 52 + (n.log2 + 1) = n.log2 + 53 by omega, Nat.pow_add]
      exact Nat.mul_le_mul_right _ (Nat.log2_self_le hn.ne')
    have hexp : (1 : Int) ≤ -53 + dropped (n * 2 ^ 53) (-53) := by omega
    rcases unpack_pack_roundWithAccuracy (m := n * 2 ^ 53) (e := -53) (Or.inl (by omega)) .exact
      with ⟨hzero, -⟩ | ⟨m', e', hm', hvalue, hfinite⟩
    · omega
    · rw [hfinite]
      split
      · refine .finite hm' ?_
        have hpow : (2 : ℚ) ^ (1 : Int) ≤ 2 ^ (-53 + dropped (n * 2 ^ 53) (-53) : Int) :=
          zpow_le_zpow_right₀ (by norm_num) hexp
        have hround' : (2 ^ 52 : ℚ) ≤ rounded (n * 2 ^ 53) (-53) .exact := by
          exact_mod_cast hround
        rw [hvalue]
        calc ((2 ^ 53 : Nat) : ℚ) = 2 ^ 52 * 2 ^ (1 : Int) := by norm_num
          _ ≤ _ := mul_le_mul hround' hpow (by positivity) (by positivity)
      · exact .infinity

theorem halves_fraction_le {num den k : Nat} (h : num ≤ den * k) :
    halves (.ofMantissaAndAccuracy (num / den) (accuracyOfFraction (num % den) den)) ≤ 2 * k := by
  have hle : num / den ≤ k := Nat.div_le_of_le_mul h
  rw [accuracyOfFraction]
  split
  · rw [halves_exact]
    omega
  next hrest =>
    -- Something is left over, so the bound is not reached.
    have hlt : num / den < k := by
      refine lt_of_le_of_ne hle fun heq => hrest ?_
      have := Nat.div_add_mod num den
      rw [heq] at this
      omega
    cases compare (2 * (num % den)) den <;>
      simp [halves, ExtendedMantissa.ofMantissaAndAccuracy] <;> omega

/-- Where the divisor is not smaller, the quotient of the mantissas is taken with zeros put behind
the first one, so many that it has digits enough for rounding, and what is left over is recorded. -/
theorem div_finite {m₁ m₂ : Nat} (hm₁ : 0 < m₁) (hm₂ : 0 < m₂) {e₁ e₂ : Int}
    (hlog : (m₁.log2 : Int) + e₁ < m₂.log2 + 1 + e₂) :
    ∃ a s : Nat, e₁ + (a - e₂) = s ∧ Ample (m₁ * 2 ^ s / m₂) (-(a : Int)) ∧
      UnpackedFloat.div .binary64 (.finite .positive m₁ e₁ hm₁) (.finite .positive m₂ e₂ hm₂) =
        roundWithAccuracy .binary64 .positive (m₁ * 2 ^ s / m₂) (-(a : Int))
          (accuracyOfFraction (m₁ * 2 ^ s % m₂) m₂) := by
  have htarget : Format.binary64.targetExponent (totalExponent m₁ e₁ - totalExponent m₂ e₂) =
      max (m₁.log2 + e₁ - (m₂.log2 + e₂) - 53) (-1074) := by
    rw [targetExponent_eq, totalExponent, totalExponent]
    omega
  obtain ⟨a, ha⟩ : ∃ a : Nat,
      min (e₁ - e₂) (max (m₁.log2 + e₁ - (m₂.log2 + e₂) - 53) (-1074)) = -(a : Int) := by
    refine ⟨(-min (e₁ - e₂) (max (m₁.log2 + e₁ - (m₂.log2 + e₂) - 53) (-1074))).toNat, ?_⟩
    omega
  obtain ⟨s, hs⟩ : ∃ s : Nat, s = (e₁ - e₂ - -(a : Int)).toNat := ⟨_, rfl⟩
  have hcore : divCore .binary64 m₁ e₁ m₂ e₂ = (m₁ * 2 ^ s / m₂, -(a : Int),
      accuracyOfFraction (m₁ * 2 ^ s % m₂) m₂) := by
    simp only [divCore, htarget, ha, Nat.shiftLeft_eq, ← hs]
  refine ⟨a, s, by omega, ?_, ?_⟩
  · by_cases hlowest : -(a : Int) ≤ -1074
    · exact Or.inr hlowest
    · have hdigits : 52 + (m₂.log2 + 1) ≤ m₁.log2 + s := by omega
      refine Or.inl ((Nat.le_div_iff_mul_le hm₂).mpr ?_)
      calc 2 ^ 52 * m₂ ≤ 2 ^ 52 * 2 ^ (m₂.log2 + 1) := Nat.mul_le_mul_left _ Nat.lt_log2_self.le
        _ = 2 ^ (52 + (m₂.log2 + 1)) := (Nat.pow_add ..).symm
        _ ≤ 2 ^ (m₁.log2 + s) := Nat.pow_le_pow_right (by omega) hdigits
        _ = 2 ^ m₁.log2 * 2 ^ s := Nat.pow_add ..
        _ ≤ m₁ * 2 ^ s := Nat.mul_le_mul_right _ (Nat.log2_self_le hm₁.ne')
  · show roundWithAccuracy .binary64 .positive (divCore .binary64 m₁ e₁ m₂ e₂).1
      (divCore .binary64 m₁ e₁ m₂ e₂).2.1 (divCore .binary64 m₁ e₁ m₂ e₂).2.2 = _
    rw [hcore]

/-- **A quotient by something that is not smaller is at most one.** -/
theorem upTo_div {n : Nat} {u v : UnpackedFloat} (hu : UpTo n u) (hv : From n v) :
    UpTo 1 (unpack .binary64 (pack .binary64 (UnpackedFloat.div .binary64 u v))) := by
  have hzero : UpTo 1 (unpack .binary64 (pack .binary64 (.zero .positive))) := by
    show UpTo 1 (unpack .binary64 (packedZero .binary64 .positive))
    rw [unpack_packedZero]
    exact .zero
  cases hu with
  | zero => cases hv <;> exact hzero
  | @finite m₁ e₁ hm₁ bound₁ =>
      cases hv with
      | infinity => exact hzero
      | @finite m₂ e₂ hm₂ bound₂ =>
          have hvalue : (m₁ : ℚ) * 2 ^ e₁ ≤ m₂ * 2 ^ e₂ := le_trans bound₁ bound₂
          obtain ⟨a, s, hshift, hample, hdiv⟩ :=
            div_finite hm₁ hm₂ (exponent_lt_of_dyadic_le hm₁ hvalue)
          have hnum : m₁ * 2 ^ s ≤ m₂ * 2 ^ a := by
            have hscaled := mul_le_mul_of_nonneg_right hvalue
              (show (0 : ℚ) ≤ 2 ^ ((a : Int) - e₂) by positivity)
            rw [mul_assoc, mul_assoc, ← zpow_add₀ (by norm_num), ← zpow_add₀ (by norm_num), hshift,
              add_sub_cancel, zpow_natCast, zpow_natCast] at hscaled
            exact_mod_cast hscaled
          rw [hdiv]
          refine upTo_of_rounded hample (by norm_num) (rounded_le_of_halves (by norm_num) ?_)
          rw [Nat.mul_one]
          exact halves_fraction_le hnum

theorem thousand_eq : (1e3 : Float) = ofWhole 1000 (by decide) :=
  rfl

/-- The unpacked form of a thousand. -/
theorem unpack_thousand : (1e3 : Float).toModel.unpack =
    .finite .positive (1000 * 2 ^ 43) (-43) (by decide) := by
  rw [thousand_eq, unpack_ofWhole _ (by norm_num)]
  rfl

/-- A thousand times a double up to one. -/
theorem upTo_mul_thousand {x : Float} (hx : UpTo 1 x.toModel.unpack) :
    UpTo 1000 (x * 1e3).toModel.unpack := by
  show UpTo 1000 (unpack .binary64
    (pack .binary64 (UnpackedFloat.mul .binary64 x.toModel.unpack (1e3 : Float).toModel.unpack)))
  rw [unpack_thousand]
  generalize x.toModel.unpack = u at hx
  cases hx with
  | zero =>
      show UpTo 1000 (unpack .binary64 (packedZero .binary64 .positive))
      rw [unpack_packedZero]
      exact .zero
  | @finite m e hm bound =>
      have he : e ≤ 0 := exponent_le_of_dyadic_le (k := 0) hm (by simpa using bound)
      obtain ⟨a, ha⟩ : ∃ a : Nat, e = -(a : Int) := ⟨(-e).toNat, by omega⟩
      have hm' : m ≤ 1 * 2 ^ a := dyadic_le_iff.mp (ha ▸ bound)
      have hexp : e + -43 = -((a + 43 : Nat) : Int) := by omega
      show UpTo 1000 (unpack .binary64 (pack .binary64
        (roundWithAccuracy .binary64 .positive (m * (1000 * 2 ^ 43)) (e + -43) .exact)))
      rw [hexp]
      refine upTo_of_rounded (Or.inl (by omega)) (by norm_num)
        (rounded_le_of_halves (by norm_num) ?_)
      rw [halves_exact, Nat.pow_add]
      omega

end ApiSurface.Decimal
