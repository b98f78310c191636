/-
# `ApiSurface.Proofs.Decimal.Nearness` — how far rounding goes

A double below two to the power of 33 has twenty binary places and more, so rounding a number of
that size moves it by at most `precision`, one unit in the twentieth place.  An exact result that is
known up to some error is then known, after rounding, up to that error and `precision` more: such
errors are added up over a sum, divided by a quotient and multiplied by a product (`near_add`,
`near_div`, `near_mul_thousand`).

A whole number of thousandths is much further from the next one than that.  Rounded to three places
it stays what it is, and so does the mean of equal masses (`mean_replicate`), for up to two to the
power of 32 of them.
-/
import ApiSurface.Proofs.Decimal.Thousandths

namespace ApiSurface.Decimal

open Float.Model Float.Model.UnpackedFloat

/-! ## Rounding once -/

/-- The last of twenty binary places. -/
def precision : ℚ :=
  1 / 2 ^ 20

/-- The unpacked form of positive zero, or of a positive double, that is no further than `ε` from
`q`. -/
inductive Near (q ε : ℚ) : UnpackedFloat → Prop
  | zero (near : |q| ≤ ε) : Near q ε (.zero .positive)
  | finite {m : Nat} {e : Int} (hm : 0 < m) (near : |(m : ℚ) * 2 ^ e - q| ≤ ε) :
      Near q ε (.finite .positive m e hm)

theorem Near.mono {q ε ε' : ℚ} (hle : ε ≤ ε') {u : UnpackedFloat} (h : Near q ε u) :
    Near q ε' u := by
  cases h with
  | zero near => exact .zero (le_trans near hle)
  | finite hm near => exact .finite hm (le_trans near hle)

/-- What lies between a mantissa and the next one moves by at most one unit of the last place. -/
theorem abs_rounded_sub_le {m : Nat} {e : Int} {acc : Accuracy} {v : ℚ} (hlow : m ≤ v)
    (hhigh : v ≤ m + 1) :
    |(rounded m e acc : ℚ) * 2 ^ (e + dropped m e) - v * 2 ^ e| ≤ 2 ^ (e + dropped m e) := by
  have hpow : (0 : ℚ) < 2 ^ e := by positivity
  have hdown : ((m / 2 ^ dropped m e : Nat) : ℚ) ≤ rounded m e acc := by
    exact_mod_cast div_le_rounded m e acc
  have hup : (rounded m e acc : ℚ) ≤ (m / 2 ^ dropped m e : Nat) + 1 := by
    exact_mod_cast rounded_le_div m e acc
  have hfloor : ((m / 2 ^ dropped m e : Nat) : ℚ) * 2 ^ dropped m e ≤ m := by
    exact_mod_cast Nat.div_mul_le_self m (2 ^ dropped m e)
  have hceil : (m : ℚ) + 1 ≤ ((m / 2 ^ dropped m e : Nat) + 1) * 2 ^ dropped m e := by
    exact_mod_cast Nat.lt_mul_of_div_lt (Nat.lt_succ_self _) (Nat.two_pow_pos _)
  generalize ((m / 2 ^ dropped m e : Nat) : ℚ) = q at *
  have hscale : (0 : ℚ) < 2 ^ dropped m e := by positivity
  have hinside : |(rounded m e acc : ℚ) * 2 ^ dropped m e - v| ≤ 2 ^ dropped m e := by
    have hdown' := mul_le_mul_of_nonneg_right hdown hscale.le
    have hup' := mul_le_mul_of_nonneg_right hup hscale.le
    rw [add_mul, one_mul] at hup' hceil
    rw [abs_sub_le_iff]
    constructor <;> linarith
  have hsplit : (rounded m e acc : ℚ) * 2 ^ (e + dropped m e) - v * 2 ^ e =
      ((rounded m e acc : ℚ) * 2 ^ dropped m e - v) * 2 ^ e := by
    rw [zpow_add₀ (by norm_num), zpow_natCast]
    ring
  rw [hsplit, abs_mul, abs_of_pos hpow, zpow_add₀ (by norm_num), zpow_natCast, mul_comm]
  exact mul_le_mul_of_nonneg_left hinside hpow.le

/-- Twenty places stay of a number below two to the power of 33. -/
theorem place_le {m : Nat} {e : Int} (hample : Ample m e) (h : (m : ℚ) * 2 ^ e < 2 ^ 33) :
    e + dropped m e ≤ -20 := by
  rcases Nat.eq_zero_or_pos m with rfl | hm
  · have hlow : e ≤ -1074 := hample.resolve_left (by norm_num)
    rw [dropped, Nat.log2_zero]
    omega
  · have hlog : (m.log2 : Int) + e < 33 := by
      refine (zpow_lt_zpow_iff_right₀ (a := (2 : ℚ)) (by norm_num)).mp (lt_of_le_of_lt ?_ h)
      rw [zpow_add₀ (by norm_num), zpow_natCast]
      refine mul_le_mul_of_nonneg_right ?_ (by positivity)
      exact_mod_cast Nat.log2_self_le hm.ne'
    have hdigits : 52 ≤ m.log2 ∨ e ≤ -1074 :=
      hample.imp_left fun hm => (Nat.le_log2 (by omega)).mpr hm
    rw [dropped]
    omega

/-- **Rounding a number that is known up to an error.** -/
theorem near_roundWithAccuracy {m : Nat} {e : Int} {acc : Accuracy} {v q ε : ℚ}
    (hample : Ample m e) (hlow : m ≤ v) (hhigh : v ≤ m + 1) (hbound : (m : ℚ) * 2 ^ e < 2 ^ 33)
    (hnear : |v * 2 ^ e - q| ≤ ε) :
    Near q (ε + precision)
      (unpack .binary64 (pack .binary64 (roundWithAccuracy .binary64 .positive m e acc))) := by
  have hplace : (2 : ℚ) ^ (e + dropped m e) ≤ precision := by
    rw [precision, one_div, ← zpow_natCast, ← zpow_neg]
    exact zpow_le_zpow_right₀ (by norm_num) (place_le hample hbound)
  have herror : |(rounded m e acc : ℚ) * 2 ^ (e + dropped m e) - q| ≤ ε + precision :=
    calc |(rounded m e acc : ℚ) * 2 ^ (e + dropped m e) - q|
        ≤ |(rounded m e acc : ℚ) * 2 ^ (e + dropped m e) - v * 2 ^ e| + |v * 2 ^ e - q| :=
          abs_sub_le _ _ _
      _ ≤ 2 ^ (e + dropped m e) + ε := add_le_add (abs_rounded_sub_le hlow hhigh) hnear
      _ ≤ precision + ε := add_le_add_left hplace ε
      _ = ε + precision := add_comm _ _
  rcases unpack_pack_roundWithAccuracy hample acc with
    ⟨hnone, hzero⟩ | ⟨m', e', hm', hvalue, hfinite⟩
  · rw [hnone, Nat.cast_zero, zero_mul, zero_sub, abs_neg] at herror
    rw [hzero]
    exact .zero herror
  · have hsmall : (m' : ℚ) * 2 ^ e' ≤ 2 ^ 53 := by
      have hdigits : (rounded m e acc : ℚ) ≤ 2 ^ 53 := by exact_mod_cast rounded_le m e acc
      have hone : (2 : ℚ) ^ (e + dropped m e) ≤ 1 :=
        le_trans hplace (by rw [precision]; norm_num)
      rw [hvalue]
      exact le_trans (mul_le_of_le_one_right (by positivity) hone) hdigits
    rw [hfinite, if_pos (le_trans (exponent_le_of_dyadic_le hm' hsmall) (by norm_num))]
    exact .finite hm' (hvalue ▸ herror)

/-! ## Sums, products and quotients -/

theorem near_add {x y : Float} {q₁ ε₁ q₂ ε₂ : ℚ} (hx : Near q₁ ε₁ x.toModel.unpack)
    (hy : Near q₂ ε₂ y.toModel.unpack) (hone : UpTo 1 y.toModel.unpack)
    (hbound : q₁ + ε₁ + (q₂ + ε₂) < 2 ^ 33) :
    Near (q₁ + q₂) (ε₁ + ε₂ + precision) (x + y).toModel.unpack := by
  have hprecision : (0 : ℚ) ≤ precision := by
    rw [precision]
    norm_num
  have hx' := unpack_pack_unpack x
  have hy' := unpack_pack_unpack y
  show Near _ _ (unpack .binary64
    (pack .binary64 (UnpackedFloat.add .binary64 x.toModel.unpack y.toModel.unpack)))
  generalize x.toModel.unpack = u at hx hx'
  generalize y.toModel.unpack = v at hy hy' hone
  cases hx with
  | zero near₁ =>
      have hadd : UnpackedFloat.add .binary64 (.zero .positive) v = v := by
        cases hy <;> rfl
      rw [hadd, hy']
      cases hy with
      | zero near₂ =>
          refine .zero (le_trans (abs_add_le _ _) ?_)
          linarith
      | finite hm₂ near₂ =>
          refine .finite hm₂ ?_
          rw [abs_le] at near₁ near₂ ⊢
          constructor <;> linarith
  | @finite m₁ e₁ hm₁ near₁ =>
      cases hy with
      | zero near₂ =>
          have hadd : UnpackedFloat.add .binary64 (.finite .positive m₁ e₁ hm₁) (.zero .positive) =
              .finite .positive m₁ e₁ hm₁ := rfl
          rw [hadd, hx']
          refine .finite hm₁ ?_
          rw [abs_le] at near₁ near₂ ⊢
          constructor <;> linarith
      | @finite m₂ e₂ hm₂ near₂ =>
          have he₂ : e₂ ≤ 0 := by
            cases hone with
            | finite _ bound =>
                exact exponent_le_of_dyadic_le (k := 0) hm₂ (by simpa using bound)
          obtain ⟨m, a, hm, hvalue, hadd⟩ := exists_add_eq hm₁ hm₂ e₁ he₂
          obtain ⟨k, hample, hround⟩ := exists_round_eq hm a
          have hshift : ((m * 2 ^ k : Nat) : ℚ) * 2 ^ (-((a + k : Nat) : Int)) =
              m₁ * 2 ^ e₁ + m₂ * 2 ^ e₂ := by
            rw [dyadic_shift, ← hvalue]
            congr 2
            push_cast
            ring
          rw [abs_le] at near₁ near₂
          rw [hadd, hround]
          refine near_roundWithAccuracy hample (le_refl _) (by linarith) ?_ ?_
          · rw [hshift]
            linarith
          · rw [hshift, abs_le]
            constructor <;> linarith

theorem near_div {n : Nat} (hn : 0 < n) {u : UnpackedFloat} {q ε : ℚ} (hu : Near q ε u)
    (hle : UpTo n u) :
    Near (q / n) (ε / n + precision)
      (unpack .binary64 (pack .binary64 (UnpackedFloat.div .binary64 u (whole n hn)))) := by
  have hn' : (0 : ℚ) < n := by exact_mod_cast hn
  cases hu with
  | zero near =>
      show Near _ _ (unpack .binary64 (packedZero .binary64 .positive))
      rw [unpack_packedZero]
      refine .zero ?_
      rw [abs_div, abs_of_pos hn', precision]
      have := div_le_div_of_nonneg_right near hn'.le
      linarith
  | @finite m e hm near =>
      have hbound : (m : ℚ) * 2 ^ e ≤ n := by
        cases hle with
        | finite _ bound => exact bound
      have hwhole : ((n * 2 ^ gap n : Nat) : ℚ) * 2 ^ (-(gap n : Int)) = n := by
        rw [dyadic_shift, neg_add_cancel, zpow_zero, mul_one]
      have hpos : 0 < n * 2 ^ gap n := Nat.mul_pos hn (Nat.two_pow_pos _)
      obtain ⟨a, s, hshift, hample, hdiv⟩ := div_finite hm hpos
        (exponent_lt_of_dyadic_le hm (le_of_le_of_eq hbound hwhole.symm))
      have hpos' : (0 : ℚ) < (n * 2 ^ gap n : Nat) := by exact_mod_cast hpos
      have hvalue : ((m * 2 ^ s : Nat) : ℚ) / (n * 2 ^ gap n : Nat) * 2 ^ (-(a : Int)) =
          m * 2 ^ e / n := by
        have hexp : -(a : Int) + s = e + gap n := by omega
        rw [div_mul_eq_mul_div, dyadic_shift, hexp, zpow_add₀ (by norm_num), zpow_natCast,
          ← mul_assoc, Nat.cast_mul, Nat.cast_pow, Nat.cast_ofNat,
          mul_div_mul_right _ _ (by positivity)]
      have hlow := Nat.cast_div_le (α := ℚ) (m := m * 2 ^ s) (n := n * 2 ^ gap n)
      show Near _ _ (unpack .binary64 (pack .binary64
        (UnpackedFloat.div .binary64 (.finite .positive m e hm) (.finite .positive _ _ hpos))))
      rw [hdiv]
      refine near_roundWithAccuracy hample hlow ?_ ?_ ?_
      · rw [div_le_iff₀ hpos']
        exact_mod_cast (Nat.lt_mul_of_div_lt (Nat.lt_succ_self _) hpos).le
      · refine lt_of_le_of_lt (mul_le_mul_of_nonneg_right hlow (by positivity)) ?_
        rw [hvalue]
        exact lt_of_le_of_lt ((div_le_one hn').mpr hbound) (by norm_num)
      · rw [hvalue, ← sub_div, abs_div, abs_of_pos hn']
        exact div_le_div_of_nonneg_right near hn'.le

theorem near_mul_thousand {x : Float} {q ε : ℚ} (hx : Near q ε x.toModel.unpack)
    (hone : UpTo 1 x.toModel.unpack) :
    Near (q * 1000) (ε * 1000 + precision) (x * 1e3).toModel.unpack := by
  show Near _ _ (unpack .binary64
    (pack .binary64 (UnpackedFloat.mul .binary64 x.toModel.unpack (1e3 : Float).toModel.unpack)))
  rw [unpack_thousand]
  generalize x.toModel.unpack = u at hx hone
  cases hx with
  | zero near =>
      show Near _ _ (unpack .binary64 (packedZero .binary64 .positive))
      rw [unpack_packedZero]
      refine .zero ?_
      rw [abs_mul, abs_of_pos (show (0 : ℚ) < 1000 by norm_num), precision]
      linarith
  | @finite m e hm near =>
      have hbound : (m : ℚ) * 2 ^ e ≤ 1 := by
        cases hone with
        | finite _ bound => exact_mod_cast bound
      have hvalue : ((m * (1000 * 2 ^ 43) : Nat) : ℚ) * 2 ^ (e + -43) = m * 2 ^ e * 1000 := by
        have hexp : e + -43 + ((43 : Nat) : Int) = e := by omega
        rw [← Nat.mul_assoc, dyadic_shift, hexp]
        push_cast
        ring
      show Near _ _ (unpack .binary64 (pack .binary64
        (roundWithAccuracy .binary64 .positive (m * (1000 * 2 ^ 43)) (e + -43) .exact)))
      refine near_roundWithAccuracy (Or.inl (by omega)) (le_refl _) (by linarith) ?_ ?_
      · rw [hvalue]
        linarith
      · rw [hvalue, ← sub_mul, abs_mul, abs_of_pos (show (0 : ℚ) < 1000 by norm_num)]
        exact mul_le_mul_of_nonneg_right near (by norm_num)

/-! ## Whole numbers -/

theorem halfUp_eq {m a k : Nat} {ε : ℚ} (hε : ε < 1 / 2)
    (h : |(m : ℚ) * 2 ^ (-(a : Int)) - k| ≤ ε) : halfUp m a = k := by
  have hscale : (0 : ℚ) < 2 ^ a := by positivity
  have hvalue : (m : ℚ) = m * 2 ^ (-(a : Int)) * 2 ^ a := by
    rw [zpow_neg, zpow_natCast, inv_mul_cancel_right₀ hscale.ne']
  rw [abs_le] at h
  have hlow : 2 * k * 2 ^ a < 2 * m + 2 ^ a := by
    have hlt : ((k : ℚ) - 1 / 2) * 2 ^ a < m := by
      rw [hvalue]
      exact mul_lt_mul_of_pos_right (by linarith) hscale
    have : (2 * k * 2 ^ a : ℚ) < 2 * m + 2 ^ a := by linarith
    exact_mod_cast this
  have hhigh : 2 * m < (2 * k + 1) * 2 ^ a := by
    have hlt : (m : ℚ) < (k + 1 / 2) * 2 ^ a := by
      rw [hvalue]
      exact mul_lt_mul_of_pos_right (by linarith) hscale
    have : (2 * m : ℚ) < (2 * k + 1) * 2 ^ a := by linarith
    exact_mod_cast this
  show (2 * m + 2 ^ a) / 2 ^ (a + 1) = k
  refine Nat.div_eq_of_lt_le ?_ ?_
  · rw [Nat.pow_succ]
    linarith
  · rw [Nat.pow_succ]
    linarith

/-- What is closer to a whole number than a half is rounded to it. -/
theorem roundWhole_of_near {x : Float} {k : Nat} (hk : k ≤ 1000) {ε : ℚ} (hε : ε < 1 / 2)
    (h : Near k ε x.toModel.unpack) : roundWhole x = k.toUInt64.toFloat := by
  generalize hu : x.toModel.unpack = u at h
  cases h with
  | zero near =>
      rw [abs_of_nonneg (Nat.cast_nonneg k)] at near
      have hlt : (k : ℚ) < 1 := by linarith
      obtain rfl : k = 0 := Nat.lt_one_iff.mp (by exact_mod_cast hlt)
      rw [eq_zero_of_unpack hu]
      decide +kernel
  | @finite m e hm near =>
      have hbound : (m : ℚ) * 2 ^ e ≤ (1001 : Nat) := by
        have hk' : (k : ℚ) ≤ 1000 := by exact_mod_cast hk
        rw [abs_le] at near
        push_cast
        linarith
      obtain ⟨a, rfl, hround⟩ := roundWhole_of_unpack (by norm_num) hu hbound
      rw [hround, halfUp_eq hε near]

/-! ## Equal masses -/

theorem near_toFloat {k : Nat} (h : k < 2 ^ 53) :
    Near k 0 k.toUInt64.toFloat.toModel.unpack := by
  rcases Nat.eq_zero_or_pos k with rfl | hk
  · have hzero : (Nat.toUInt64 0).toFloat.toModel.unpack = .zero .positive := by rfl
    rw [hzero]
    exact .zero (by norm_num)
  · rw [toFloat_eq_ofWhole hk h, unpack_ofWhole hk h]
    refine .finite _ ?_
    rw [dyadic_shift, neg_add_cancel, zpow_zero, mul_one, sub_self, abs_zero]

theorem near_thousandth {k : Nat} (hk : k ≤ 1000) :
    Near (k / 1000) precision (thousandth k).toModel.unpack := by
  have hdiv := near_div (n := 1000) (by norm_num) (near_toFloat (k := k) (by omega))
    ((upTo_toFloat (by omega)).mono hk)
  rw [zero_div, zero_add, ← unpack_ofWhole _ (by norm_num), ← thousand_eq] at hdiv
  exact hdiv

/-- One thousandth or more is not zero. -/
theorem thousandth_ne_zero {k : Nat} (hk : 1 ≤ k) (h : k ≤ 1000) : (thousandth k == 0) = false := by
  have hnear := near_thousandth h
  have hpos : (1 : ℚ) ≤ k := by exact_mod_cast hk
  show UnpackedFloat.beq (thousandth k).toModel.unpack (0 : Float).toModel.unpack = false
  have hzero : (0 : Float).toModel.unpack = .zero .positive := by rfl
  rw [hzero]
  generalize (thousandth k).toModel.unpack = u at hnear
  cases hnear with
  | zero near =>
      rw [abs_le, precision] at near
      linarith
  | finite hm near => rfl

/-- The stored masses other than zero. -/
theorem stored_nonzero_iff {x : Float} :
    Stored x ∧ (x == 0) = false ↔ ∃ k, 1 ≤ k ∧ k ≤ 1000 ∧ x = thousandth k := by
  constructor
  · rintro ⟨⟨k, hk, rfl⟩, hnonzero⟩
    refine ⟨k, Nat.one_le_iff_ne_zero.mpr ?_, hk, rfl⟩
    rintro rfl
    exact absurd hnonzero (by decide +kernel)
  · rintro ⟨k, hk, hle, rfl⟩
    exact ⟨⟨k, hle, rfl⟩, thousandth_ne_zero hk hle⟩

theorem near_total_replicate {x : Float} {q : ℚ} (hq : q ≤ 1)
    (hx : Near q precision x.toModel.unpack) (hone : UpTo 1 x.toModel.unpack) {n : Nat}
    (hn : n ≤ 2 ^ 32) :
    Near (n * q) (n * (2 * precision)) (Guess.total (List.replicate n x)).toModel.unpack := by
  induction n with
  | zero =>
      have hzero : (0 : Float).toModel.unpack = .zero .positive := by rfl
      show Near _ _ (0 : Float).toModel.unpack
      rw [hzero]
      exact .zero (by norm_num)
  | succ n ih =>
      have hcount : (n : ℚ) ≤ 2 ^ 32 := by exact_mod_cast (Nat.le_of_succ_le hn)
      have hsum : (n : ℚ) * q ≤ 2 ^ 32 :=
        le_trans (mul_le_of_le_one_right (Nat.cast_nonneg n) hq) hcount
      have hstep := near_add (ih (Nat.le_of_succ_le hn)) hx hone (by
        rw [precision]
        linarith)
      rw [List.replicate_succ', Guess.total, List.foldl_append, Nat.cast_succ, add_mul, one_mul,
        add_mul, one_mul, two_mul, ← add_assoc, ← two_mul]
      exact hstep

/-- **The mean of equal stored masses is that mass.** -/
theorem mean_replicate {n : Nat} (hn : 0 < n) (hlimit : n ≤ 2 ^ 32) {x : Float} (h : Stored x) :
    Guess.mean n (List.replicate n x) = x := by
  have hstored : ∀ m ∈ List.replicate n x, Stored m := by
    intro m hm
    rwa [List.eq_of_mem_replicate hm]
  have hupTo : UpTo n (Guess.total (List.replicate n x)).toModel.unpack := by
    refine (upTo_total hstored).mono ?_
    rw [List.length_replicate]
    exact min_le_left _ _
  obtain ⟨k, hk, rfl⟩ := h
  have hcount : (n : ℚ) ≠ 0 := by exact_mod_cast hn.ne'
  have hk' : (k / 1000 : ℚ) ≤ 1 := (div_le_one (by norm_num)).mpr (by exact_mod_cast hk)
  have hone := Stored.upTo ⟨k, hk, rfl⟩
  have htotal := near_total_replicate hk' (near_thousandth hk) hone hlimit
  have hdouble : (ofNat n).toModel.unpack = whole n hn := by
    rw [ofNat_eq_ofWhole hn (by omega), unpack_ofWhole _ (by omega)]
  have hquotient : Near (k / 1000) (3 * precision)
      (Guess.total (List.replicate n (thousandth k)) / ofNat n).toModel.unpack := by
    have hdiv := near_div hn htotal hupTo
    rw [mul_div_cancel_left₀ _ hcount, mul_div_cancel_left₀ _ hcount, ← hdouble] at hdiv
    exact hdiv.mono (by linarith)
  have hfrom := from_ofNat hn
  rw [min_eq_left (by omega)] at hfrom
  have hproduct := near_mul_thousand hquotient (upTo_div hupTo hfrom)
  rw [div_mul_cancel₀ _ (by norm_num)] at hproduct
  rw [Guess.mean, roundMass, roundWhole_of_near hk (by rw [precision]; norm_num) hproduct,
    thousandth]

end ApiSurface.Decimal
