/-
# `ApiSurface.Proofs.Decimal.Thousandths` — masses as they are stored

A mass is rounded to three places before it is stored, so it is a whole number over a thousand, and
that number is at most a thousand if the mass is at most one (`Stored`).  The mean of stored masses
is stored again (`stored_mean`): the sum is at most the number of summands or two to the power of
53, at which sums stop growing, and so is the quotient at most one, whatever was rounded on the way.

Rounding to a whole number reads the bits of a double, while the arithmetic of doubles is about
their unpacked form; `classify_of_unpack` ties the two together.
-/
import ApiSurface.Proofs.Decimal.Bounds

namespace ApiSurface.Decimal

open Float.Model Float.Model.UnpackedFloat

/-! ## Classes of doubles -/

theorem toNat_unpackMantissa (b : BitVec 64) :
    (@unpackMantissa .binary64 b).toNat = b.toNat % leastNormal := by
  rw [unpackMantissa_def, BitVec.extractLsb'_toNat, Nat.shiftRight_zero]
  rfl

theorem toNat_unpackExponent (b : BitVec 64) :
    (@unpackExponent .binary64 b).toNat = b.toNat / leastNormal % 2048 := by
  rw [unpackExponent_def, BitVec.extractLsb'_toNat, Nat.shiftRight_eq_div_pow]
  rfl

theorem toNat_unpackSign (b : BitVec 64) :
    (@unpackSign .binary64 b).toNat = b.toNat / (2048 * leastNormal) := by
  rw [unpackSign_def, BitVec.extractLsb'_toNat, Nat.shiftRight_eq_div_pow]
  have := b.isLt
  simp [leastNormal]
  omega

/-- The class of a double in terms of the parts of its bits. -/
theorem classify_eq (x : Float) :
    classify x =
      let b := x.toModel.toBits.toBitVec
      let negative := decide ((@unpackSign .binary64 b).toNat = 1)
      if (@unpackExponent .binary64 b).toNat = 2047 then
        if (@unpackMantissa .binary64 b).toNat = 0 then .infinite negative else .notANumber
      else if (@unpackExponent .binary64 b).toNat = 0 then
        .finite negative (@unpackMantissa .binary64 b).toNat (-1074)
      else .finite negative ((@unpackMantissa .binary64 b).toNat + leastNormal)
        ((@unpackExponent .binary64 b).toNat - 1075) := by
  have hnegative : decide (2048 * leastNormal ≤ x.toBits.toNat) =
      decide (x.toBits.toNat / (2048 * leastNormal) = 1) := by
    have := x.toBits.toBitVec.isLt
    have hword : x.toBits.toBitVec.toNat = x.toBits.toNat := rfl
    rw [decide_eq_decide, leastNormal]
    omega
  rw [classify]
  simp only [toNat_unpackMantissa, toNat_unpackExponent, toNat_unpackSign, hnegative]
  rfl

/-- The bits of a positive double say what its unpacked form says. -/
theorem classify_of_unpack {x : Float} {m : Nat} {e : Int} {hm : 0 < m}
    (h : x.toModel.unpack = .finite .positive m e hm) :
    classify x = .finite false m e ∧ (2 ^ 52 ≤ m ∨ e = -1074) := by
  have hpositive : ∀ {sign : BitVec 1}, Sign.ofBitVec sign = .positive → sign.toNat = 0 := by
    intro sign heq
    have hbit := congrArg Sign.toBitVec heq
    rw [Sign.toBitVec_ofBitVec] at hbit
    rw [hbit]
    rfl
  rw [classify_eq]
  unfold Float.Model.unpack UnpackedFloat.unpack at h
  generalize x.toModel.toBits.toBitVec = b at h
  simp only at h ⊢
  split at h
  · split at h <;> cases h
  next hones =>
    have hfinite : (@unpackExponent .binary64 b).toNat ≠ 2047 :=
      fun heq => hones (BitVec.eq_of_toNat_eq heq)
    rw [if_neg hfinite]
    split at h
    next hnil =>
      split at h
      · cases h
      · injection h with hsign hdigits hlowest
        rw [hnil] at hlowest ⊢
        rw [hpositive hsign, hdigits, ← hlowest]
        exact ⟨rfl, Or.inr rfl⟩
    next hnormal =>
      injection h with hsign hdigits hplace
      have hexp : (@unpackExponent .binary64 b).toNat ≠ 0 :=
        fun heq => hnormal (BitVec.eq_of_toNat_eq heq)
      have hfull : (@unpackMantissa .binary64 b).toNat + leastNormal = m := by
        rw [← hdigits, BitVec.toNat_append, ← Nat.shiftLeft_add_eq_or_of_lt (BitVec.isLt _)]
        exact Nat.add_comm ..
      rw [if_neg hexp, hpositive hsign, hfull, ← hplace]
      refine ⟨rfl, Or.inl ?_⟩
      rw [← hfull]
      exact Nat.le_add_left ..

theorem ofModel_unpack (x : Float) : Float.ofModel (.pack x.toModel.unpack) = x := by
  have hbits := congrArg UInt64.ofBitVec (pack_unpack_of_valid x.toModel.valid)
  obtain ⟨⟨bits, valid⟩⟩ := x
  exact congrArg Float.ofModel (Float.Model.mk.injEq .. ▸ hbits)

/-! ## Thousandths -/

/-- A whole number over a thousand. -/
def thousandth (k : Nat) : Float :=
  k.toUInt64.toFloat / 1e3

/-- A mass as it is stored: so many thousandths of one. -/
def Stored (x : Float) : Prop :=
  ∃ k ≤ 1000, x = thousandth k

theorem upTo_toFloat {k : Nat} (h : k < 2 ^ 53) : UpTo k k.toUInt64.toFloat.toModel.unpack := by
  rcases Nat.eq_zero_or_pos k with rfl | hk
  · have hzero : (Nat.toUInt64 0).toFloat.toModel.unpack = .zero .positive := by rfl
    rw [hzero]
    exact .zero
  · rw [toFloat_eq_ofWhole hk h, unpack_ofWhole hk h]
    refine .finite _ ?_
    rw [dyadic_shift, neg_add_cancel, zpow_zero, mul_one]

theorem from_thousand : From 1000 (1e3 : Float).toModel.unpack := by
  rw [unpack_thousand]
  refine .finite _ ?_
  rw [dyadic_shift]
  norm_num

theorem Stored.upTo {x : Float} (h : Stored x) : UpTo 1 x.toModel.unpack := by
  obtain ⟨k, hk, rfl⟩ := h
  exact upTo_div ((upTo_toFloat (by omega)).mono hk) from_thousand

theorem halfUp_le {m a n : Nat} (h : m ≤ n * 2 ^ a) : halfUp m a ≤ n := by
  show (2 * m + 2 ^ a) / 2 ^ (a + 1) ≤ n
  rw [Nat.div_le_iff_le_mul (Nat.two_pow_pos _), Nat.pow_succ]
  have hpos := Nat.two_pow_pos a
  have hscaled : n * (2 ^ a * 2) = 2 * (n * 2 ^ a) := by ring
  omega

theorem eq_zero_of_unpack {x : Float} (h : x.toModel.unpack = .zero .positive) : x = 0 := by
  rw [← ofModel_unpack x, h]
  rfl

/-- A positive double within a small bound has places, and is rounded to a whole number there. -/
theorem roundWhole_of_unpack {n m : Nat} (hn : n < 2 ^ 52) {x : Float} {e : Int} {hm : 0 < m}
    (h : x.toModel.unpack = .finite .positive m e hm) (bound : (m : ℚ) * 2 ^ e ≤ n) :
    ∃ a : Nat, e = -(a : Int) ∧ roundWhole x = (halfUp m a).toUInt64.toFloat := by
  obtain ⟨hclass, hfull⟩ := classify_of_unpack h
  by_cases he : 0 ≤ e
  · -- A double that has no places is larger than the bound.
    exfalso
    have hlarge : 2 ^ 52 ≤ m := hfull.resolve_right (by omega)
    have hone : (1 : ℚ) ≤ 2 ^ e := one_le_zpow₀ (by norm_num) he
    have hle : (m : ℚ) ≤ n := le_trans (le_mul_of_one_le_right (by positivity) hone) bound
    have : m ≤ n := by exact_mod_cast hle
    omega
  · obtain ⟨a, rfl⟩ : ∃ a : Nat, e = -(a : Int) := ⟨(-e).toNat, by omega⟩
    refine ⟨a, rfl, ?_⟩
    rw [roundWhole, hclass]
    simp only [if_neg he, neg_neg, Int.toNat_natCast, Bool.false_eq_true, if_false]

/-- Rounding keeps a double within a bound and makes it whole. -/
theorem exists_roundWhole {n : Nat} (hn : n < 2 ^ 52) {x : Float}
    (h : UpTo n x.toModel.unpack) : ∃ k ≤ n, roundWhole x = k.toUInt64.toFloat := by
  generalize hu : x.toModel.unpack = u at h
  cases h with
  | zero =>
      refine ⟨0, Nat.zero_le _, ?_⟩
      rw [eq_zero_of_unpack hu]
      decide +kernel
  | @finite m e hm bound =>
      obtain ⟨a, rfl, hround⟩ := roundWhole_of_unpack hn hu bound
      exact ⟨halfUp m a, halfUp_le (dyadic_le_iff.mp bound), hround⟩

theorem upTo_total {masses : List Float} (h : ∀ m ∈ masses, Stored m) :
    UpTo (min masses.length (2 ^ 53)) (Guess.total masses).toModel.unpack := by
  have hfold : ∀ n x, UpTo (min n (2 ^ 53)) x.toModel.unpack →
      UpTo (min (n + masses.length) (2 ^ 53)) (masses.foldl (· + ·) x).toModel.unpack := by
    induction masses with
    | nil => exact fun n x hx => hx
    | cons m masses ih =>
        intro n x hx
        obtain ⟨hm, hmasses⟩ := List.forall_mem_cons.mp h
        have hsum := upTo_add (min_le_right _ _) hx hm.upTo
        have hnext := ih hmasses (n + 1) (x + m) (hsum.mono (by omega))
        rwa [List.length_cons, Nat.add_comm masses.length, ← Nat.add_assoc]
  have hzero : (0 : Float).toModel.unpack = .zero .positive := by rfl
  have hstart : UpTo (min 0 (2 ^ 53)) (0 : Float).toModel.unpack := hzero ▸ .zero
  simpa [Guess.total] using hfold 0 0 hstart

/-- **The mean of stored masses is a stored mass.** -/
theorem stored_mean {count : Nat} (hc : 0 < count) {masses : List Float}
    (hlength : masses.length ≤ count) (h : ∀ m ∈ masses, Stored m) :
    Stored (Guess.mean count masses) := by
  have htotal : UpTo (min count (2 ^ 53)) (Guess.total masses).toModel.unpack :=
    (upTo_total h).mono (by omega)
  have hquotient : UpTo 1 (Guess.total masses / ofNat count).toModel.unpack :=
    upTo_div htotal (from_ofNat hc)
  obtain ⟨k, hk, hround⟩ := exists_roundWhole (by norm_num) (upTo_mul_thousand hquotient)
  refine ⟨k, hk, ?_⟩
  rw [Guess.mean, roundMass, hround, thousandth]

theorem stored_zero : Stored 0 :=
  ⟨0, Nat.zero_le _, rfl⟩

theorem stored_one : Stored 1 :=
  ⟨1000, le_refl _, rfl⟩

end ApiSurface.Decimal
