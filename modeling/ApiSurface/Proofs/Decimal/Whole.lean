/-
# `ApiSurface.Proofs.Decimal.Whole` — whole numbers as doubles

A positive whole number below two to the power of 53 is a double, and so are its successor and its
quotient by itself: nothing is lost on the way.  Beyond that bound the nearest double is still
neither zero nor undefined.  From this come the two facts about means that guesses rest on: the mean
of zeros is zero (`zero_div_ofNat`), and the mean of ones is one (`ofWhole_div_self`).

The doubles of the language are given by unpacking their bits, computing with mantissa and exponent
and packing the rounded result.  `whole k` is the unpacked form of `k`: its mantissa has 53 digits.
-/
import ApiSurface.Guess.Union
import Mathlib

namespace ApiSurface.Decimal

open Float.Model Float.Model.UnpackedFloat

/-! ## Shifting -/

theorem shiftRight_mantissa (em : ExtendedMantissa) (n : Nat) :
    (em >>> n).mantissa = em.mantissa / 2 ^ n := by
  show (n.repeat ExtendedMantissa.shiftRightOne em).mantissa = _
  induction n with
  | zero => simp [Nat.repeat]
  | succ n ih =>
      rw [Nat.repeat, ExtendedMantissa.shiftRightOne, ih, Nat.div_div_eq_div_mul, Nat.pow_succ]

/-- Zeros that are shifted out leave no trace. -/
theorem shiftRight_zeros (m n : Nat) :
    (⟨m * 2 ^ n, false, false⟩ : ExtendedMantissa) >>> n = ⟨m, false, false⟩ := by
  show n.repeat ExtendedMantissa.shiftRightOne _ = _
  induction n generalizing m with
  | zero => simp [Nat.repeat]
  | succ n ih =>
      have h : m * 2 ^ (n + 1) = m * 2 * 2 ^ n := by
        rw [Nat.pow_succ]
        ring
      rw [h, Nat.repeat, ih, ExtendedMantissa.shiftRightOne]
      simp

theorem targetExponent_eq (t : Int) : Format.binary64.targetExponent t = max (t - 53) (-1074) := by
  rw [Format.targetExponent]
  rfl

theorem log2_mul_two_pow {k : Nat} (hk : 0 < k) (a : Nat) : (k * 2 ^ a).log2 = k.log2 + a := by
  refine (Nat.log2_eq_iff (Nat.mul_pos hk (Nat.two_pow_pos a)).ne').mpr ⟨?_, ?_⟩
  · rw [Nat.pow_add]
    exact Nat.mul_le_mul_right _ (Nat.log2_self_le hk.ne')
  · have hsucc : 2 ^ (k.log2 + a + 1) = 2 ^ (k.log2 + 1) * 2 ^ a := by
      rw [← Nat.pow_add]
      congr 1
      omega
    rw [hsucc]
    exact Nat.mul_lt_mul_of_pos_right Nat.lt_log2_self (Nat.two_pow_pos a)

theorem log2_le {k : Nat} (hk : 0 < k) (h : k < 2 ^ 53) : k.log2 ≤ 52 :=
  Nat.lt_succ_iff.mp ((Nat.log2_lt hk.ne').mpr h)

/-! ## The unpacked form of a whole number -/

/-- How far the digits of a number are from the 53 digits of a mantissa. -/
def gap (k : Nat) : Nat :=
  52 - k.log2

/-- A positive whole number with as many digits as a mantissa has. -/
def whole (k : Nat) (hk : 0 < k) : UnpackedFloat :=
  .finite .positive (k * 2 ^ gap k) (-(gap k : Int)) (Nat.mul_pos hk (Nat.two_pow_pos _))

/-- Rounding a whole number with zeros behind it takes the zeros away. -/
theorem roundWithAccuracy_whole {k : Nat} (hk : 0 < k) (h : k < 2 ^ 53) {a : Nat}
    (ha : gap k ≤ a) :
    roundWithAccuracy .binary64 .positive (k * 2 ^ a) (-(a : Int)) .exact = whole k hk := by
  have hlog := log2_le hk h
  have hgap : gap k + k.log2 = 52 := by
    rw [gap]
    omega
  have hshift : ∀ b, gap k ≤ b →
      shiftToTargetExponent .binary64 (k * 2 ^ b) (-(b : Int)) .exact =
        (⟨k * 2 ^ gap k, false, false⟩, -(gap k : Int)) := by
    intro b hb
    have htarget : Format.binary64.targetExponent (totalExponent (k * 2 ^ b) (-(b : Int))) =
        -(gap k : Int) := by
      rw [targetExponent_eq, totalExponent, log2_mul_two_pow hk]
      push_cast
      omega
    have hsplit : k * 2 ^ b = k * 2 ^ gap k * 2 ^ (b - gap k) := by
      rw [Nat.mul_assoc, ← Nat.pow_add]
      congr 2
      omega
    have hamount : (-(gap k : Int) - -(b : Int)).toNat = b - gap k := by omega
    rw [shiftToTargetExponent, htarget, shiftToExponent, hamount, hsplit]
    refine Prod.ext (shiftRight_zeros _ _) ?_
    show -(b : Int) + ((b - gap k : Nat) : Int) = _
    omega
  have hround : ExtendedMantissa.roundedMantissa ⟨k * 2 ^ gap k, false, false⟩ = k * 2 ^ gap k :=
    rfl
  have hne : k * 2 ^ gap k ≠ 0 := (Nat.mul_pos hk (Nat.two_pow_pos _)).ne'
  simp only [roundWithAccuracy, hshift a ha, hround, hshift (gap k) (Nat.le_refl _), hne,
    dif_neg, not_false_eq_true]
  rfl

theorem round_whole {k : Nat} (hk : 0 < k) (h : k < 2 ^ 53) (a : Nat) :
    round .binary64 .positive (k * 2 ^ a) (-(a : Int)) = whole k hk := by
  have hlog := log2_le hk h
  have htarget : Format.binary64.targetExponent (totalExponent (k * 2 ^ a) (-(a : Int))) =
      -(gap k : Int) := by
    rw [targetExponent_eq, totalExponent, log2_mul_two_pow hk, gap]
    push_cast
    omega
  rw [UnpackedFloat.round, htarget]
  simp only [decreaseExponent, Nat.shiftLeft_eq]
  rw [Nat.mul_assoc, ← Nat.pow_add]
  have hexp : -(a : Int) - ((-(a : Int) - -(gap k : Int)).toNat : Int) =
      -((a + (-(a : Int) - -(gap k : Int)).toNat : Nat) : Int) := by
    push_cast
    ring
  rw [hexp]
  exact roundWithAccuracy_whole hk h (by omega)

/-! ## Packing -/

theorem unpackSign_packComponents {spec : Format} {sign : Sign}
    {exponent : BitVec spec.exponentBits} {mantissa : BitVec spec.mantissaBitsWithoutImplicit} :
    Sign.ofBitVec (unpackSign (packComponents spec sign exponent mantissa)) = sign := by
  have hbits : unpackSign (packComponents spec sign exponent mantissa) = sign.toBitVec := by
    refine BitVec.eq_of_getLsbD_eq fun i hi => ?_
    have hzero : i = 0 := by omega
    subst hzero
    simp [unpackSign, packComponents, BitVec.getLsbD_append, BitVec.getElem_append]
  rw [hbits]
  cases sign <;> rfl

/-- Components with an exponent in the middle of its range are those of a normal double. -/
theorem unpack_normal {b m : Nat} (hb : 1 ≤ b) (hb' : b < 2047) (hm : 2 ^ 52 ≤ m)
    (hm' : m < 2 ^ 53) :
    unpack .binary64 (packComponents .binary64 .positive (BitVec.ofNat _ b) (BitVec.ofNat _ m)) =
      .finite .positive m ((b : Int) - 1075) (by omega) := by
  have hexp : (BitVec.ofNat 11 b).toNat = b := by
    rw [BitVec.toNat_ofNat, Nat.mod_eq_of_lt (by omega)]
  have hones : BitVec.ofNat 11 b ≠ -1#11 := by
    intro heq
    have := congrArg BitVec.toNat heq
    rw [hexp] at this
    simp at this
    omega
  have hzero : BitVec.ofNat 11 b ≠ 0#11 := by
    intro heq
    have := congrArg BitVec.toNat heq
    rw [hexp] at this
    simp at this
    omega
  have hmant : (1#1 ++ BitVec.ofNat 52 m).toNat = m := by
    rw [BitVec.toNat_append, ← Nat.shiftLeft_add_eq_or_of_lt (BitVec.isLt _)]
    simp only [BitVec.toNat_ofNat, Nat.shiftLeft_eq]
    omega
  unfold UnpackedFloat.unpack
  simp only [unpackMantissa_packComponents, unpackExponent_packComponents,
    unpackSign_packComponents]
  rw [if_neg hones, if_neg hzero]
  simp only [hmant, hexp]
  congr 1

theorem unpack_subnormal {m : Nat} (hm : 0 < m) (hm' : m < 2 ^ 52) :
    unpack .binary64 (packComponents .binary64 .positive 0#11 (BitVec.ofNat _ m)) =
      .finite .positive m (-1074) hm := by
  have hmant : (BitVec.ofNat 52 m).toNat = m := by
    rw [BitVec.toNat_ofNat, Nat.mod_eq_of_lt hm']
  have hzero : BitVec.ofNat 52 m ≠ 0#52 := by
    intro heq
    have := congrArg BitVec.toNat heq
    rw [hmant] at this
    simp at this
    omega
  unfold UnpackedFloat.unpack
  simp only [unpackMantissa_packComponents, unpackExponent_packComponents,
    unpackSign_packComponents]
  rw [if_neg (by decide), if_pos trivial, dif_neg hzero]
  simp only [hmant]
  congr 1

theorem unpack_packedInfinity : unpack .binary64 (packedInfinity .binary64 .positive) =
    .infinity .positive := by
  rfl

/-- An unpacked double that is neither zero nor undefined nor negative. -/
def Positive (u : UnpackedFloat) : Prop :=
  (∃ m e h, u = .finite .positive m e h) ∨ u = .infinity .positive

/-- Packing loses no more of a positive number than that it may become infinite. -/
theorem positive_unpack_pack {m : Nat} (hm : 0 < m) (hm' : m < 2 ^ 53) {e : Int} (he : -1074 ≤ e) :
    Positive (unpack .binary64 (pack .binary64 (.finite .positive m e hm))) := by
  have hb : ((e + Format.binary64.exponentBias + Format.binary64.mantissaBitsWithoutImplicit).toNat
      : Int) = e + 1075 := by
    show ((e + 1023 + 52).toNat : Int) = _
    omega
  have hlog := log2_le hm hm'
  unfold UnpackedFloat.pack
  simp only
  generalize Int.toNat _ = b at hb
  split
  · exact Or.inr unpack_packedInfinity
  next hsmall =>
    have hlt : ¬ 2 ^ 11 ≤ b + 1 := hsmall
    split
    next hnormal =>
      have h52 : m.log2 = 52 := by
        have : m.log2 + 1 = 53 := hnormal
        omega
      exact Or.inl ⟨_, _, _,
        unpack_normal (by omega) (by omega) (h52 ▸ Nat.log2_self_le hm.ne') hm'⟩
    next hsub =>
      have h52 : m.log2 < 52 := by
        have : m.log2 + 1 ≠ 53 := hsub
        omega
      exact Or.inl ⟨_, _, _, unpack_subnormal hm ((Nat.log2_lt hm.ne').mp h52)⟩

theorem unpack_pack_whole {k : Nat} (hk : 0 < k) (h : k < 2 ^ 53) :
    unpack .binary64 (pack .binary64 (whole k hk)) = whole k hk := by
  have hlog := log2_le hk h
  have h52 : (k * 2 ^ gap k).log2 = 52 := by
    rw [log2_mul_two_pow hk, gap]
    omega
  have hpos : 0 < k * 2 ^ gap k := Nat.mul_pos hk (Nat.two_pow_pos _)
  have hb : (-(gap k : Int) + Format.binary64.exponentBias +
      Format.binary64.mantissaBitsWithoutImplicit).toNat = 1075 - gap k := by
    show (-(gap k : Int) + 1023 + 52).toNat = _
    omega
  have hgap : gap k ≤ 52 := by
    rw [gap]
    omega
  unfold whole UnpackedFloat.pack
  simp only [hb, h52]
  rw [if_neg (show ¬ 2 ^ 11 ≤ 1075 - gap k + 1 by omega), if_pos (by rfl),
    unpack_normal (by omega) (by omega) (h52 ▸ Nat.log2_self_le hpos.ne')
      ((Nat.log2_lt hpos.ne').mp (by omega))]
  congr 1
  omega

/-- Rounding a positive number gives one that is not zero. -/
theorem positive_roundWithAccuracy {m : Nat} (hm : 0 < m) {e : Int} (he : -1074 ≤ e) :
    Positive (unpack .binary64
      (pack .binary64 (roundWithAccuracy .binary64 .positive m e .exact))) := by
  -- Shifting to the target exponent leaves between one and 53 digits.
  have hshift : ∀ (r : Nat) (d : Int), 0 < r → -1074 ≤ d →
      0 < (shiftToTargetExponent .binary64 r d .exact).1.mantissa ∧
        (shiftToTargetExponent .binary64 r d .exact).1.mantissa < 2 ^ 53 ∧
        -1074 ≤ (shiftToTargetExponent .binary64 r d .exact).2 := by
    intro r d hr hd
    simp only [shiftToTargetExponent, shiftToExponent, shiftRight_mantissa, targetExponent_eq,
      totalExponent, ExtendedMantissa.ofMantissaAndAccuracy]
    have hlow := Nat.log2_self_le hr.ne'
    have hhigh := Nat.lt_log2_self (n := r)
    refine ⟨Nat.div_pos (le_trans ?_ hlow) (Nat.two_pow_pos _), ?_, by omega⟩
    · exact Nat.pow_le_pow_right (by omega) (by omega)
    · rw [Nat.div_lt_iff_lt_mul (Nat.two_pow_pos _), ← Nat.pow_add]
      exact lt_of_lt_of_le hhigh (Nat.pow_le_pow_right (by omega) (by omega))
  obtain ⟨hpos, -, hexp⟩ := hshift m e hm he
  unfold roundWithAccuracy
  simp only
  generalize hfirst : shiftToTargetExponent .binary64 m e .exact = first at hpos hexp
  have hround : 0 < first.1.roundedMantissa := by
    refine lt_of_lt_of_le hpos ?_
    obtain ⟨⟨r, b, c⟩, d⟩ := first
    cases b <;> cases c <;>
      simp [ExtendedMantissa.roundedMantissa, ExtendedMantissa.accuracy,
        Accuracy.roundToNearestEven]
  obtain ⟨hpos', hlt', hexp'⟩ := hshift first.1.roundedMantissa first.2 hround hexp
  rw [dif_neg hpos'.ne']
  exact positive_unpack_pack hpos' hlt' hexp'

/-! ## Doubles -/

/-- A positive whole number as a double. -/
def ofWhole (k : Nat) (hk : 0 < k) : Float :=
  .ofModel (.pack (whole k hk))

theorem unpack_ofWhole {k : Nat} (hk : 0 < k) (h : k < 2 ^ 53) :
    (ofWhole k hk).toModel.unpack = whole k hk :=
  unpack_pack_whole hk h

theorem ofWhole_one : ofWhole 1 Nat.one_pos = 1 :=
  rfl

theorem ofWhole_mul_one {k : Nat} (hk : 0 < k) (h : k < 2 ^ 53) :
    ofWhole k hk * ofWhole 1 Nat.one_pos = ofWhole k hk := by
  show Float.ofModel (Float.Model.pack (UnpackedFloat.mul .binary64 (ofWhole k hk).toModel.unpack
    (ofWhole 1 Nat.one_pos).toModel.unpack)) = _
  rw [unpack_ofWhole hk h, unpack_ofWhole Nat.one_pos (by decide)]
  have hmant : k * 2 ^ gap k * (1 * 2 ^ gap 1) = k * 2 ^ (gap k + gap 1) := by
    rw [Nat.pow_add]
    ring
  have hexp : -(gap k : Int) + -(gap 1 : Int) = -((gap k + gap 1 : Nat) : Int) := by
    push_cast
    ring
  have hmul : UnpackedFloat.mul .binary64 (whole k hk) (whole 1 Nat.one_pos) = whole k hk := by
    show roundWithAccuracy .binary64 .positive (k * 2 ^ gap k * (1 * 2 ^ gap 1))
      (-(gap k : Int) + -(gap 1 : Int)) .exact = _
    rw [hmant, hexp, roundWithAccuracy_whole hk h (Nat.le_add_right _ _)]
  rw [hmul]
  rfl

theorem toFloat_eq_ofWhole {k : Nat} (hk : 0 < k) (h : k < 2 ^ 53) :
    k.toUInt64.toFloat = ofWhole k hk := by
  have hword : k.toUInt64.toNat = k := by
    show k % 2 ^ 64 = k
    omega
  have hnorm : UnpackedFloat.ofUInt64 .binary64 k.toUInt64 = whole k hk := by
    have hgt : compare (k : Int) 0 = .gt := Int.compare_eq_gt.mpr (by omega)
    rw [UnpackedFloat.ofUInt64, UnpackedFloat.ofNat, hword, UnpackedFloat.ofInt,
      UnpackedFloat.normalize, hgt]
    simpa using round_whole hk h 0
  show Float.ofModel (Float.Model.pack (UnpackedFloat.ofUInt64 .binary64 k.toUInt64)) = _
  rw [hnorm]
  rfl

theorem ofNat_eq_ofWhole {k : Nat} (hk : 0 < k) (h : k < 2 ^ 53) : ofNat k = ofWhole k hk := by
  have hone : Float.exactlyRepresentablePowersOfTen[0] = ofWhole 1 Nat.one_pos := rfl
  rw [ofNat, Float.ofScientific, dif_pos ⟨h, Nat.zero_le _⟩]
  simp only [Bool.false_eq_true, if_false, toFloat_eq_ofWhole hk h, hone, ofWhole_mul_one hk h]

theorem ofWhole_add_one {k : Nat} (hk : 0 < k) (h : k + 1 < 2 ^ 53) :
    ofWhole k hk + ofWhole 1 Nat.one_pos = ofWhole (k + 1) (Nat.succ_pos k) := by
  show Float.ofModel (Float.Model.pack (UnpackedFloat.add .binary64 (ofWhole k hk).toModel.unpack
    (ofWhole 1 Nat.one_pos).toModel.unpack)) = _
  rw [unpack_ofWhole hk (by omega), unpack_ofWhole Nat.one_pos (by decide)]
  have hgap : gap k ≤ 52 := by
    rw [gap]
    omega
  have hadd : UnpackedFloat.add .binary64 (whole k hk) (whole 1 Nat.one_pos) =
      whole (k + 1) (Nat.succ_pos k) := by
    have hmin : min (-(gap k : Int)) (-(gap 1 : Int)) = -(52 : Nat) := by
      show min (-(gap k : Int)) (-52) = -52
      omega
    have hsum : (k * 2 ^ gap k) <<< (-(gap k : Int) - -(52 : Nat)).toNat +
        (1 * 2 ^ gap 1) <<< (-(gap 1 : Int) - -(52 : Nat)).toNat = (k + 1) * 2 ^ 52 := by
      have hfirst : (-(gap k : Int) - -(52 : Nat)).toNat = 52 - gap k := by omega
      have hsplit : 2 ^ 52 = 2 ^ gap k * 2 ^ (52 - gap k) := by
        rw [← Nat.pow_add]
        congr 1
        omega
      rw [hfirst, Nat.shiftLeft_eq, Nat.mul_assoc, ← hsplit, Nat.add_mul]
      rfl
    show normalize .binary64
      (((k * 2 ^ gap k) <<< (-(gap k : Int) - min (-(gap k : Int)) (-(gap 1 : Int))).toNat : Nat) +
        ((1 * 2 ^ gap 1) <<< (-(gap 1 : Int) - min (-(gap k : Int)) (-(gap 1 : Int))).toNat : Nat))
      (min (-(gap k : Int)) (-(gap 1 : Int))) .positive = _
    rw [hmin, ← Int.natCast_add, hsum, UnpackedFloat.normalize,
      Int.compare_eq_gt.mpr (Int.natCast_pos.mpr (Nat.mul_pos (Nat.succ_pos k) (by decide)))]
    exact round_whole (Nat.succ_pos k) h 52
  rw [hadd]
  rfl

theorem ofWhole_div_self {k : Nat} (hk : 0 < k) (h : k < 2 ^ 53) :
    ofWhole k hk / ofWhole k hk = 1 := by
  have hpos : 0 < k * 2 ^ gap k := Nat.mul_pos hk (Nat.two_pow_pos _)
  have hcore : divCore .binary64 (k * 2 ^ gap k) (-(gap k : Int)) (k * 2 ^ gap k)
      (-(gap k : Int)) = (1 * 2 ^ 53, -((53 : Nat) : Int), .exact) := by
    have htarget : min (0 : Int) (Format.binary64.targetExponent 0) = -((53 : Nat) : Int) := by
      rw [targetExponent_eq]
      omega
    have hamount : ((0 : Int) - -((53 : Nat) : Int)).toNat = 53 := by omega
    simp only [divCore, Int.sub_self, htarget, hamount, Nat.shiftLeft_eq]
    rw [Nat.mul_div_cancel_left _ hpos, Nat.mul_mod_right, Nat.one_mul]
    rfl
  have hdiv : UnpackedFloat.div .binary64 (whole k hk) (whole k hk) = whole 1 Nat.one_pos := by
    simp only [whole, UnpackedFloat.div, hcore]
    exact roundWithAccuracy_whole Nat.one_pos (by decide) (by decide)
  rw [← ofWhole_one]
  show Float.ofModel (Float.Model.pack (UnpackedFloat.div .binary64 (ofWhole k hk).toModel.unpack
    (ofWhole k hk).toModel.unpack)) = _
  rw [unpack_ofWhole hk h, hdiv]
  rfl

/-- Beyond the whole numbers that are doubles, a natural number is rounded once. -/
theorem ofNat_eq_rounded {n : Nat} (h : 2 ^ 53 ≤ n) : ofNat n =
    .ofModel (.pack (roundWithAccuracy .binary64 .positive (n * 2 ^ 53) (-53) .exact)) := by
  have hne : n ≠ 0 := by omega
  have hbig : ofNat n = Float.ofModel (.ofScientific n (Int.ofNat 0)) := by
    rw [ofNat, Float.ofScientific, dif_neg fun hand => absurd hand.1 (Nat.not_lt_of_le h)]
    rfl
  have hround : UnpackedFloat.ofScientific .binary64 n (Int.ofNat 0) =
      roundWithAccuracy .binary64 .positive (n <<< 53 * 10 ^ 0) (-53) .exact := by
    rw [UnpackedFloat.ofScientific, dif_neg hne, if_neg (by decide), if_neg ?_,
      if_pos (by decide)]
    · rfl
    · show ¬ (0 : Int) < -(2 ^ 11 + (n.log2 : Int))
      omega
  rw [hbig]
  show Float.ofModel (.pack (UnpackedFloat.ofScientific .binary64 n (Int.ofNat 0))) = _
  rw [hround, Nat.shiftLeft_eq, Nat.pow_zero, Nat.mul_one]

/-- A natural number that is not zero is not zero as a double either. -/
theorem positive_ofNat {n : Nat} (hn : 0 < n) : Positive (ofNat n).toModel.unpack := by
  by_cases h : n < 2 ^ 53
  · rw [ofNat_eq_ofWhole hn h, unpack_ofWhole hn h]
    exact Or.inl ⟨_, _, _, rfl⟩
  · rw [ofNat_eq_rounded (Nat.le_of_not_lt h)]
    exact positive_roundWithAccuracy (Nat.mul_pos hn (Nat.two_pow_pos _)) (by decide)

theorem zero_div_ofNat {n : Nat} (hn : 0 < n) : (0 : Float) / ofNat n = 0 := by
  have hdiv : ∀ u, Positive u → UnpackedFloat.div .binary64 (.zero .positive) u =
      .zero .positive := by
    rintro u (⟨m, e, h, rfl⟩ | rfl) <;> rfl
  show Float.ofModel (Float.Model.pack (UnpackedFloat.div .binary64 (0 : Float).toModel.unpack
    (ofNat n).toModel.unpack)) = _
  have hzero : (0 : Float).toModel.unpack = .zero .positive := by rfl
  rw [hzero, hdiv _ (positive_ofNat hn)]
  rfl

end ApiSurface.Decimal
