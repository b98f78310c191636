/-
# `ApiSurface.Proofs.Decimal.Sums` — sums of two, of nothing and of ones

A sum of doubles depends on the order of its summands, since every addition rounds.  With two
summands it does not: addition is commutative, for all doubles and without a look at how it rounds,
and the zero that a sum starts from does no more than to make a negative zero positive
(`total_reverse`).

Two more sums are known without an error.  A mass that is neither negative nor positive is a zero of
either sign, so a sum of such masses is zero, and a mean that is not zero has a positive mass behind
it (`total_of_not_pos`).  And a sum of ones counts them, below two to the power of 53, so that their
mean is one (`mean_ones`).
-/
import ApiSurface.Proofs.Decimal.Thousandths

namespace ApiSurface.Decimal

open Float.Model Float.Model.UnpackedFloat

/-! ## Two summands -/

theorem unpacked_add_comm (u v : UnpackedFloat) :
    UnpackedFloat.add .binary64 u v = UnpackedFloat.add .binary64 v u := by
  cases u with
  | notANumber => cases v <;> rfl
  | infinity s =>
      cases v with
      | infinity t => cases s <;> cases t <;> rfl
      | _ => rfl
  | zero s =>
      cases v with
      | zero t => cases s <;> cases t <;> rfl
      | _ => rfl
  | finite s m e hm =>
      cases v with
      | finite t n f hn =>
          simp only [UnpackedFloat.add, decreaseExponent]
          rw [Int.min_comm, Int.add_comm]
      | _ => rfl

/-- An unpacked double without the sign of a zero. -/
def unsigned : UnpackedFloat → UnpackedFloat
  | .zero _ => .zero .positive
  | u => u

theorem unpack_zero_add (x : Float) : (0 + x).toModel.unpack = unsigned x.toModel.unpack := by
  have hx := unpack_pack_unpack x
  have hzero : (0 : Float).toModel.unpack = .zero .positive := by rfl
  show unpack .binary64
    (pack .binary64 (UnpackedFloat.add .binary64 (0 : Float).toModel.unpack x.toModel.unpack)) = _
  rw [hzero]
  generalize x.toModel.unpack = u at hx
  cases u with
  | zero s => cases s <;> rfl
  | _ => exact hx

theorem unsigned_add_comm (u v : UnpackedFloat) :
    UnpackedFloat.add .binary64 (unsigned u) v = UnpackedFloat.add .binary64 (unsigned v) u := by
  cases u with
  | zero s =>
      cases v with
      | zero t => cases s <;> cases t <;> rfl
      | _ => rfl
  | _ =>
      cases v with
      | zero t => rfl
      | _ => exact unpacked_add_comm _ _

theorem total_pair (x y : Float) : Guess.total [x, y] = Guess.total [y, x] := by
  show Float.ofModel (.pack (UnpackedFloat.add .binary64 (0 + x).toModel.unpack y.toModel.unpack)) =
    Float.ofModel (.pack (UnpackedFloat.add .binary64 (0 + y).toModel.unpack x.toModel.unpack))
  rw [unpack_zero_add, unpack_zero_add, unsigned_add_comm]

/-- **A sum of two does not depend on their order.** -/
theorem total_reverse {masses : List Float} (h : masses.length ≤ 2) :
    Guess.total masses.reverse = Guess.total masses := by
  rcases masses with _ | ⟨x, _ | ⟨y, _ | ⟨z, masses⟩⟩⟩
  · rfl
  · rfl
  · exact total_pair y x
  · simp at h

/-! ## Nothing to add -/

/-- What is neither negative nor positive is a zero, of either sign. -/
theorem eq_zero_of_not_pos {x : Float} (h : 0 ≤ x) (hn : ¬ 0 < x) : x = 0 ∨ x = -0 := by
  have hzero : (0 : Float).toModel.unpack = .zero .positive := by rfl
  have hle : UnpackedFloat.le (0 : Float).toModel.unpack x.toModel.unpack = true :=
    of_decide_eq_true h
  have hlt : ¬ UnpackedFloat.lt (0 : Float).toModel.unpack x.toModel.unpack = true :=
    fun hlt => hn (decide_eq_true (p := (0 : Float).toModel < x.toModel) hlt)
  rw [hzero] at hle hlt
  rw [← ofModel_unpack x]
  generalize x.toModel.unpack = u at hle hlt
  cases u with
  | notANumber => cases hle
  | zero s =>
      cases s with
      | positive =>
          left
          rfl
      | negative =>
          right
          rfl
  | infinity s =>
      cases s with
      | positive => exact absurd rfl hlt
      | negative => cases hle
  | finite s m e hm =>
      cases s with
      | positive => exact absurd rfl hlt
      | negative => cases hle

theorem total_of_not_pos {masses : List Float} (h : ∀ m ∈ masses, 0 ≤ m)
    (hn : ∀ m ∈ masses, ¬ 0 < m) : Guess.total masses = 0 := by
  have hplus : (0 : Float) + 0 = 0 := rfl
  have hminus : (0 : Float) + -0 = 0 := rfl
  refine List.foldlRecOn (motive := fun x => x = 0) masses _ rfl fun x hx m hm => ?_
  rcases eq_zero_of_not_pos (h m hm) (hn m hm) with rfl | rfl
  · rw [hx, hplus]
  · rw [hx, hminus]

/-! ## Ones -/

theorem total_ones {k : Nat} (hk : 0 < k) (h : k < 2 ^ 53) :
    Guess.total (List.replicate k 1) = ofWhole k hk := by
  have hrun : ∀ (i j : Nat) (hj : 0 < j), j + i < 2 ^ 53 →
      (List.replicate i (1 : Float)).foldl (· + ·) (ofWhole j hj) =
        ofWhole (j + i) (Nat.add_pos_left hj i) := by
    intro i
    induction i with
    | zero =>
        intro _ _ _
        rfl
    | succ i ih =>
        intro j hj hlt
        have hstep : ofWhole j hj + 1 = ofWhole (j + 1) (Nat.succ_pos j) := by
          rw [← ofWhole_one]
          exact ofWhole_add_one hj (by omega)
        rw [List.replicate_succ, List.foldl_cons, hstep, ih (j + 1) (Nat.succ_pos j) (by omega)]
        congr 1
        omega
  obtain ⟨i, rfl⟩ := Nat.exists_eq_succ_of_ne_zero hk.ne'
  have hfirst : (0 : Float) + 1 = ofWhole 1 Nat.one_pos := rfl
  rw [Guess.total, List.replicate_succ, List.foldl_cons, hfirst, hrun i 1 Nat.one_pos (by omega)]
  congr 1
  omega

theorem mean_ones {k : Nat} (hk : 0 < k) (h : k < 2 ^ 53) :
    Guess.mean k (List.replicate k 1) = 1 := by
  rw [Guess.mean, total_ones hk h, ofNat_eq_ofWhole hk h, ofWhole_div_self hk h]
  decide +kernel

end ApiSurface.Decimal
