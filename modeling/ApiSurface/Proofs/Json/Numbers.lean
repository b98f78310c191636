/-
# `ApiSurface.Proofs.Json.Numbers` — numbers read back from their text

A number ends where no digit, point or exponent follows (`Ends`).  What is read of the digits of a
number does not depend on the rest of the text if that is so, part by part, and so what stands
around a number never matters.

A whole number that fits in 64 bits is read back from its digits.  Of a double the same is said as a
property (`ReadsBack`), since reading rounds twice where a decimal has many digits.
-/
import ApiSurface.Json.Printer
import ApiSurface.Json.Reader
import Mathlib

namespace ApiSurface

namespace Decimal

theorem natOfDigits_toDigits (n : Nat) : natOfDigits (Nat.toDigits 10 n) = n :=
  Nat.ofDigitChars_eq_foldl.symm.trans Nat.ofDigitChars_ten_toDigits

/-- The first digit of a number with more than one is not a zero. -/
theorem head?_toDigits (n : Nat) :
    (Nat.toDigits 10 n).head? ≠ some '0' ∨ (Nat.toDigits 10 n).length = 1 := by
  induction n using Nat.strongRecOn with
  | ind n ih =>
      by_cases hn : n < 10
      · right
        rw [Nat.toDigits_of_lt_base hn]
        rfl
      · left
        have hn : 10 ≤ n := Nat.le_of_not_lt hn
        have hhead : (Nat.toDigits 10 (n / 10) ++ [(n % 10).digitChar]).head? =
            (Nat.toDigits 10 (n / 10)).head? := by
          rw [List.head?_append, List.head?_eq_some_head Nat.toDigits_ne_nil, Option.some_or]
        rw [Nat.toDigits_of_base_le (by decide) hn, hhead]
        rcases ih (n / 10) (by omega) with hhead | hone
        · exact hhead
        · have hsmall : n / 10 < 10 := by
            have := (Nat.length_toDigits_le_iff (b := 10) (n := n / 10) (k := 1) (by decide)
              (by decide)).mp (Nat.le_of_eq hone)
            omega
          rw [Nat.toDigits_of_lt_base hsmall, List.head?_cons]
          intro hzero
          have hdigit : Nat.digitChar (n / 10) = '0' := Option.some.inj hzero
          have hpositive : 0 < n / 10 := by omega
          have hall : ∀ d < 10, 0 < d → Nat.digitChar d ≠ '0' := by decide
          exact hall _ hsmall hpositive hdigit

theorem isDigit_toDigits {n : Nat} : ∀ c ∈ Nat.toDigits 10 n, c.isDigit = true :=
  fun _ hc => Nat.isDigit_of_mem_toDigits (by decide) (by decide) hc

end Decimal

namespace Json

open Decimal

/-! ## Parts of numbers -/

/-- Digits of a whole number: there is one, and a zero in front stands alone. -/
structure Numeral (ds : List Char) : Prop where
  digits : ∀ c ∈ ds, c.isDigit = true
  nonempty : ds ≠ []
  first : ds.head? ≠ some '0' ∨ ds.length = 1

theorem numeral_toDigits (n : Nat) : Numeral (Nat.toDigits 10 n) :=
  ⟨isDigit_toDigits, Nat.toDigits_ne_nil, head?_toDigits n⟩

/-- No digit follows. -/
def NoDigit (rest : List Char) : Prop :=
  ∀ c ∈ rest.head?, c.isDigit = false

/-- Nothing that a number could go on with follows. -/
def Ends (rest : List Char) : Prop :=
  ∀ c ∈ rest.head?, c.isDigit = false ∧ c ≠ '.' ∧ c ≠ 'e' ∧ c ≠ 'E'

theorem Ends.noDigit {rest : List Char} (h : Ends rest) : NoDigit rest :=
  fun c hc => (h c hc).1

variable {rest : List Char}

theorem digits_append {ds : List Char} (h : ∀ c ∈ ds, c.isDigit = true) (hrest : NoDigit rest) :
    digits (ds ++ rest) = (ds, rest) := by
  have hnone : digits rest = ([], rest) := by
    cases rest with
    | nil => rfl
    | cons c r => simp [digits, hrest c rfl]
  induction ds with
  | nil => exact hnone
  | cons c ds ih =>
      obtain ⟨hc, hds⟩ := List.forall_mem_cons.mp h
      simpa [digits, hc] using ih hds

theorem wholeDigits_append {ds : List Char} (h : Numeral ds) (hrest : NoDigit rest) :
    wholeDigits (ds ++ rest) = some (ds, rest) := by
  have happend := digits_append h.digits hrest
  obtain ⟨c, ds, rfl⟩ := List.exists_cons_of_ne_nil h.nonempty
  by_cases hzero : c = '0'
  · subst hzero
    obtain rfl : ds = [] := by simpa using h.first
    cases rest with
    | nil => rfl
    | cons c r => simp [wholeDigits, hrest c rfl]
  · unfold wholeDigits
    split
    next heq => exact absurd (List.cons.inj heq).1 hzero
    next => rw [happend]

theorem fraction_append {ds : List Char} (h : ∀ c ∈ ds, c.isDigit = true) (hne : ds ≠ [])
    (hrest : NoDigit rest) : fraction ('.' :: (ds ++ rest)) = some (some ds, rest) := by
  obtain ⟨c, ds, rfl⟩ := List.exists_cons_of_ne_nil hne
  rw [fraction, digits_append h hrest]

theorem fraction_of_ends (hrest : Ends rest) : fraction rest = some (none, rest) := by
  unfold fraction
  split
  next => exact absurd rfl (hrest '.' rfl).2.1
  next => rfl

theorem exponent_of_ends (hrest : Ends rest) : exponent rest = some (none, rest) := by
  unfold exponent
  split
  all_goals first
    | rfl
    | exact absurd rfl (hrest 'e' rfl).2.2.1
    | exact absurd rfl (hrest 'E' rfl).2.2.2

theorem unsigned_whole {ds : List Char} (h : Numeral ds) (hrest : Ends rest) (negative : Bool) :
    unsigned negative (ds ++ rest) = some (wholeNumber negative ds, rest) := by
  rw [unsigned, wholeDigits_append h hrest.noDigit]
  simp [fraction_of_ends hrest, exponent_of_ends hrest, numberValue]

theorem unsigned_decimal {whole fraction : List Char} (hwhole : Numeral whole)
    (hfraction : ∀ c ∈ fraction, c.isDigit = true) (hne : fraction ≠ []) (hrest : Ends rest)
    (negative : Bool) : unsigned negative (whole ++ '.' :: (fraction ++ rest)) =
      some (numberValue negative whole (some fraction) none, rest) := by
  have hpoint : NoDigit ('.' :: (fraction ++ rest)) := by
    rintro _ ⟨⟩
    rfl
  rw [unsigned, wholeDigits_append hwhole hpoint]
  simp [fraction_append hfraction hne hrest.noDigit, exponent_of_ends hrest]

/-- A number that starts with a digit has no sign. -/
theorem number_of_numeral {ds : List Char} (h : Numeral ds) (r : List Char) :
    number (ds ++ r) = unsigned false (ds ++ r) := by
  obtain ⟨c, ds, rfl⟩ := List.exists_cons_of_ne_nil h.nonempty
  unfold number
  split
  next heq =>
    have hdigit := h.digits c List.mem_cons_self
    rw [(List.cons.inj heq).1] at hdigit
    exact absurd hdigit (by decide)
  next => rfl

/-- What is neither a word, nor a text, nor an array or object, is a number. -/
theorem value_of_number {fuel depth : Nat} {cs text : List Char} {j : Json} {rest : List Char}
    (hcs : skipBlanks cs = text) (h : number text = some (j, rest)) :
    value none (fuel + 1) depth cs = some (j, rest) := by
  have hnone : ∀ {c r}, c.isDigit = false → c ≠ '-' → number (c :: r) = none := by
    intro c r hdigit hminus
    have hzero : c ≠ '0' := by
      rintro rfl
      cases hdigit
    unfold number
    split
    next heq => exact absurd (List.cons.inj heq).1 hminus
    next => simp [unsigned, wholeDigits, digits, hdigit, hzero]
  rw [value, hcs]
  split
  all_goals first | exact h | (rw [hnone (by decide) (by decide)] at h; cases h)

/-! ## Whole numbers -/

theorem toList_ofNat (n : Nat) : (toString (Int.ofNat n)).toList = Nat.toDigits 10 n := by
  show (toString n).toList = _
  rw [Nat.toString_eq_ofList_toDigits, String.toList_ofList]

theorem toList_negSucc (n : Nat) :
    (toString (Int.negSucc n)).toList = '-' :: Nat.toDigits 10 (n + 1) := by
  show ("-" ++ toString (n + 1)).toList = _
  rw [Nat.toString_eq_ofList_toDigits, String.toList_append, String.toList_ofList,
    String.toList_ofList]
  rfl

theorem number_toString {n : Int} (hlow : -2 ^ 63 ≤ n) (hhigh : n < 2 ^ 64) (hrest : Ends rest) :
    number ((toString n).toList ++ rest) = some (.integer n, rest) := by
  cases n with
  | ofNat n =>
      have hword : n ≤ maxWord := by
        have hbound : (n : Int) < 2 ^ 64 := hhigh
        simp only [maxWord]
        omega
      rw [toList_ofNat, number_of_numeral (numeral_toDigits n),
        unsigned_whole (numeral_toDigits n) hrest, wholeNumber, natOfDigits_toDigits]
      simp [hword]
  | negSucc n =>
      have hword : n + 1 ≤ maxWord / 2 + 1 := by
        simp only [maxWord]
        omega
      rw [toList_negSucc, List.cons_append, number, unsigned_whole (numeral_toDigits _) hrest,
        wholeNumber, natOfDigits_toDigits]
      simp [hword]
      omega

/-! ## Doubles -/

/-- The text of the double is the decimal with these digits, and the decimal stands for it. -/
structure PlainDecimal (x : Float) (before after : List Char) : Prop where
  numeral : Numeral before
  digits : ∀ c ∈ after, c.isDigit = true
  nonempty : after ≠ []
  text : (realText x).toList = before ++ '.' :: after
  value : ofParts? before after 0 = some x

/-- The double is read back from its text. -/
def ReadsBack (x : Float) : Prop :=
  ∃ before after, PlainDecimal x before after

theorem number_realText {x : Float} (h : ReadsBack x) (hrest : Ends rest) :
    number ((realText x).toList ++ rest) = some (.real x, rest) := by
  obtain ⟨before, after, h⟩ := h
  rw [h.text, List.append_assoc, List.cons_append, number_of_numeral h.numeral,
    unsigned_decimal h.numeral h.digits h.nonempty hrest, numberValue]
  · simp [h.value]
  · exact nofun

end Json

end ApiSurface
