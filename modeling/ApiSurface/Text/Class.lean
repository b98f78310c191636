import ApiSurface.Text.Ranges

/-!
Classes of characters: blanks, letters, digits of any script, and the characters that a quoted text
has to escape because they have no visible form of their own.
-/

namespace ApiSurface.Text

/-- Whether a code point lies in one of the ranges. -/
def inRanges (ranges : List (Nat × Nat)) (n : Nat) : Bool :=
  ranges.any fun r => r.1 ≤ n && n ≤ r.2

/-- A blank in the sense of the property White_Space. -/
def isBlank (c : Char) : Bool :=
  inRanges Ranges.blank c.toNat

/-- A letter in the sense of the property Alphabetic; ASCII is decided without the table. -/
def isAlphabetic (c : Char) : Bool :=
  if c.toNat < 128 then c.isAlpha else inRanges Ranges.alphabetic c.toNat

/-- A numeral of one of the categories Nd, Nl and No. -/
def isNumeric (c : Char) : Bool :=
  if c.toNat < 128 then c.isDigit else inRanges Ranges.numeric c.toNat

/-- A letter or a numeral. -/
def isAlphanumeric (c : Char) : Bool :=
  isAlphabetic c || isNumeric c

/-- A character that is drawn on its own: neither blank (the space apart), control, format, filler,
private or unassigned, nor one that combines with the character before it. -/
def isVisible (c : Char) : Bool :=
  if c.toNat < 128 then 32 ≤ c.toNat && c.toNat < 127
  else !inRanges Ranges.combining c.toNat && !inRanges Ranges.invisible c.toNat

end ApiSurface.Text
