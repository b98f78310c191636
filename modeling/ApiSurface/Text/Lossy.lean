/-!
Bytes read as text without failing: every maximal piece that starts a character and does not finish
it becomes one U+FFFD.
-/

namespace ApiSurface.Text

/-- A byte that can only continue a character. -/
def isContinuation (b : UInt8) : Bool :=
  0x80 ≤ b && b ≤ 0xBF

/-- What a first byte promises: how many bytes follow it, the range of the second byte, and the bits
of the code point that it carries itself. -/
def leadByte (b : UInt8) : Option (Nat × UInt8 × UInt8 × Nat) :=
  if b < 0x80 then some (0, 0, 0, b.toNat)
  else if 0xC2 ≤ b && b ≤ 0xDF then some (1, 0x80, 0xBF, b.toNat - 0xC0)
  else if b = 0xE0 then some (2, 0xA0, 0xBF, 0)
  else if b = 0xED then some (2, 0x80, 0x9F, 0xD)
  else if 0xE1 ≤ b && b ≤ 0xEF then some (2, 0x80, 0xBF, b.toNat - 0xE0)
  else if b = 0xF0 then some (3, 0x90, 0xBF, 0)
  else if b = 0xF4 then some (3, 0x80, 0x8F, 4)
  else if 0xF1 ≤ b && b ≤ 0xF3 then some (3, 0x80, 0xBF, b.toNat - 0xF0)
  else none

/-- The character that stands for bytes that are no text. -/
def replacement : Char :=
  '\uFFFD'

/-- Reads the bytes that continue a character: `count` are missing, the next one has to lie between
`low` and `high`, and `code` holds the bits read so far. -/
def finishChar (count : Nat) (low high : UInt8) (code : Nat) : List UInt8 → Char × List UInt8
  | [] => if count = 0 then (Char.ofNat code, []) else (replacement, [])
  | b :: r =>
    if count = 0 then (Char.ofNat code, b :: r)
    else if low ≤ b && b ≤ high then
      finishChar (count - 1) 0x80 0xBF (code * 64 + (b.toNat - 0x80)) r
    else (replacement, b :: r)

theorem length_finishChar_le (count : Nat) (low high : UInt8) (code : Nat) (bs : List UInt8) :
    (finishChar count low high code bs).2.length ≤ bs.length := by
  induction bs generalizing count low high code with
  | nil => simp only [finishChar]; split <;> simp
  | cons b r ih =>
    simp only [finishChar]
    split
    · simp
    · split
      · exact Nat.le_succ_of_le (ih _ _ _ _)
      · simp

/-- The text that the bytes spell, ill-formed pieces replaced. -/
def lossyChars : List UInt8 → List Char
  | [] => []
  | b :: r =>
    match leadByte b with
    | none => replacement :: lossyChars r
    | some (count, low, high, code) =>
      let step := finishChar count low high code r
      step.1 :: lossyChars step.2
termination_by bs => bs.length
decreasing_by
  · simp
  · exact Nat.lt_succ_of_le (length_finishChar_le ..)

/-- The text that the bytes spell, ill-formed pieces replaced. -/
def ofBytesLossy (bytes : List UInt8) : String :=
  String.ofList (lossyChars bytes)

/-- The longest initial piece of the characters that takes at most `limit` bytes. -/
def takeBytes (limit : Nat) : List Char → List Char
  | [] => []
  | c :: r => if c.utf8Size ≤ limit then c :: takeBytes (limit - c.utf8Size) r else []

end ApiSurface.Text
