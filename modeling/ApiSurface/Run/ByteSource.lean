import ApiSurface.Plan.Basic
import ApiSurface.Settings
import ApiSurface.Text.Lossy

/-!
Constants made from bytes. Bytes are taken from the front; a source that runs out goes on as if
zeros followed. The constants depend on the bytes, the limits and the types asked for and on nothing
else, so that the same plan always runs with the same ones.
-/

namespace ApiSurface

/-- Bytes still to be read, and the limits on what is made from them. -/
structure ByteSource where
  bytes : List UInt8
  /-- The greatest length in bytes of a text. -/
  maxTextLength : Nat
  maxArrayLength : Nat

namespace ByteSource

/-- A source under the limits of the settings. -/
def ofSettings (s : Settings) (bytes : List UInt8) : ByteSource :=
  ⟨bytes, s.maxTextLength, s.maxArrayLength⟩

/-- Takes at most `count` bytes. -/
def take (count : Nat) (s : ByteSource) : List UInt8 × ByteSource :=
  (s.bytes.take count, { s with bytes := s.bytes.drop count })

/-- The number that the bytes spell, the least significant first. -/
def littleEndian : List UInt8 → Nat
  | [] => 0
  | b :: r => b.toNat + 256 * littleEndian r

/-- The number that the bytes spell, the most significant first. -/
def bigEndian (bytes : List UInt8) : Nat :=
  bytes.foldl (fun n b => 256 * n + b.toNat) 0

/-- A double: the next eight bytes are its bits. -/
def number (s : ByteSource) : Float × ByteSource :=
  let r := s.take 8
  (Float.ofBits (UInt64.ofNat (littleEndian r.1)), r.2)

/-- A truth value: the lowest bit of the next byte. -/
def boolean (s : ByteSource) : Bool × ByteSource :=
  let r := s.take 1
  (littleEndian r.1 % 2 == 1, r.2)

/-- How many bytes it takes to write a number. -/
def bytesOf (n : Nat) : Nat :=
  if n = 0 then 0 else 1 + bytesOf (n / 256)

/-- A natural number up to `max`, from as many bytes as `max` takes. -/
def upTo (max : Nat) (s : ByteSource) : Nat × ByteSource :=
  let r := s.take (bytesOf max)
  (bigEndian r.1 % (max + 1), r.2)

/-- A text: its length, then its bytes, ill-formed pieces replaced and what goes beyond the limit
cut off. -/
def string (s : ByteSource) : String × ByteSource :=
  let len := s.upTo s.maxTextLength
  let raw := len.2.take len.1
  (String.ofList (Text.takeBytes s.maxTextLength (Text.lossyChars raw.1)), raw.2)

/-- The length of an array. -/
def length (s : ByteSource) : Nat × ByteSource :=
  s.upTo s.maxArrayLength

/-- Whether no byte is left. -/
def isExhausted (s : ByteSource) : Bool :=
  s.bytes.isEmpty

/-- The class of which an instance was asked for: bytes make none. -/
structure NoInstance where
  className : String
  deriving Repr, DecidableEq

/-- The wording of the refusal. -/
def NoInstance.message (e : NoInstance) : String :=
  "cannot synthesize an instance of " ++ e.className
    ++ "; class arguments must reference a call output"

/-- Reading that may be refused; what was read until then stays read. -/
abbrev Reading (α : Type) := ExceptT NoInstance (StateM ByteSource) α

/-- So many constants, each read in the same way. -/
def readMany {α : Type} (read : Reading α) : Nat → Reading (List α)
  | 0 => return []
  | n + 1 => return (← read) :: (← readMany read n)

mutual

/-- A constant of a type. -/
def readConstant : ValueType → Reading Constant
  | .number => return .number (← modifyGet number)
  | .string => return .string (← modifyGet string)
  | .boolean => return .boolean (← modifyGet boolean)
  | .undefined => return .undefined
  | .null => return .null
  | .function => return .function
  | .object shape => return .object (← readFields shape)
  | .array item => do
    let len ← modifyGet length
    return .array (← readMany (readConstant item) len)
  | .ofClass name => throw ⟨name⟩

/-- Constants for the properties of a shape. -/
def readFields : List (String × ValueType) → Reading (List (String × Constant))
  | [] => return []
  | (k, t) :: r => do
    let c ← readConstant t
    return (k, c) :: (← readFields r)

end

/-- A constant of a type, and the source after it. -/
def constant (t : ValueType) (s : ByteSource) : Except NoInstance Constant × ByteSource :=
  readConstant t s

end ByteSource

end ApiSurface
