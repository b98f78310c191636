import ApiSurface.Text.Class

/-!
Quoted texts as diagnostics show them: between quotes, with the quote, the backslash, the usual
controls and every character without a visible form escaped.
-/

namespace ApiSurface.Text

/-- The digits of a number in base sixteen, lower case, without leading zeros. -/
def hexDigits (n : Nat) : String :=
  String.ofList (Nat.toDigits 16 n)

/-- One character inside a text quoted by `quote`. -/
def escaped (quote c : Char) : String :=
  if c = quote then String.ofList ['\\', c]
  else match c with
    | '\\' => "\\\\"
    | '\n' => "\\n"
    | '\t' => "\\t"
    | '\r' => "\\r"
    | '\x00' => "\\0"
    | c => if isVisible c then c.toString else "\\u\x7b" ++ hexDigits c.toNat ++ "\x7d"

/-- A text between double quotes. -/
def quoted (s : String) : String :=
  "\"" ++ String.join (s.toList.map (escaped '"')) ++ "\""

/-- A character between single quotes. -/
def quotedChar (c : Char) : String :=
  "'" ++ escaped '\'' c ++ "'"

end ApiSurface.Text
