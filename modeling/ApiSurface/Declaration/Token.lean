import ApiSurface.Decimal.Layout
import ApiSurface.Text.Quoted

/-!
The tokens of declaration texts, with their places.
-/

namespace ApiSurface.Declaration

/-- The punctuators. The closing angle is always a token of its own, so that nested type arguments
close one level at a time. -/
inductive Punct where
  | ellipsis
  | arrow
  | openBrace
  | closeBrace
  | openParen
  | closeParen
  | openBracket
  | closeBracket
  | less
  | greater
  | comma
  | semicolon
  | colon
  | question
  | dot
  | equals
  | bar
  | ampersand
  | star
  | atSign
  | bang
  | plus
  | minus
  | tilde
  | slash
  | percent
  | caret
  deriving Repr, DecidableEq

namespace Punct

/-- The characters of a punctuator. -/
def chars : Punct → List Char
  | ellipsis => ['.', '.', '.']
  | arrow => ['=', '>']
  | openBrace => ['{']
  | closeBrace => ['}']
  | openParen => ['(']
  | closeParen => [')']
  | openBracket => ['[']
  | closeBracket => [']']
  | less => ['<']
  | greater => ['>']
  | comma => [',']
  | semicolon => [';']
  | colon => [':']
  | question => ['?']
  | dot => ['.']
  | equals => ['=']
  | bar => ['|']
  | ampersand => ['&']
  | star => ['*']
  | atSign => ['@']
  | bang => ['!']
  | plus => ['+']
  | minus => ['-']
  | tilde => ['~']
  | slash => ['/']
  | percent => ['%']
  | caret => ['^']

/-- The text of a punctuator. -/
def text (p : Punct) : String := String.ofList p.chars

/-- Every punctuator, the long ones first. -/
def all : List Punct :=
  [ellipsis, arrow, openBrace, closeBrace, openParen, closeParen, openBracket, closeBracket, less,
    greater, comma, semicolon, colon, question, dot, equals, bar, ampersand, star, atSign, bang,
    plus, minus, tilde, slash, percent, caret]

/-- Whether a punctuator opens a group in brackets of one of the three kinds. -/
def opens : Punct → Bool
  | openParen | openBracket | openBrace => true
  | _ => false

/-- Whether a punctuator closes a group in brackets of one of the three kinds. -/
def closes : Punct → Bool
  | closeParen | closeBracket | closeBrace => true
  | _ => false

end Punct

/-- A place in a text; lines and columns count from one, columns in characters. -/
structure Position where
  line : Nat
  col : Nat
  deriving Repr, DecidableEq

/-- The first place of a text. -/
def Position.start : Position := ⟨1, 1⟩

/-- The place after a character. -/
def Position.next (p : Position) (c : Char) : Position :=
  if c = '\n' then ⟨p.line + 1, 1⟩ else ⟨p.line, p.col + 1⟩

/-- The place after some characters. -/
def Position.over (p : Position) (cs : List Char) : Position :=
  cs.foldl Position.next p

/-- A place as it stands in front of a message. -/
def Position.text (p : Position) : String :=
  toString p.line ++ ":" ++ toString p.col ++ ": "

/-- What a token is. -/
inductive TokenKind where
  | word (w : String)
  | text (s : String)
  | number (x : Float)
  /-- A template text, of which only its presence matters. -/
  | template
  | punct (p : Punct)
  | finish
  deriving DecidableEq

/-- The form of a token in error messages. -/
def TokenKind.describe : TokenKind → String
  | word w => "Ident(" ++ Text.quoted w ++ ")"
  | text s => "Str(" ++ Text.quoted s ++ ")"
  | number x => "Number(" ++ Decimal.Layout.diagnostic.render x ++ ")"
  | template => "Template"
  | punct p => "Punct(" ++ Text.quoted p.text ++ ")"
  | finish => "Eof"

/-- A token with its place. -/
structure Token where
  kind : TokenKind
  place : Position
  /-- Whether there is a line break between the token before and this one. -/
  onNewLine : Bool
  deriving DecidableEq

namespace Token

/-- Whether the token is the punctuator. -/
def isPunct (t : Token) (p : Punct) : Bool :=
  t.kind = .punct p

/-- The word that the token is. -/
def word? (t : Token) : Option String :=
  match t.kind with
  | .word w => some w
  | _ => none

/-- Whether the token is a word. -/
def isWord (t : Token) : Bool :=
  t.word?.isSome

/-- Whether the token is the given word. -/
def isTheWord (t : Token) (w : String) : Bool :=
  t.word? == some w

/-- Whether the token is a word of the list. -/
def isOneOf (t : Token) (ws : List String) : Bool :=
  match t.word? with
  | some w => ws.contains w
  | none => false

/-- Whether the token opens a group in brackets. -/
def opens (t : Token) : Bool :=
  match t.kind with
  | .punct p => p.opens
  | _ => false

/-- Whether the token closes a group in brackets. -/
def closes (t : Token) : Bool :=
  match t.kind with
  | .punct p => p.closes
  | _ => false

end Token

end ApiSurface.Declaration
