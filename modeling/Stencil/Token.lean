import Stencil.Text

/-!
# Tokens

A token is a piece of text together with the blanks before it and what is left to read after it.
Which tokens there are depends on where one reads: a `Mode` says which of the template's
sublanguages the reader is in.
-/

namespace Stencil

/-- Which sublanguage a token is read in. -/
inductive Mode where
  /-- Outside of all delimiters: literal text and openers. -/
  | text
  /-- Inside a value or statement. -/
  | code
  /-- Inside a value or statement where an operand may stand: only here does a sign or a point
  begin a number. -/
  | operand
  /-- Inside a value or statement where an operator may stand: the words `not in` are one token. -/
  | operator
  /-- Between the brackets of a tag. -/
  | tag
  /-- Inside a comment. -/
  | comment
  /-- Inside a raw block. -/
  | raw
deriving DecidableEq, Repr

/-- What a token is. -/
inductive TokenKind where
  | text | commentContent | rawText
  | valueOpen | valueClose | statementOpen | statementClose | commentOpen | commentClose
  /-- A hyphen that touches the end of a statement. -/
  | trim
  | tagOpen | endTagOpen | tagClose | selfClose
  | word | quoted | integer | float
  | assign | equal | notEqual | less | greater | lessEqual | greaterEqual
  | plus | minus | star | starStar | slash | slashSlash | percent
  | leftParen | rightParen | leftBracket | rightBracket | leftBrace | rightBrace
  | comma | colon | dot
  /-- The words `not in`, with the blanks between them. -/
  | notIn
  | endOfInput
deriving DecidableEq, Repr

/-- A token as it stands in the input. -/
structure Token where
  kind : TokenKind
  /-- The blanks before the token. -/
  gap : List Char
  /-- The token itself. -/
  text : List Char
  /-- What is left to read after the token. -/
  rest : Input
deriving DecidableEq, Repr

namespace Token

/-- What is left to read where the token begins. -/
def start (t : Token) : Input := t.text ++ t.rest

/-- Whether the token is a certain word. -/
def isWord (t : Token) (w : String) : Bool := t.kind = .word && t.text = w.toList

/-- A token is a word if it is of that kind and has its text. -/
theorem isWord_iff {t : Token} {w : String} :
    t.isWord w = true ↔ t.kind = .word ∧ t.text = w.toList := by
  simp [isWord]

/-- The empty token at the end of the input. -/
def atEnd : Token := ⟨.endOfInput, [], [], []⟩

end Token

end Stencil
