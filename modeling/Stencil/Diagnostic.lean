import Stencil.Text

/-!
# Diagnostics

What can be wrong with a template. A `Fault` is a cause at a place, which is given by what is left
to read there; a `Diagnostic` is a fault of a known source, with its place as a byte offset. The
wording of all messages is here.
-/

namespace Stencil

/-- Why a template cannot be read. -/
inductive Cause where
  /-- A value, statement, comment, element or raw block that the input ends inside. -/
  | unterminatedDelimiter
  /-- A token where none of its kind may stand; the argument says what may. -/
  | unexpectedToken (expected : String)
  /-- A statement that does not begin with a keyword. -/
  | unknownStatementKeyword
  | malformedNumericLiteral
  | unterminatedStringLiteral
  /-- More elements or operands inside each other than the options allow. -/
  | nestingTooDeep
deriving DecidableEq, Repr

/-- The text of a cause. -/
def Cause.message : Cause → String
  | unterminatedDelimiter => "unterminated delimiter"
  | unexpectedToken expected => "unexpected token, expect " ++ expected
  | unknownStatementKeyword => "unknown statement keyword"
  | malformedNumericLiteral => "malformed numeric literal"
  | unterminatedStringLiteral => "unterminated string literal"
  | nestingTooDeep => "nesting too deep"

/-- A cause at a place of the input. -/
structure Fault where
  cause : Cause
  /-- What is left to read at the place. -/
  found : Input
deriving DecidableEq, Repr

/-- A cause at a place of a known source. -/
structure Diagnostic where
  cause : Cause
  /-- The byte offset of the place. -/
  pos : Nat
deriving DecidableEq, Repr

namespace Diagnostic

/-- The reason alone, without the position. -/
def message (d : Diagnostic) : String := d.cause.message

/-- The reason and the position, in one line. -/
def text (d : Diagnostic) : String :=
  "syntax error '" ++ d.message ++ "' at position " ++ toString d.pos

end Diagnostic

/-- The diagnostic of a fault in a source of `size` bytes. -/
def Fault.diagnose (size : Nat) (fault : Fault) : Diagnostic :=
  ⟨fault.cause, offset size fault.found⟩

end Stencil
