import Stencil.Token.Scan

/-!
# Reading tokens from a source

A lexer is a source with a place in it, from which tokens are read one after the other in modes of
the caller's choice.
-/

namespace Stencil

/-- A source, and what is left of it to read. -/
structure Lexer where
  source : Input
  rest : Input
deriving DecidableEq, Repr

namespace Lexer

/-- The beginning of a source. -/
def ofSource (source : Input) : Lexer := ⟨source, source⟩

/-- The number of bytes of the source. -/
def size (l : Lexer) : Nat := byteLength l.source

/-- The byte offset of the place. -/
def pos (l : Lexer) : Nat := offset l.size l.rest

/-- The same source at another byte offset. -/
def moveTo (l : Lexer) (pos : Nat) : Lexer := ⟨l.source, dropBytes pos l.source⟩

/-- The byte offsets at which a token begins and ends. -/
def span (l : Lexer) (t : Token) : Nat × Nat := (offset l.size t.start, offset l.size t.rest)

/-- The next token, which is not read yet. -/
def peek (l : Lexer) (mode : Mode) : Except Diagnostic Token :=
  (Token.scan mode l.rest).mapError (Fault.diagnose l.size)

/-- The next token, and the place after it. Where there is none the place is not left. -/
def next (l : Lexer) (mode : Mode) : Except Diagnostic Token × Lexer :=
  match l.peek mode with
  | .ok t => (.ok t, { l with rest := t.rest })
  | .error d => (.error d, l)

/-- Reads tokens up to the first one that is empty or missing, with the place after each. A token
that leaves as much as there was is the last one too. -/
def run (l : Lexer) (mode : Mode) : List (Except Diagnostic Token × Lexer) :=
  match l.next mode with
  | (.error d, l') => [(.error d, l')]
  | (.ok t, l') =>
    if t.text ≠ [] ∧ l'.rest.length < l.rest.length then (.ok t, l') :: run l' mode
    else [(.ok t, l')]
termination_by l.rest.length

end Lexer

end Stencil
