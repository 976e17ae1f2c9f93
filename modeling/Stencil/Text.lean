/-!
# Text

A template is read as a list of characters, and a place in it is what is left to read from there.
The module holds the classes of characters that the grammar tells apart, the length of text in
UTF-8 bytes, and the one way in which runs of literal text are found: up to the first place that
satisfies a test.
-/

namespace Stencil

/-- What is left to read: the characters from a place to the end of the source. -/
abbrev Input := List Char

/-- Blanks separate tokens: space, tab, line feed, carriage return and form feed. -/
def isBlank (c : Char) : Bool :=
  c = ' ' || c = '\t' || c = '\n' || c = '\r' || c = '\x0c'

/-- A word begins with an ASCII letter or an underscore. -/
def isWordStart (c : Char) : Bool := c.isAlpha || c = '_'

/-- A word goes on with ASCII letters, ASCII digits and underscores. -/
def isWordChar (c : Char) : Bool := c.isAlphanum || c = '_'

/-- The name of a tag or attribute goes on with ASCII letters, ASCII digits and hyphens. -/
def isTagChar (c : Char) : Bool := c.isAlphanum || c = '-'

/-- The number of bytes that text takes in UTF-8. -/
def byteLength : List Char → Nat
  | [] => 0
  | c :: s => c.utf8Size + byteLength s

/-- The length of text is the sum of the lengths of its parts. -/
theorem byteLength_append (a b : List Char) :
    byteLength (a ++ b) = byteLength a + byteLength b := by
  induction a with
  | nil => simp [byteLength]
  | cons c a ih => simp [byteLength, ih, Nat.add_assoc]

/-- Every character takes a byte at least. -/
theorem length_le_byteLength (a : List Char) : a.length ≤ byteLength a := by
  induction a with
  | nil => exact Nat.le_refl 0
  | cons c a ih =>
    have hpos := c.utf8Size_pos
    simp only [List.length_cons, byteLength]
    omega

/-- The byte offset of the place where `rest` is left to read, in a source of `size` bytes. -/
def offset (size : Nat) (rest : Input) : Nat := size - byteLength rest

/-- What is left after the characters that begin in the first `n` bytes. -/
def dropBytes : Nat → Input → Input
  | 0, s => s
  | _, [] => []
  | n + 1, c :: s => dropBytes (n + 1 - c.utf8Size) s

/-- The text of `s` before the first place that satisfies `stop`, and what is left there. Without
such a place the text is all of `s`. -/
def splitBefore (stop : Input → Bool) : Input → List Char × Input
  | [] => ([], [])
  | c :: s =>
    if stop (c :: s) then ([], c :: s)
    else
      let (text, rest) := splitBefore stop s
      (c :: text, rest)

/-- Splitting loses nothing. -/
theorem splitBefore_append (stop : Input → Bool) (s : Input) :
    (splitBefore stop s).1 ++ (splitBefore stop s).2 = s := by
  induction s with
  | nil => rfl
  | cons c s ih =>
    simp only [splitBefore]
    split
    · rfl
    · simpa using ih

/-- There is text before the first place where it stops, unless it stops at once. -/
theorem splitBefore_ne_nil {stop : Input → Bool} {s : Input} (hs : s ≠ []) (h : stop s = false) :
    (splitBefore stop s).1 ≠ [] := by
  cases s with
  | nil => exact absurd rfl hs
  | cons c s =>
    rw [splitBefore, if_neg (by simp [h])]
    exact List.cons_ne_nil c _

/-- Whether literal text ends here: at one of the three template openers, two characters that
begin with an opening brace, or at the `<` of a tag. -/
def atOpener : Input → Bool
  | '{' :: c :: _ => c = '{' || c = '%' || c = '#'
  | '<' :: _ => true
  | _ => false

end Stencil
