import Stencil.Tree.SExpr

/-!
# Layout

The written form of a tree in lines of a given width. A tree is written in one line if that line,
with the parentheses that close the trees around it, fits the width; if not, each of its named
children begins a line of its own, indented by two more columns. So a line is too long only where
it shows a single node.
-/

namespace Stencil.Tree

/-- Whether some tree among `ts` is shown in the written form. -/
def anyNamed (ts : List Tree) : Bool := ts.any fun t => t.kind.isNamed

/-- `n` copies of a character. -/
def pad (n : Nat) (c : Char) : String := String.ofList (List.replicate n c)

/-- A line: its indentation, its text, and the parentheses that close the trees around it. -/
def line (indent : Nat) (text : String) (closers : Nat) : String :=
  pad indent ' ' ++ text ++ pad closers ')'

mutual

/-- The number of columns that the tree takes in one line. -/
def flatWidth : Tree → Nat
  | leaf _ kind _ _ => kind.label.length + 2
  | node _ kind ts => kind.label.length + flatWidths ts + 2

/-- The number of columns that the named ones of some trees take in one line, each after a space
and its field. -/
def flatWidths : List Tree → Nat
  | [] => 0
  | t :: ts =>
    (if t.kind.isNamed then (Field.lead t.field).length + t.flatWidth + 1 else 0) + flatWidths ts

end

mutual

/-- The lines of a tree. The first one is indented by `indent` and begins with `lead`, and after
the last one `closers` parentheses close the trees around this one. -/
def lines (width indent : Nat) (lead : String) (closers : Nat) : Tree → List String
  | leaf _ kind _ _ => [line indent (lead ++ "(" ++ kind.label ++ ")") closers]
  | node field kind ts =>
    -- The parentheses that close the trees around this one stand in its last line.
    let columns := indent + lead.length + flatWidth (node field kind ts) + closers
    if columns ≤ width || !anyNamed ts then
      [line indent (lead ++ sexp (node field kind ts)) closers]
    else
      line indent (lead ++ "(" ++ kind.label) 0 ::
        linesOfAll width (indent + 2) (closers + 1) ts

/-- The lines of the named ones of some trees, after the last of which `closers` parentheses close
the trees around them. -/
def linesOfAll (width indent closers : Nat) : List Tree → List String
  | [] => []
  | t :: ts =>
    -- Only the last tree that is shown is followed by them.
    let closersHere := if anyNamed ts then 0 else closers
    (if t.kind.isNamed then t.lines width indent (Field.lead t.field) closersHere else [])
      ++ linesOfAll width indent closers ts

end

/-- The tree in lines of at most `width` columns, as far as that is possible. -/
def pretty (width : Nat) (t : Tree) : String := "\n".intercalate (t.lines width 0 "" 0)

end Stencil.Tree
