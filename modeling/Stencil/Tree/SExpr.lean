import Stencil.Tree

/-!
# Written trees

The written form of a tree shows its named nodes as nested lists in parentheses: the label of the
kind, and then for every named child its field, if it has one, and the child. `Tree.sexp` writes
it in one line.
-/

namespace Stencil

/-- What is written before a node in its parent: its field. -/
def Field.lead : Option Field → String
  | some f => f.label ++ ": "
  | none => ""

namespace Tree

mutual

/-- The tree in one line. -/
def sexp : Tree → String
  | leaf _ kind _ _ => "(" ++ kind.label ++ ")"
  | node _ kind ts => "(" ++ kind.label ++ sexps ts ++ ")"

/-- The named ones of some trees in one line, each after a space and its field. -/
def sexps : List Tree → String
  | [] => ""
  | t :: ts => (if t.kind.isNamed then " " ++ Field.lead t.field ++ t.sexp else "") ++ sexps ts

end

/-- The written form of a tree holds its kind and the written forms of its children. -/
theorem sexp_eq (t : Tree) : t.sexp = "(" ++ t.kind.label ++ sexps t.children ++ ")" := by
  cases t <;> simp [sexp, kind, children, sexps]

end Tree

end Stencil
