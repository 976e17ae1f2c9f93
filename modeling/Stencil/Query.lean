import Stencil.Tree.Place

/-!
# Moving in a tree

The moves by which one node of a tree is reached from another.
-/

namespace Stencil

/-- A way to a node, from the root of its tree or from a node in it. -/
inductive Move where
  | root
  /-- The node with a number. -/
  | node (id : Nat)
  | child (n : Nat)
  /-- A child counted from the last. -/
  | childBack (n : Nat)
  | namedChild (n : Nat)
  /-- A named child counted from the last. -/
  | namedChildBack (n : Nat)
  /-- A node of the whole tree, counted so that every node comes before its children. -/
  | descendant (n : Nat)
  | parent
  /-- The first child under a field. -/
  | byField (f : Field)
  /-- The first child of a kind. -/
  | ofKind (k : Kind)
deriving Repr

/-- The node that a move leads to, if there is one. -/
def Move.target (root here : Node) : Move → Option Node
  | .root => some root
  | .node id => root.find? id
  | child n => here.children[n]?
  | childBack n => here.children.reverse[n]?
  | namedChild n => here.namedChildren[n]?
  | namedChildBack n => here.namedChildren.reverse[n]?
  | descendant n => root.descendants[n]?
  | parent => root.parent? here.id
  | byField f => here.child? f
  | ofKind k => here.childOfKind? k

end Stencil
