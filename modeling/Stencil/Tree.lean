import Stencil.Kind
import Stencil.Token

/-!
# Trees

The tree of a template keeps every character of it: a leaf is a token with the blanks before it,
and what the leaves hold, in order, is the source. A tree says nothing about where in a source it
stands; `Stencil.Tree.Place` finds that out.
-/

namespace Stencil

/-- A tree, with the field under which its parent holds it. A leaf is a token: `gap` is the blanks
before it and `text` the token itself. -/
inductive Tree where
  | leaf (field : Option Field) (kind : Kind) (gap text : List Char)
  | node (field : Option Field) (kind : Kind) (children : List Tree)
deriving Repr

namespace Tree

/-- The field under which the parent holds the tree. -/
def field : Tree → Option Field
  | leaf f _ _ _ => f
  | node f _ _ => f

/-- What the tree is. -/
def kind : Tree → Kind
  | leaf _ k _ _ => k
  | node _ k _ => k

/-- The trees of which a tree is made. -/
def children : Tree → List Tree
  | leaf .. => []
  | node _ _ ts => ts

/-- The same tree, held under another field. -/
def under (f : Option Field) : Tree → Tree
  | leaf _ k gap text => leaf f k gap text
  | node _ k ts => node f k ts

mutual

/-- Every character of the tree, the blanks before it included. -/
def source : Tree → List Char
  | leaf _ _ gap text => gap ++ text
  | node _ _ ts => sources ts

/-- Every character of some trees in a row. -/
def sources : List Tree → List Char
  | [] => []
  | t :: ts => t.source ++ sources ts

end

/-- Trees in two rows hold what the one row holds and then what the other holds. -/
@[simp]
theorem sources_append (as bs : List Tree) : sources (as ++ bs) = sources as ++ sources bs := by
  induction as with
  | nil => rfl
  | cons t ts ih => simp [sources, ih]

/-- The field under which a tree is held is no part of the source. -/
@[simp]
theorem source_under (t : Tree) (f : Option Field) : (t.under f).source = t.source := by
  cases t <;> rfl

mutual

/-- The blanks before the tree: those before its first token. -/
def gap : Tree → List Char
  | leaf _ _ gap _ => gap
  | node _ _ ts => gaps ts

/-- The blanks before the first of some trees in a row. -/
def gaps : List Tree → List Char
  | [] => []
  | t :: _ => t.gap

end

/-- The text of the tree, from its first token to its last. -/
def text (t : Tree) : List Char := t.source.drop t.gap.length

/-- What a tree is does not depend on the field under which it is held. -/
@[simp]
theorem kind_under (t : Tree) (f : Option Field) : (t.under f).kind = t.kind := by
  cases t <;> rfl

/-- A tree is held under the field that it is put under. -/
@[simp]
theorem field_under (t : Tree) (f : Option Field) : (t.under f).field = f := by
  cases t <;> rfl

mutual

/-- The blanks before a tree and its text are its characters. -/
theorem gap_append_text : (t : Tree) → t.gap ++ t.text = t.source
  | leaf _ _ gap text => by simp [Tree.text, Tree.gap, source]
  | node f k ts => by
    have h : gaps ts ++ (sources ts).drop (gaps ts).length = sources ts := gaps_append_drop ts
    simpa [Tree.text, Tree.gap, source] using h

/-- The blanks before some trees begin their characters. -/
theorem gaps_append_drop : (ts : List Tree) →
    gaps ts ++ (sources ts).drop (gaps ts).length = sources ts
  | [] => rfl
  | t :: ts => by
    have h := gap_append_text t
    have hlen : t.gap.length ≤ t.source.length := by
      rw [← h, List.length_append]
      omega
    rw [gaps, sources, List.drop_append_of_le_length hlen, ← List.append_assoc]
    exact congrArg (· ++ sources ts) h

end

mutual

/-- The number of nodes in the tree, leaves included. -/
def size : Tree → Nat
  | leaf .. => 1
  | node _ _ ts => sizes ts + 1

/-- The number of nodes in some trees. -/
def sizes : List Tree → Nat
  | [] => 0
  | t :: ts => t.size + sizes ts

end

/-- Whether the expressions that a node of a kind holds under a field are operands: those that it
does not extend to the right. -/
def holdsOperand (parent : Kind) : Option Field → Bool
  | none | some .expression | some .target | some .iterable | some .condition | some .index
  | some .right | some .operand | some .macroExpr => true
  | some .value => parent ≠ .tagAttribute
  | some .key => parent = .pair
  | _ => false

/-- Whether a tree is an operand of the node of a kind that holds it. -/
def isOperandIn (parent : Kind) (t : Tree) : Bool :=
  t.kind.isExpression && holdsOperand parent t.field

mutual

/-- How many elements and operands stand inside each other in a tree, the tree itself left out. -/
def nesting : Tree → Nat
  | leaf .. => 0
  | node _ kind ts => nestings kind ts

/-- How many elements and operands stand inside each other in some children of a node of a kind. -/
def nestings (parent : Kind) : List Tree → Nat
  | [] => 0
  | t :: ts =>
    max (t.nesting + if t.isOperandIn parent || t.kind = .element then 1 else 0)
      (nestings parent ts)

end

/-- The field of a tree says nothing about what stands inside each other in it. -/
@[simp]
theorem nesting_under (t : Tree) (f : Option Field) : (t.under f).nesting = t.nesting := by
  cases t <;> rfl

/-- A child is nested no deeper than the node. -/
theorem nesting_le_of_mem (parent : Kind) {ts : List Tree} {t : Tree} (h : t ∈ ts) :
    t.nesting + (if t.isOperandIn parent || t.kind = .element then 1 else 0) ≤
      nestings parent ts := by
  induction ts with
  | nil => cases h
  | cons u us ih =>
    rcases List.mem_cons.1 h with rfl | h
    · exact Nat.le_max_left _ _
    · exact Nat.le_trans (ih h) (Nat.le_max_right _ _)

/-- An operand is nested less deeply than the node. -/
theorem nesting_lt_of_mem {parent : Kind} {ts : List Tree} {t : Tree} (h : t ∈ ts)
    (ht : t.isOperandIn parent = true) : t.nesting < nestings parent ts := by
  have hle := nesting_le_of_mem parent h
  rw [ht, Bool.true_or, if_pos rfl] at hle
  exact hle

mutual

/-- What holds of a tree and of every tree in it. -/
def Every (P : Tree → Prop) : Tree → Prop
  | leaf f k gap text => P (leaf f k gap text)
  | node f k ts => P (node f k ts) ∧ EveryOf P ts

/-- What holds of some trees and of every tree in them. -/
def EveryOf (P : Tree → Prop) : List Tree → Prop
  | [] => True
  | t :: ts => t.Every P ∧ EveryOf P ts

end

/-- What holds of every tree in a tree holds of the tree. -/
theorem Every.here {P : Tree → Prop} {t : Tree} (h : t.Every P) : P t := by
  cases t with
  | leaf => exact h
  | node => exact h.1

/-- What holds of every tree in some trees holds of every tree in each of them. -/
theorem everyOf_iff {P : Tree → Prop} {ts : List Tree} :
    EveryOf P ts ↔ ∀ t ∈ ts, t.Every P := by
  induction ts with
  | nil => simp [EveryOf]
  | cons t ts ih => simp [EveryOf, ih]

/-- What holds of every tree in two rows is what holds of every tree in each. -/
theorem everyOf_append {P : Tree → Prop} {as bs : List Tree} :
    EveryOf P (as ++ bs) ↔ EveryOf P as ∧ EveryOf P bs := by
  simp [everyOf_iff, or_imp, forall_and]

/-- What does not depend on the field of a tree holds of every tree in it under each field. -/
theorem Every.under {P : Tree → Prop} (hP : ∀ {t f}, P t → P (t.under f)) {t : Tree}
    (h : t.Every P) (f : Option Field) : (t.under f).Every P := by
  cases t with
  | leaf => exact hP h
  | node => exact ⟨hP h.1, h.2⟩

mutual

/-- Equality of trees is decidable. -/
def decEq : (a b : Tree) → Decidable (a = b)
  | leaf f k gap text, leaf f' k' gap' text' =>
    decidable_of_iff (f = f' ∧ k = k' ∧ gap = gap' ∧ text = text') (by simp)
  | leaf .., node .. => isFalse (by simp)
  | node .., leaf .. => isFalse (by simp)
  | node f k ts, node f' k' ts' =>
    have := decEqs ts ts'
    decidable_of_iff (f = f' ∧ k = k' ∧ ts = ts') (by simp)

/-- Equality of lists of trees is decidable. -/
def decEqs : (as bs : List Tree) → Decidable (as = bs)
  | [], [] => isTrue rfl
  | [], _ :: _ => isFalse (by simp)
  | _ :: _, [] => isFalse (by simp)
  | a :: as, b :: bs =>
    have := decEq a b
    have := decEqs as bs
    decidable_of_iff (a = b ∧ as = bs) (by simp)

end

instance : DecidableEq Tree := decEq

end Tree

/-- The leaf that a token becomes. -/
def Token.leaf (t : Token) (field : Option Field) (kind : Kind) : Tree :=
  .leaf field kind t.gap t.text

end Stencil
