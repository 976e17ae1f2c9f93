import Stencil.Proofs.Separation
import Stencil.Grammar.Expression

/-!
# Canonical expressions

The expressions that read back as what they are when their tokens are written one space apart. A
sign binds tighter than a call and than every operator, and properties and subscripts bind tighter
than a sign; all operators and calls have one strength and extend what stands to their left. So an
expression may stand in another one only if its class is right: `Canonical` says how.

The trees of `Canonical` have one space before each token. Any tree is brought into this form by
`Tree.spaced`, which changes nothing but blanks.
-/

namespace Stencil

/-! ## Tokens one space apart -/

namespace Tree

mutual

/-- The texts of the tokens of a tree. -/
def words : Tree → List (List Char)
  | leaf _ _ _ text => [text]
  | node _ _ ts => wordsOf ts

/-- The texts of the tokens of some trees. -/
def wordsOf : List Tree → List (List Char)
  | [] => []
  | t :: ts => t.words ++ wordsOf ts

end

mutual

/-- The tree with one space before each token. -/
def spaced : Tree → Tree
  | leaf field kind _ text => leaf field kind [' '] text
  | node field kind ts => node field kind (spacedAll ts)

/-- Some trees with one space before each token. -/
def spacedAll : List Tree → List Tree
  | [] => []
  | t :: ts => t.spaced :: spacedAll ts

end

mutual

/-- What a tree with one space before each token holds. -/
theorem source_spaced : (t : Tree) → t.spaced.source = t.words.flatMap (' ' :: ·)
  | leaf .. => by simp [spaced, words, source]
  | node _ _ ts => sources_spacedAll ts

/-- What some trees with one space before each token hold. -/
theorem sources_spacedAll : (ts : List Tree) →
    sources (spacedAll ts) = (wordsOf ts).flatMap (' ' :: ·)
  | [] => rfl
  | t :: ts => by
    rw [spacedAll, sources, wordsOf, List.flatMap_append, source_spaced t, sources_spacedAll ts]

end

end Tree

/-- Texts with one space between them, and one before the first, are texts with one space before
each. -/
theorem flatMap_cons_eq_intercalate {sep : Char} {texts : List (List Char)} (h : texts ≠ []) :
    texts.flatMap (sep :: ·) = sep :: [sep].intercalate texts := by
  induction texts with
  | nil => exact absurd rfl h
  | cons text more ih =>
    cases more with
    | nil => simp [List.intercalate]
    | cons next more =>
      rw [List.flatMap_cons, ih (List.cons_ne_nil _ _)]
      simp [List.intercalate]

/-! ## Texts of tokens -/

/-- A word: a letter or an underscore, and then letters, digits and underscores. -/
def IsWord (w : List Char) : Prop :=
  ∃ c s, w = c :: s ∧ isWordStart c = true ∧ ∀ d ∈ s, isWordChar d = true

/-- The words that are no names where an operand may stand. -/
def reservedWords : List String := ["not", "True", "False"]

/-- What is written before an operand. -/
def signs : List String := ["not", "-", "+"]

/-- What is written between operands, with the kind of the node that it makes. -/
def operators : List (Kind × String) :=
  [(.comparison, "=="), (.comparison, "!="), (.comparison, "<"), (.comparison, ">"),
    (.comparison, "<="), (.comparison, ">="), (.comparison, "in"), (.comparison, "not in"),
    (.binaryOperation, "+"), (.binaryOperation, "-"), (.binaryOperation, "*"),
    (.binaryOperation, "**"), (.binaryOperation, "/"), (.binaryOperation, "//"),
    (.binaryOperation, "%")]

/-- A text that is one token of code by itself. -/
def Token.IsWhole (operand : Bool) (kind : TokenKind) (text : List Char) : Prop :=
  text ≠ [] ∧ scanCode operand text = .ok ⟨kind, [], text, []⟩

/-- A text that is a literal of a kind. -/
inductive IsLiteral : Kind → List Char → Prop
  | string {text : List Char} (h : Token.IsWhole true .quoted text) : IsLiteral .string text
  | integer {text : List Char} (h : Token.IsWhole true .integer text) : IsLiteral .integer text
  | float {text : List Char} (h : Token.IsWhole true .float text) : IsLiteral .float text
  | bool {w : String} (h : w ∈ ["True", "False"]) : IsLiteral .bool w.toList

/-! ## Trees one space apart -/

/-- The character that opens a bracket. -/
def Bracket.first : Bracket → Char
  | round => '('
  | square => '['
  | curly => '{'

namespace Tree

/-- A punctuation mark. -/
def mark (c : Char) : Tree := leaf none .punctuation [' '] [c]

/-- A name. -/
def name (field : Option Field) (w : List Char) : Tree := leaf field .identifier [' '] w

/-- An operator. -/
def operator (text : String) : Tree := leaf (some .operator) .operator [' '] text.toList

/-- An operator and its operand. -/
def unary (sign : String) (t : Tree) : Tree :=
  node none .unaryOperation [operator sign, t.under (some .operand)]

/-- What comes after a member: the others with a comma before each, and perhaps one more comma. -/
def following (trailing : Bool) : List Tree → List Tree
  | [] => if trailing then [mark ','] else []
  | t :: ts => mark ',' :: t :: following trailing ts

/-- Members with commas between them, and perhaps one after the last. -/
def separated (trailing : Bool) : List Tree → List Tree
  | [] => if trailing then [mark ','] else []
  | t :: ts => t :: following trailing ts

/-- Members between brackets. -/
def bracketed (b : Bracket) (trailing : Bool) (ts : List Tree) : List Tree :=
  mark b.first :: (separated trailing ts ++ [mark b.closer])

/-- A pair of a dictionary. -/
def pair (key value : Tree) : Tree :=
  node none .pair [key.under (some .key), mark ':', value.under (some .value)]

/-- An argument, which may have a name. -/
def argument : Option (List Char) → Tree → Tree
  | none, value => value
  | some w, value =>
    node none .keywordArgument [name (some .key) w, mark '=', value.under (some .value)]

end Tree

namespace Tail

/-- A property. -/
def propertyTree (w : List Char) : Tail Tree :=
  ⟨.propertyAccess, .object, [.mark '.', .name (some .property) w]⟩

/-- A subscript. -/
def subscriptTree (index : Tree) : Tail Tree :=
  ⟨.subscript, .object, [.mark '[', index.under (some .index), .mark ']']⟩

/-- Arguments. -/
def callTree (trailing : Bool) (arguments : List Tree) : Tail Tree :=
  ⟨.call, .function,
    [.node (some .arguments) .argumentList (Tree.bracketed .round trailing arguments)]⟩

/-- An operator and the operand to its right. -/
def binaryTree (kind : Kind) (op : String) (right : Tree) : Tail Tree :=
  ⟨kind, .left, [.operator op, right.under (some .right)]⟩

end Tail

/-! ## What is written -/

namespace Tree

/-- The members of a list stand between its brackets. -/
theorem mem_bracketed (b : Bracket) (trailing : Bool) {ts : List Tree} {t : Tree} (h : t ∈ ts) :
    t ∈ bracketed b trailing ts := by
  have hfollowing : ∀ {us : List Tree}, t ∈ us → t ∈ following trailing us := by
    intro us hus
    induction us with
    | nil => cases hus
    | cons u us ih =>
      rcases List.mem_cons.1 hus with rfl | hus
      · exact List.mem_cons_of_mem _ List.mem_cons_self
      · exact List.mem_cons_of_mem _ (List.mem_cons_of_mem _ (ih hus))
  have hseparated : t ∈ separated trailing ts := by
    cases ts with
    | nil => cases h
    | cons u us =>
      rcases List.mem_cons.1 h with rfl | h
      · exact List.mem_cons_self
      · exact List.mem_cons_of_mem _ (hfollowing h)
  exact List.mem_cons_of_mem _ (List.mem_append_left _ hseparated)

/-- What is written of an operator and its operand. -/
theorem source_unary (sign : String) (t : Tree) :
    (unary sign t).source = ' ' :: (sign.toList ++ t.source) := by
  simp [unary, operator, source, sources]

/-- What is written of members between brackets. -/
theorem sources_bracketed (b : Bracket) (trailing : Bool) (ts : List Tree) :
    sources (bracketed b trailing ts) =
      ' ' :: b.first :: (sources (separated trailing ts) ++ [' ', b.closer]) := by
  simp [bracketed, sources, source, mark]

/-- What is written of a pair. -/
theorem source_pair (key value : Tree) :
    (pair key value).source = key.source ++ ' ' :: ':' :: value.source := by
  simp [pair, mark, source, sources]

/-- What is written of a named argument. -/
theorem source_argument_some (w : List Char) (value : Tree) :
    (argument (some w) value).source = ' ' :: (w ++ ' ' :: '=' :: value.source) := by
  simp [argument, name, mark, source, sources]

end Tree

namespace Tail

/-- What is written of an expression that a tail extends. -/
theorem source_attach (t : Tree) (tail : Tail Tree) :
    (attach t tail).source = t.source ++ Tree.sources tail.more := by
  rw [attach, Tree.source, Tree.sources, Tree.source_under]

/-- What is written of a property. -/
theorem sources_propertyTree (w : List Char) :
    Tree.sources (propertyTree w).more = ' ' :: '.' :: ' ' :: w := by
  simp [propertyTree, Tree.mark, Tree.name, Tree.source, Tree.sources]

/-- What is written of a subscript. -/
theorem sources_subscriptTree (index : Tree) :
    Tree.sources (subscriptTree index).more = ' ' :: '[' :: (index.source ++ [' ', ']']) := by
  simp [subscriptTree, Tree.mark, Tree.source, Tree.sources]

/-- What is written of arguments. -/
theorem sources_callTree (trailing : Bool) (arguments : List Tree) :
    Tree.sources (callTree trailing arguments).more =
      ' ' :: '(' :: (Tree.sources (Tree.separated trailing arguments) ++ [' ', ')']) := by
  simp [callTree, Tree.source, Tree.sources, Tree.sources_bracketed, Bracket.first, Bracket.closer]

/-- What is written of an operator and the operand to its right. -/
theorem sources_binaryTree (kind : Kind) (op : String) (right : Tree) :
    Tree.sources (binaryTree kind op right).more = ' ' :: (op.toList ++ right.source) := by
  simp [binaryTree, Tree.operator, Tree.source, Tree.sources]

end Tail

/-! ## Classes -/

/-- The classes of canonical expressions. -/
inductive Grade where
  /-- What a property or subscript may extend behind a sign. -/
  | tight
  /-- What may stand to the right of an operator. -/
  | signed
  /-- What a property or subscript may extend. -/
  | called
  /-- Every expression. -/
  | any
deriving DecidableEq, Repr

/-- The canonical expressions of each class. -/
inductive Canonical : Grade → Tree → Prop
  | name {w : List Char} (hw : IsWord w) (hname : ∀ r ∈ reservedWords, w ≠ r.toList) :
    Canonical .tight (.name none w)
  | literal {kind : Kind} {text : List Char} (h : IsLiteral kind text) :
    Canonical .tight (.leaf none kind [' '] text)
  | list (trailing : Bool) {items : List Tree} (h : ∀ t ∈ items, Canonical .any t) :
    Canonical .tight (.node none .list (Tree.bracketed .square trailing items))
  | dict (trailing : Bool) {pairs : List (Tree × Tree)} (hkeys : ∀ p ∈ pairs, Canonical .any p.1)
    (hvalues : ∀ p ∈ pairs, Canonical .any p.2) :
    Canonical .tight
      (.node none .dict (Tree.bracketed .curly trailing (pairs.map fun p => .pair p.1 p.2)))
  | property {g : Grade} {t : Tree} {w : List Char} (hg : g = .tight ∨ g = .called)
    (h : Canonical g t) (hw : IsWord w) : Canonical g (Tail.attach t (.propertyTree w))
  | subscript {g : Grade} {t index : Tree} (hg : g = .tight ∨ g = .called) (h : Canonical g t)
    (hindex : Canonical .any index) : Canonical g (Tail.attach t (.subscriptTree index))
  | tight {g : Grade} {t : Tree} (h : Canonical .tight t) : Canonical g t
  | unary {sign : String} {t : Tree} (hsign : sign ∈ signs) (h : Canonical .signed t) :
    Canonical .signed (.unary sign t)
  | call (trailing : Bool) {t : Tree} {arguments : List (Option (List Char) × Tree)}
    (h : Canonical .any t) (hnames : ∀ a ∈ arguments, ∀ w ∈ a.1, IsWord w)
    (harguments : ∀ a ∈ arguments, Canonical .any a.2) :
    Canonical .called
      (Tail.attach t (.callTree trailing (arguments.map fun a => .argument a.1 a.2)))
  | signed {t : Tree} (h : Canonical .signed t) : Canonical .any t
  | called {t : Tree} (h : Canonical .called t) : Canonical .any t
  | binary {kind : Kind} {op : String} {left right : Tree} (hop : (kind, op) ∈ operators)
    (hleft : Canonical .any left) (hright : Canonical .signed right) :
    Canonical .any (Tail.attach left (.binaryTree kind op right))

namespace Canonical

variable {g : Grade} {t : Tree}

/-- A canonical expression is an expression. -/
theorem isExpression (h : Canonical g t) : t.kind.isExpression = true := by
  induction h with
  | literal h => cases h <;> rfl
  | tight _ ih | signed _ ih | called _ ih => exact ih
  | binary hop =>
    have hkinds : ∀ op ∈ operators, op.1.isExpression = true := by decide
    exact hkinds _ hop
  | _ => rfl

/-- A canonical expression is an operand where a node holds one. -/
theorem isOperandIn (h : Canonical g t) (parent : Kind) (f : Option Field)
    (hf : Tree.holdsOperand parent f = true) : (t.under f).isOperandIn parent = true := by
  rw [Tree.isOperandIn, Tree.kind_under, Tree.field_under, h.isExpression, hf]
  rfl

/-- A canonical expression is held under no field. -/
theorem under_none (h : Canonical g t) : t.under none = t := by
  induction h with
  | tight _ ih | signed _ ih | called _ ih => exact ih
  | _ => rfl

/-- A canonical expression begins with a space. -/
theorem source_eq (h : Canonical g t) : ∃ s, t.source = ' ' :: s := by
  have hattach : ∀ {t : Tree} {tail : Tail Tree},
      (∃ s, t.source = ' ' :: s) → ∃ s, (Tail.attach t tail).source = ' ' :: s := by
    rintro t tail ⟨s, hs⟩
    exact ⟨s ++ Tree.sources tail.more, by simp [Tail.attach, Tree.source, Tree.sources, hs]⟩
  induction h with
  | name | literal | list | dict | unary => exact ⟨_, rfl⟩
  | tight _ ih | signed _ ih | called _ ih => exact ih
  | property _ _ _ ih | subscript _ _ _ ih _ | call _ _ _ _ ih _ => exact hattach ih
  | binary _ _ _ ih _ => exact hattach ih

/-- The key and the value of a pair are operands of it. -/
theorem nesting_lt_pair {key value : Tree} (hkey : Canonical .any key)
    (hvalue : Canonical .any value) :
    key.nesting < (Tree.pair key value).nesting ∧
      value.nesting < (Tree.pair key value).nesting := by
  have hkey := hkey.isOperandIn .pair (some .key) rfl
  have hvalue := hvalue.isOperandIn .pair (some .value) rfl
  simp only [Tree.pair, Tree.nesting, Tree.nestings, Tree.nesting_under, hkey, hvalue,
    Bool.true_or, if_true]
  omega

/-- The value of a named argument is an operand of it. -/
theorem nesting_lt_argument {w : List Char} {value : Tree} (h : Canonical .any value) :
    value.nesting < (Tree.argument (some w) value).nesting := by
  have hvalue := h.isOperandIn .keywordArgument (some .value) rfl
  simp only [Tree.argument, Tree.nesting, Tree.nestings, Tree.nesting_under, hvalue,
    Bool.true_or, if_true]
  omega

/-- What stands behind a sign is its operand. -/
theorem nesting_lt_unary {sign : String} (h : Canonical g t) :
    t.nesting < (Tree.unary sign t).nesting := by
  have ht := h.isOperandIn .unaryOperation (some .operand) rfl
  simp only [Tree.unary, Tree.nesting, Tree.nestings, Tree.nesting_under, ht, Bool.true_or,
    if_true]
  omega

/-- The index of a subscript is an operand of it. -/
theorem nesting_lt_subscriptTree (h : Canonical g t) :
    t.nesting < Tree.nestings .subscript (Tail.subscriptTree t).more := by
  have ht := h.isOperandIn .subscript (some .index) rfl
  simp only [Tail.subscriptTree, Tree.nestings, Tree.nesting_under, ht, Bool.true_or, if_true]
  omega

/-- What stands to the right of an operator is its operand. -/
theorem nesting_lt_binaryTree {kind : Kind} {op : String} (h : Canonical g t) :
    t.nesting < Tree.nestings kind (Tail.binaryTree kind op t).more := by
  have ht := h.isOperandIn kind (some .right) rfl
  simp only [Tail.binaryTree, Tree.nestings, Tree.nesting_under, ht, Bool.true_or, if_true]
  omega

end Canonical

end Stencil
