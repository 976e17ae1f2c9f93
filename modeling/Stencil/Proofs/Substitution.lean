import Mathlib
import Stencil.Proofs.Holes

/-!
# Expressions mean the same in every place

If an expression is read without faults between the delimiters of a value, with a space on each
side, it is so in every other place that may hold one (`Hole`), if operands may nest as deeply
there. The tree of the template then holds the nodes that the expression has in the value, moved to
where they stand. The main statement is `Template.parse_fill`.
-/

namespace Stencil

variable {t : Tree} {b : List Char}

/-- The node, held under another field. -/
def Node.under (f : Option Field) (n : Node) : Node := { n with tree := n.tree.under f }

namespace Tree

/-- The field under which a tree is held says nothing about where it stands. -/
theorem place_under (t : Tree) (f : Option Field) (id pos : Nat) :
    (t.under f).place id pos = (t.place id pos).under f := by
  cases t <;> rfl

/-- Of two fields under which a tree is held one after the other the last counts. -/
theorem under_under (t : Tree) (f g : Option Field) : (t.under f).under g = t.under g := by
  cases t <;> rfl

/-- The field under which a tree is held is no node. -/
@[simp]
theorem size_under (t : Tree) (f : Option Field) : (t.under f).size = t.size := by
  cases t <;> rfl

section Constructors

variable (f : Option Field) (k : Kind) (gap text : List Char) (ts : List Tree)

/-- A leaf is what it is made. -/
@[simp]
theorem kind_leaf : (leaf f k gap text).kind = k := rfl

/-- A node is what it is made. -/
@[simp]
theorem kind_node : (node f k ts).kind = k := rfl

/-- A leaf is held under the field that it is made for. -/
@[simp]
theorem field_leaf : (leaf f k gap text).field = f := rfl

/-- A node is held under the field that it is made for. -/
@[simp]
theorem field_node : (node f k ts).field = f := rfl

/-- A node has the children that it is made of. -/
@[simp]
theorem children_node : (node f k ts).children = ts := rfl

/-- A leaf is one node. -/
@[simp]
theorem size_leaf : (leaf f k gap text).size = 1 := rfl

/-- A leaf holds its blanks and its text. -/
@[simp]
theorem source_leaf : (leaf f k gap text).source = gap ++ text := rfl

end Constructors

end Tree

namespace Node

/-- A template that is one value, of an expression. -/
def HoldsValue (root e : Node) : Prop :=
  ∃ n, root.children = [n] ∧ n.view? = some (.value (some e))

/-- A template that is one statement without trim markers, of a body. -/
def HoldsStatement (root body : Node) : Prop :=
  ∃ n, root.children = [n] ∧ n.view? = some (.statement (some body) false false)

end Node

/-! ## What a place holds -/

namespace Hole

/-- Whether a template holds an expression in a place, and besides it only what is written around
it. -/
def Holds (root e : Node) : Hole → Prop
  | value => root.HoldsValue e
  | ifCondition => ∃ body, root.HoldsStatement body ∧
      body.view? = some (.ifStatement (some e) [] none)
  | elifCondition => ∃ body, root.HoldsStatement body ∧ body.view? = some (.elifClause (some e))
  | assigned => ∃ body name, root.HoldsStatement body ∧
      body.view? = some (.setStatement (some name) (some e)) ∧ name.text = ['v']
  | iterable => ∃ body target, root.HoldsStatement body ∧
      body.view? = some (.forStatement (some target) (some e) none) ∧ target.text = ['v']
  | loopCondition => ∃ body target iterable, root.HoldsStatement body ∧
      body.view? = some (.forStatement (some target) (some iterable) (some e)) ∧
        target.text = ['v'] ∧ iterable.text = ['w']
  | attributeValue => ∃ n a v, root.children = [n] ∧
      n.view? = some (.element (some ['a']) none true [a] []) ∧
        a.view? = some (.tagAttribute (some ['b']) (some (.value v))) ∧
          v.view? = some (.value (some e))
  | listItem => ∃ list, root.HoldsValue list ∧ list.view? = some (.list [e])
  | argument => ∃ call function arguments, root.HoldsValue call ∧
      call.view? = some (.call (some function) (some arguments)) ∧ function.text = ['f'] ∧
        arguments.view? = some (.argumentList [.positional e])
  | namedArgument => ∃ call function arguments named key, root.HoldsValue call ∧
      call.view? = some (.call (some function) (some arguments)) ∧ function.text = ['f'] ∧
        arguments.view? = some (.argumentList [.named named]) ∧
          named.view? = some (.keywordArgument (some key) (some e)) ∧ key.text = ['k']
  | index => ∃ subscript object, root.HoldsValue subscript ∧
      subscript.view? = some (.subscript (some object) (some e)) ∧ object.text = ['x']
  | pairValue => ∃ dict pair key, root.HoldsValue dict ∧ dict.view? = some (.dict [pair]) ∧
      pair.view? = some (.pair (some key) (some e)) ∧ key.text = ['k']

/-- How many more nodes come before the expression than before that of a value. -/
def nodes : Hole → Nat
  | value => 0
  | ifCondition | elifCondition | listItem => 1
  | argument | index => 2
  | assigned | iterable | pairValue => 3
  | attributeValue | namedArgument => 4
  | loopCondition => 5

/-- How many more bytes come before the expression than before that of a value. -/
def bytes (hole : Hole) : Nat := byteLength hole.before - byteLength value.before

section Views

attribute [local simp] Tree.place_children Tree.placeAll_cons Node.view? Node.expr? Node.child?
  Node.part? Tree.keyword Tree.name Tree.mark Tree.touchingMark Tree.between

/-- The tree of a place holds the expression that fills it. -/
theorem holds_tree (hole : Hole) (ht : t.kind.isExpression = true) :
    hole.Holds (Tree.root (.node none .sourceFile [hole.tree b t]))
      ((t.under hole.field).place (1 + hole.nodes) (2 + hole.bytes)) := by
  have hmark : Kind.punctuation.isExpression = false := rfl
  have hne : t.kind ≠ .keywordArgument := by
    intro hkind
    rw [hkind] at ht
    cases ht
  cases hole with
  | value =>
    refine ⟨_, rfl, ?_⟩
    simp [tree, Tree.valueOf, ht]
    rfl
  | ifCondition =>
    refine ⟨(Tree.node none .ifStatement [.keyword "if", t.under (some .condition)]).place 1 2,
      ⟨_, rfl, rfl⟩, ?_⟩
    simp [Node.childrenUnder, ht]
    rfl
  | elifCondition =>
    refine ⟨(Tree.node none .elifClause [.keyword "elif", t.under (some .condition)]).place 1 2,
      ⟨_, rfl, rfl⟩, ?_⟩
    simp [ht]
    rfl
  | assigned =>
    refine ⟨(Tree.node none .setStatement [.keyword "set", .name (some .variableName) ['v'],
      .mark '=', t.under (some .value)]).place 1 2,
      (Tree.name (some .variableName) ['v']).place 2 6, ⟨_, rfl, rfl⟩, ?_, rfl⟩
    simp [ht]
    exact ⟨rfl, rfl⟩
  | iterable =>
    refine ⟨(Tree.node none .forStatement [.keyword "for", .name (some .target) ['v'],
      .keyword "in", t.under (some .iterable)]).place 1 2,
      (Tree.name (some .target) ['v']).place 2 6, ⟨_, rfl, rfl⟩, ?_, rfl⟩
    simp [ht]
    exact ⟨⟨rfl, rfl⟩, rfl⟩
  | loopCondition =>
    refine ⟨(Tree.node none .forStatement [.keyword "for", .name (some .target) ['v'],
      .keyword "in", .name (some .iterable) ['w'], .keyword "if",
        t.under (some .condition)]).place 1 2,
      (Tree.name (some .target) ['v']).place 2 6, (Tree.name (some .iterable) ['w']).place 4 11,
      ⟨_, rfl, rfl⟩, ?_, rfl, rfl⟩
    simp [ht]
    exact ⟨⟨rfl, rfl⟩, ⟨rfl, rfl⟩, rfl⟩
  | attributeValue =>
    refine ⟨_, (Tree.node none .tagAttribute [.leaf (some .name) .attributeName [' '] ['b'],
      .touchingMark '=', t.valueOf (some .value) b]).place 2 2,
      (t.valueOf (some .value) b).place 4 5, rfl, rfl, rfl, ?_⟩
    simp [Tree.valueOf, ht]
    rfl
  | listItem =>
    refine ⟨(Tree.node (some .expression) .list
      (Tree.between [' '] .square b (t.under none))).place 1 2, ⟨_, rfl, rfl⟩, ?_⟩
    simp [hmark, ht]
    rfl
  | argument =>
    refine ⟨_, _, (Tree.node (some .arguments) .argumentList
      (Tree.between [] .round b (t.under none))).place 2 4, ⟨_, rfl, rfl⟩, rfl, rfl, ?_⟩
    simp [Node.arguments, hmark, ht, hne]
    rfl
  | namedArgument =>
    refine ⟨_, _, _, (Tree.node none .keywordArgument
      [.name (some .key) ['k'], .touchingMark '=', t.under (some .value)]).place 3 5,
      (Tree.name (some .key) ['k']).place 3 5, ⟨_, rfl, rfl⟩, rfl, rfl, rfl, ?_, rfl⟩
    simp [ht]
    rfl
  | index =>
    refine ⟨(Tree.node (some .expression) .subscript
      (.name (some .object) ['x'] :: Tree.between [] .square b (t.under (some .index)))).place 1 2,
      (Tree.name (some .object) ['x']).place 1 2, ⟨_, rfl, rfl⟩, ?_, rfl⟩
    simp [ht]
    exact ⟨rfl, rfl⟩
  | pairValue =>
    refine ⟨_, (Tree.pair (.name none ['k']) t).place 2 4, (Tree.name (some .key) ['k']).place 2 4,
      ⟨_, rfl, rfl⟩, rfl, ?_, rfl⟩
    simp [Tree.pair, ht]
    exact ⟨⟨rfl, rfl⟩, rfl⟩

end Views

end Hole

namespace Template

variable {options : Options} {expr : Input} {e : Node}

/-- An item that is a value and leaves nothing is a template without faults that holds the value's
expression. -/
theorem holdsValue_of_item {s : Input} (hs : s ≠ []) (ht : t.kind.isExpression = true)
    (h : (Markup.item false options.maxDepth).parser s = .ok ([t.valueOf none b], [])) :
    (parse options s).errors = [] ∧
      (parse options s).tree.root.HoldsValue ((t.under (some .expression)).place 1 2) := by
  obtain ⟨hclean, htree⟩ := parse_of_item hs h
  rw [htree]
  exact ⟨hclean, Hole.value.holds_tree ht⟩

/-- The expression of a value without faults, with a space on each side, fills every place, and its
node stands in the value behind the delimiter. -/
theorem exists_of_holdsValue (hclean : (parse options (Hole.value.fill expr)).errors = [])
    (hvalue : (parse options (Hole.value.fill expr)).tree.root.HoldsValue e) :
    ∃ (t : Tree) (b : List Char), t.Fills options.maxDepth ∧ IsGap b ∧
      (∀ before after : Input, before ++ ' ' :: (expr ++ ' ' :: after) =
        before ++ (t.source ++ (b ++ after))) ∧
      e = (t.under (some .expression)).place 1 2 := by
  obtain ⟨n, hone, hview⟩ := hvalue
  obtain ⟨t, b, hfills, hb, hsource, rfl⟩ := fills_of_value hclean hone
  refine ⟨t, b, hfills, hb, fun before after => ?_, ?_⟩
  · rw [← List.append_assoc t.source, hsource]
    simp
  · obtain ⟨n, hn, hview'⟩ := Hole.value.holds_tree (b := b) hfills.isExpression
    obtain rfl : (t.valueOf none b).place 0 0 = n := List.singleton_inj.1 hn
    exact Option.some.inj (View.value.inj (Option.some.inj (hview.symm.trans hview')))

/-- An expression that is read without faults as the value that a template is, with a space on each
side, is read so in every other place that may hold one, unless it is refused because it nests too
deep there. The template then holds the nodes that the expression has in the value, moved to where
they stand. -/
theorem parse_fill (hole : Hole) (options options' : Options) (expr : Input) {e : Node}
    (hclean : (parse options (Hole.value.fill expr)).errors = [])
    (hvalue : (parse options (Hole.value.fill expr)).tree.root.HoldsValue e)
    (hdeep : ∀ d ∈ (parse options' (hole.fill expr)).errors, d.cause ≠ .nestingTooDeep) :
    (parse options' (hole.fill expr)).errors = [] ∧
      hole.Holds (parse options' (hole.fill expr)).tree.root
        ((e.shift hole.nodes hole.bytes).under hole.field) := by
  obtain ⟨t, b, hfills, hb, hsource, rfl⟩ := exists_of_holdsValue hclean hvalue
  -- With depth enough for both the place is read, and so it is with less depth.
  let high : Options :=
    ⟨options'.recover, max options.maxDepth options'.maxDepth + 1, Nat.succ_pos _⟩
  have hitem := hole.read_fill hfills (Nat.le_max_left options.maxDepth options'.maxDepth) hb
  rw [← hsource] at hitem
  have hne : hole.fill expr ≠ [] := by simp [Hole.fill]
  obtain ⟨herrors, htree⟩ : (parse high (hole.fill expr)).errors = [] ∧
      (parse high (hole.fill expr)).tree = .node none .sourceFile [hole.tree b t] :=
    parse_of_item hne hitem
  have hle : options'.maxDepth ≤ high.maxDepth := Nat.le_succ_of_le (Nat.le_max_right _ _)
  have hsame : parse options' (hole.fill expr) = parse high (hole.fill expr) := by
    refine (@parse_eq_or_refused options' high rfl hle _).resolve_right ?_
    rintro ⟨d, hd, hcause⟩
    exact hdeep d hd hcause
  have hmoved : (((t.under (some .expression)).place 1 2).shift hole.nodes hole.bytes).under
      hole.field = (t.under hole.field).place (1 + hole.nodes) (2 + hole.bytes) := by
    rw [← Tree.place_shift, ← Tree.place_under, Tree.under_under]
  rw [hsame, hmoved, htree]
  exact ⟨herrors, hole.holds_tree hfills.isExpression⟩

/-- A property as the item of a list, two bytes further on than in a value. -/
theorem parse_fill_listItem :
    let options : Options := ⟨false, 1, by decide⟩
    let options' : Options := ⟨true, 2, by decide⟩
    let expr : Input := ['a', '.', 'b']
    let e : Node := (Tree.node (some .expression) .propertyAccess
      [.leaf (some .object) .identifier [' '] ['a'], .leaf none .punctuation [] ['.'],
        .leaf (some .property) .identifier [] ['b']]).place 1 2
    (parse options (Hole.value.fill expr)).errors = [] ∧
      (parse options (Hole.value.fill expr)).tree.root.HoldsValue e ∧
      (∀ d ∈ (parse options' (Hole.listItem.fill expr)).errors, d.cause ≠ .nestingTooDeep) ∧
      Hole.listItem.Holds (parse options' (Hole.listItem.fill expr)).tree.root
        ((e.shift 1 2).under none) := by
  intro options options' expr e
  have hfill : Hole.value.fill expr = ['{', '{', ' ', 'a', '.', 'b', ' ', '}', '}'] := rfl
  have hfill' : Hole.listItem.fill expr =
      ['{', '{', ' ', '[', ' ', 'a', '.', 'b', ' ', ']', ' ', '}', '}'] := rfl
  have hne : Hole.value.fill expr ≠ [] := List.cons_ne_nil _ _
  have hne' : Hole.listItem.fill expr ≠ [] := List.cons_ne_nil _ _
  have hread : (Markup.item false 1).parser (Hole.value.fill expr) =
      .ok ([e.tree.valueOf none [' ']], []) := by
    rw [hfill]
    cbv
  have hread' : (Markup.item false 2).parser (Hole.listItem.fill expr) =
      .ok ([Hole.listItem.tree [' '] e.tree], []) := by
    rw [hfill']
    cbv
  obtain ⟨hclean, hvalue⟩ :
      (parse options (Hole.value.fill expr)).errors = [] ∧
        (parse options (Hole.value.fill expr)).tree.root.HoldsValue e :=
    @holdsValue_of_item _ _ options _ hne rfl hread
  have hdeep : ∀ d ∈ (parse options' (Hole.listItem.fill expr)).errors,
      d.cause ≠ .nestingTooDeep := by
    simp [(@parse_of_item _ options' _ hne' hread').1]
  exact ⟨hclean, hvalue, hdeep, (parse_fill .listItem options options' expr hclean hvalue hdeep).2⟩

end Template

end Stencil
