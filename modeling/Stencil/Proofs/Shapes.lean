import Stencil.Proofs.Items

/-!
# The shapes of nodes

Which kinds of children a node has, in which order and under which fields, is written out for every
kind (`Shape.ofKind`), and the grammar keeps to it (`Grammar.shapeOf_eq`): so do the children of
every tree that is formed (`Tree.Formed.matches_shape`). How many of the children pass a test of
kinds and fields is computed from a shape. At least one child does in every row where `Shape.always`
is true, none where `Shape.never` is, and at most one where `Shape.once` is.
-/

namespace Stencil

/-- The kind of a child, and the field under which it is held. -/
abbrev Slot := Kind × Option Field

/-- The kind of a tree, and the field under which it is held. -/
def Tree.slot (t : Tree) : Slot := (t.kind, t.field)

/-- What a row of children looks like. -/
inductive Shape where
  /-- No row is allowed. -/
  | refused
  /-- There are no children. -/
  | nothing
  /-- There is one child, which is of one of the kinds. -/
  | child (kinds : List Kind) (field : Option Field)
  /-- One row is followed by another. -/
  | both (first more : Shape)
  /-- The row is one of two. -/
  | either (one other : Shape)
  /-- Any number of rows follow each other. -/
  | many (round : Shape)
deriving DecidableEq, Repr

namespace Shape

/-- The rows of children that look like this. -/
def Matches : Shape → List Slot → Prop
  | refused, _ => False
  | nothing, row => row = []
  | child kinds field, row => ∃ kind ∈ kinds, row = [(kind, field)]
  | both first more, row => ∃ a b, first.Matches a ∧ more.Matches b ∧ row = a ++ b
  | either one other, row => one.Matches row ∨ other.Matches row
  | many round, row => ∃ rounds : List (List Slot),
      (∀ a ∈ rounds, round.Matches a) ∧ row = rounds.flatten

/-! ## How many children pass a test -/

section Tests

variable (test : Slot → Bool)

/-- Whether no child passes the test, whatever the row is. -/
def never : Shape → Bool
  | refused | nothing => true
  | child kinds field => kinds.all fun kind => !test (kind, field)
  | both first more => first.never && more.never
  | either one other => one.never && other.never
  | many round => round.never

/-- Whether some child passes the test, whatever the row is. -/
def always : Shape → Bool
  | refused => true
  | nothing | many _ => false
  | child kinds field => kinds.all fun kind => test (kind, field)
  | both first more => first.always || more.always
  | either one other => one.always && other.always

/-- Whether no two children pass the test, whatever the row is. -/
def once : Shape → Bool
  | refused | nothing | child _ _ => true
  | both first more =>
    first.once && more.once && (first.never test || more.never test)
  | either one other => one.once && other.once
  | many round => round.never test

end Tests

variable {test : Slot → Bool} {shape : Shape} {row : List Slot}

/-- No child passes a test that none does. -/
theorem countP_of_never (h : shape.never test = true) (hrow : shape.Matches row) :
    row.countP test = 0 := by
  induction shape generalizing row with
  | refused => exact hrow.elim
  | nothing =>
    obtain rfl : row = [] := hrow
    rfl
  | child kinds field =>
    obtain ⟨kind, hkind, rfl⟩ := hrow
    have hfails := List.all_eq_true.1 h kind hkind
    simpa using hfails
  | both first more ihfirst ihmore =>
    obtain ⟨a, b, ha, hb, rfl⟩ := hrow
    obtain ⟨hfirst, hmore⟩ := Bool.and_eq_true_iff.1 h
    rw [List.countP_append, ihfirst hfirst ha, ihmore hmore hb]
  | either one other ihone ihother =>
    obtain ⟨hone, hother⟩ := Bool.and_eq_true_iff.1 h
    exact hrow.elim (ihone hone) (ihother hother)
  | many round ih =>
    obtain ⟨rounds, hrounds, rfl⟩ := hrow
    rw [List.countP_eq_zero]
    intro slot hslot
    obtain ⟨a, ha, hslot⟩ := List.mem_flatten.1 hslot
    exact List.countP_eq_zero.1 (ih h (hrounds a ha)) slot hslot

/-- One child at most passes a test that no two do. -/
theorem countP_of_once (h : shape.once test = true) (hrow : shape.Matches row) :
    row.countP test ≤ 1 := by
  induction shape generalizing row with
  | refused => exact hrow.elim
  | nothing =>
    obtain rfl : row = [] := hrow
    exact Nat.zero_le 1
  | child kinds field =>
    obtain ⟨kind, -, rfl⟩ := hrow
    exact List.countP_le_length
  | both first more ihfirst ihmore =>
    obtain ⟨a, b, ha, hb, rfl⟩ := hrow
    simp only [once, Bool.and_eq_true, Bool.or_eq_true] at h
    obtain ⟨⟨hfirst, hmore⟩, hnever⟩ := h
    rw [List.countP_append]
    rcases hnever with hnever | hnever
    · rw [countP_of_never hnever ha, Nat.zero_add]
      exact ihmore hmore hb
    · rw [countP_of_never hnever hb, Nat.add_zero]
      exact ihfirst hfirst ha
  | either one other ihone ihother =>
    obtain ⟨hone, hother⟩ := Bool.and_eq_true_iff.1 h
    exact hrow.elim (ihone hone) (ihother hother)
  | many round _ =>
    have hnever := @countP_of_never test (many round) row h hrow
    omega

/-! ## Writing shapes -/

/-- One row and then another; what is nothing is left out. -/
def andThen : Shape → Shape → Shape
  | nothing, more => more
  | first, nothing => first
  | first, more => both first more

/-- One of two rows. Children under the same field are one child of more kinds, and what is refused
is left out. -/
def orElse : Shape → Shape → Shape
  | refused, other => other
  | one, refused => one
  | child kinds field, child others field' =>
    if field = field' then child (kinds ++ others.filter (· ∉ kinds)) field
    else either (child kinds field) (child others field')
  | one, other => either one other

/-- Rows that follow each other. -/
def seq (shapes : List Shape) : Shape := shapes.foldr andThen nothing

/-- A row that may be missing. -/
def optional (shape : Shape) : Shape := either shape nothing

/-- What is one row and then another matches both, written in short. -/
theorem matches_andThen {first more : Shape} {slots : List Slot}
    (h : (both first more).Matches slots) : (first.andThen more).Matches slots := by
  obtain ⟨a, b, ha, hb, rfl⟩ := h
  unfold andThen
  split
  · obtain rfl : a = [] := ha
    exact hb
  · obtain rfl : b = [] := hb
    rwa [List.append_nil]
  · exact ⟨a, b, ha, hb, rfl⟩

/-- What is one of two rows matches either, written in short. -/
theorem matches_orElse {one other : Shape} {slots : List Slot}
    (h : (either one other).Matches slots) : (one.orElse other).Matches slots := by
  unfold orElse
  split
  · exact h.elim False.elim id
  · exact h.elim id False.elim
  · rename_i kinds field others field'
    split
    · rename_i hfield
      subst hfield
      rcases h with ⟨kind, hkind, rfl⟩ | ⟨kind, hkind, rfl⟩
      · exact ⟨kind, List.mem_append_left _ hkind, rfl⟩
      · refine ⟨kind, ?_, rfl⟩
        by_cases hmem : kind ∈ kinds
        · exact List.mem_append_left _ hmem
        · exact List.mem_append_right _ (List.mem_filter.2 ⟨hkind, by simpa using hmem⟩)
    · exact h
  · exact h

end Shape

/-! ## The table -/

/-- The kinds of expressions. -/
def Kind.expressions : List Kind := all.filter isExpression

/-- The kinds of what stands between the delimiters of a statement. -/
def Kind.statementBodies : List Kind := all.filter isStatementBody

/-- The kinds of items. -/
def Kind.itemKinds : List Kind := all.filter isItem

/-- Every kind is in the list of all. -/
theorem Kind.mem_all (kind : Kind) : kind ∈ all := by
  cases kind <;> decide

namespace Shape

/-- A keyword. -/
def keyword : Shape := child [.keyword] none

/-- A punctuation mark. -/
def mark : Shape := child [.punctuation] none

/-- An expression under a field, or under none. -/
def expression (field : Option Field) : Shape := child Kind.expressions field

/-- A name under a field. -/
def name (field : Field) : Shape := child [.identifier] (some field)

/-- A string under a field. -/
def string (field : Field) : Shape := child [.string] (some field)

/-- An operator. -/
def operator : Shape := child [.operator] (some .operator)

/-- Members between brackets, with marks between them and perhaps after the last, or a mark
alone. -/
def bracketed (member : Shape) : Shape :=
  seq [mark,
    orElse mark
      (orElse nothing (seq [member, many (seq [mark, orElse nothing member])])),
    mark]

/-- What stands between delimiters, which are held under their own fields. -/
def delimited (content : List Shape) : Shape :=
  seq (child [.delimiter] (some .openDelimiter) :: content ++
    [child [.delimiter] (some .closeDelimiter)])

/-- The tag that opens an element. -/
def tag : Shape :=
  seq [mark, child [.tagName] (some .name), many (child [.tagAttribute] none), mark]

/-- The tag that closes an element. -/
def closingTag : Shape := seq [mark, child [.tagName] (some .closeName), mark]

/-- Items in a row. -/
def items : Shape := many (child Kind.itemKinds none)

/-- What the children of a node of a kind look like. Tokens have none. -/
def ofKind : Kind → Shape
  | .sourceFile => items
  | .value => delimited [expression (some .expression)]
  | .statement =>
    delimited [optional (child [.trimMarker] (some .leadingTrim)),
      child Kind.statementBodies none, optional (child [.trimMarker] (some .trailingTrim))]
  | .comment => delimited [optional (child [.commentContent] (some .content))]
  | .element => either tag (both (both tag items) closingTag)
  | .tagAttribute =>
    seq [child [.attributeName] (some .name),
      optional (seq [mark, child [.string, .value] (some .value)])]
  | .forStatement =>
    seq [keyword, expression (some .target), keyword, expression (some .iterable),
      optional (seq [keyword, expression (some .condition)])]
  | .ifStatement =>
    seq [keyword, expression (some .condition), many (child [.elifClause] (some .elifClause)),
      optional (child [.elseClause] (some .elseClause))]
  | .elifClause => seq [keyword, expression (some .condition)]
  | .elseClause => keyword
  | .includeStatement =>
    seq [keyword, string .template, optional (seq [keyword, child [.dict] (some .context)]),
      optional (seq [keyword, keyword])]
  | .extendsStatement => seq [keyword, string .parentTemplate]
  | .blockStatement => seq [keyword, name .blockName]
  | .setStatement => seq [keyword, name .variableName, mark, expression (some .value)]
  | .macroStatement => seq [keyword, name .macroName, child [.argumentList] (some .params)]
  | .callStatement =>
    seq [keyword, orElse nothing (orElse nothing (orElse (child [.argumentList] (some .params))
      (either (expression (some .macroExpr))
        (seq [expression (some .macroExpr), child [.argumentList] (some .params)]))))]
  | .filterStatement => seq [keyword, name .filterName]
  | .rawStatement => keyword
  | .importStatement => seq [keyword, string .module, keyword, name .aliasName]
  | .fromStatement =>
    seq [keyword, string .module, keyword, child [.importedName] none,
      many (seq [mark, child [.importedName] none])]
  | .importedName => seq [name .name, optional (seq [keyword, name .aliasName])]
  | .endStatement => keyword
  | .comparison | .binaryOperation =>
    seq [expression (some .left), operator, expression (some .right)]
  | .unaryOperation => seq [operator, expression (some .operand)]
  | .call => seq [expression (some .function), child [.argumentList] (some .arguments)]
  | .propertyAccess => seq [expression (some .object), mark, name .property]
  | .subscript => seq [expression (some .object), mark, expression (some .index), mark]
  | .list => bracketed (expression none)
  | .dict => bracketed (child [.pair] none)
  | .pair => seq [expression (some .key), mark, expression (some .value)]
  | .argumentList => bracketed (orElse (child [.keywordArgument] none) (expression none))
  | .keywordArgument => seq [name .key, mark, expression (some .value)]
  | _ => nothing

end Shape

/-! ## The grammar keeps to the table -/

namespace Part

mutual

/-- What the trees of a part look like. -/
def shape : Part → Shape
  | token t => .child [t.kind] t.field
  | .operand field _ => .expression field
  | callee =>
    .either (.expression (some .macroExpr))
      (.seq [.expression (some .macroExpr), .child [.argumentList] (some .params)])
  | node field kind _ | enclosed field kind _ _ => .child [kind] field
  | choice _ yes no => (shapeOf yes).orElse (shapeOf no)
  | repeated _ parts => .many (shapeOf parts)
  | refuse _ => .refused

/-- What the trees of a production look like. -/
def shapeOf : List Part → Shape
  | [] => .nothing
  | p :: ps => p.shape.andThen (shapeOf ps)

end

/-- A tree that is held under a field matches a child of its kind. -/
theorem matches_has {t : Tree} {kind : Kind} {field : Option Field} (h : t.Has kind field) :
    (Shape.child [kind] field).Matches [t.slot] :=
  ⟨kind, List.mem_singleton_self kind, by rw [Tree.slot, h.kind, h.field]⟩

/-- An expression that is held under a field matches an expression. -/
theorem matches_hasExpression {t : Tree} {field : Option Field} (h : t.HasExpression field) :
    (Shape.expression field).Matches [t.slot] := by
  refine ⟨t.kind, List.mem_filter.2 ⟨t.kind.mem_all, h.isExpression⟩, ?_⟩
  rw [Tree.slot, h.field]

mutual

/-- Rows of trees that fit a part look like its shape. -/
theorem matches_of_fits : ∀ (p : Part) {ts : List Tree}, p.Fits ts →
    p.shape.Matches (ts.map Tree.slot)
  | token _, ts, ⟨leaf, hleaf, h⟩ => by
    subst h
    exact matches_has hleaf
  | .operand _ _, ts, ⟨t, ht, h⟩ => by
    subst h
    exact matches_hasExpression ht
  | callee, ts, h => by
    rcases h with ⟨t, ht, rfl⟩ | ⟨t, params, ht, hparams, rfl⟩
    · exact .inl (matches_hasExpression ht)
    · exact .inr ⟨_, _, matches_hasExpression ht, matches_has hparams, rfl⟩
  | node _ _ _, ts, ⟨t, ht, h⟩ => by
    subst h
    exact matches_has ht
  | enclosed _ _ _ _, ts, ⟨t, ht, h⟩ => by
    subst h
    exact matches_has ht
  | choice _ yes no, ts, h =>
    Shape.matches_orElse (h.imp (matches_of_fitsAll yes) (matches_of_fitsAll no))
  | repeated _ parts, ts, ⟨rounds, hrounds, h⟩ => by
    subst h
    refine ⟨rounds.map (List.map Tree.slot), fun round hround => ?_, List.map_flatten⟩
    obtain ⟨ts, hts, rfl⟩ := List.mem_map.1 hround
    exact matches_of_fitsAll parts (hrounds ts hts)
  | refuse _, ts, h => h.elim

/-- Rows of trees that fit a production look like its shape. -/
theorem matches_of_fitsAll : ∀ (ps : List Part) {ts : List Tree}, FitsAll ps ts →
    (shapeOf ps).Matches (ts.map Tree.slot)
  | [], ts, h => by
    obtain rfl : ts = [] := h
    exact rfl
  | p :: ps, ts, ⟨first, more, hfirst, hmore, h⟩ => by
    subst h
    exact Shape.matches_andThen
      ⟨_, _, matches_of_fits p hfirst, matches_of_fitsAll ps hmore, List.map_append⟩

end

end Part

/-- The productions of the grammar have the shapes of the table. -/
theorem Grammar.shapeOf_eq : ∀ p ∈ productions, Part.shapeOf p.2 = Shape.ofKind p.1 := by
  decide

/-- The tags of elements have the shapes of the table. -/
theorem Markup.shapeOf_tag :
    Part.shapeOf (.token opener :: (header ++ headerEnd)) = Shape.tag ∧
      Part.shapeOf footer = Shape.closingTag := by
  decide

/-- Items match a row of items. -/
theorem Shape.matches_items {items : List Tree} (h : ∀ t ∈ items, t.HasItem) :
    Shape.items.Matches (items.map Tree.slot) := by
  refine ⟨items.map fun t => [t.slot], fun round hround => ?_, ?_⟩
  · obtain ⟨t, ht, rfl⟩ := List.mem_map.1 hround
    refine ⟨t.kind, List.mem_filter.2 ⟨t.kind.mem_all, (h t ht).isItem⟩, ?_⟩
    rw [Tree.slot, (h t ht).field]
  · rw [← List.flatMap_def, ← List.map_eq_flatMap]

/-- The rows of the schema look like the shapes of the table. -/
theorem Schema.matches_shape {kind : Kind} {ts : List Tree} (h : Schema kind ts) :
    (Shape.ofKind kind).Matches (ts.map Tree.slot) := by
  cases h with
  | @production _ parts _ hparts hts =>
    obtain ⟨⟨kind', parts'⟩, hmem, heq⟩ := List.mem_filterMap.1 hparts
    dsimp only at heq
    split at heq
    · rename_i hkind
      subst hkind
      obtain rfl := Option.some.inj heq
      have hshape : Part.shapeOf parts' = Shape.ofKind kind' := Grammar.shapeOf_eq _ hmem
      rw [← hshape]
      exact Part.matches_of_fitsAll parts' hts
    · cases heq
  | sourceFile hitems => exact Shape.matches_items hitems
  | selfClosing htag =>
    rw [Shape.ofKind, ← Markup.shapeOf_tag.1]
    exact .inl (Part.matches_of_fitsAll _ htag)
  | element htag hitems hclosing =>
    rw [Shape.ofKind, ← Markup.shapeOf_tag.1, ← Markup.shapeOf_tag.2, List.map_append,
      List.map_append]
    exact .inr ⟨_, _, ⟨_, _, Part.matches_of_fitsAll _ htag, Shape.matches_items hitems, rfl⟩,
      Part.matches_of_fitsAll _ hclosing, rfl⟩

/-- The children of a tree that is formed look like the shape of its kind. -/
theorem Tree.Formed.matches_shape {t : Tree} (h : t.Formed) :
    (Shape.ofKind t.kind).Matches (t.children.map Tree.slot) := by
  cases t with
  | leaf field kind gap text =>
    have htoken : kind.isToken = true → Shape.ofKind kind = .nothing := by
      cases kind <;> first | exact fun _ => rfl | nofun
    show (Shape.ofKind kind).Matches []
    rw [htoken h]
    rfl
  | node field kind ts => exact Schema.matches_shape h

end Stencil
