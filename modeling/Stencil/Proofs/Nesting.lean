import Mathlib
import Stencil.Proofs.Contents
import Stencil.Tree.Place

/-!
# How deeply templates nest

The limit on depth bounds the tree. What is read with a budget of `depth` nests at most that deep: a
budget of one more is used up for every operand (`expression_nesting`) and for every element
(`Markup.item_nestings`), and by nothing else, so that operators to the left, functions and objects
are chained as long as there is input. Whether a production may put an operand or an element in a
place that uses up no budget is seen from its parts (`Part.isFlat`). On every way down from the root
of a template there are no more elements and operands than the limit says
(`Template.parse_nesting`).
-/

namespace Stencil

/-! ## Levels -/

namespace Tree

/-- What a tree adds to the depth of the node of a kind that holds it: elements and operands stand
one level deeper. -/
def level (parent : Kind) (t : Tree) : Nat :=
  if t.isOperandIn parent || t.kind = .element then 1 else 0

/-- The first of some trees and the others are nested as the deeper of them is. -/
theorem nestings_cons (parent : Kind) (t : Tree) (ts : List Tree) :
    nestings parent (t :: ts) = max (t.nesting + t.level parent) (nestings parent ts) := rfl

/-- No tree adds more than a level. -/
theorem level_le_one (parent : Kind) (t : Tree) : t.level parent ≤ 1 := by
  unfold level
  split <;> omega

/-- Trees in two rows are nested as the deeper row is. -/
theorem nestings_append (parent : Kind) (as bs : List Tree) :
    nestings parent (as ++ bs) = max (nestings parent as) (nestings parent bs) := by
  induction as with
  | nil => simp [nestings]
  | cons t ts ih => rw [List.cons_append, nestings_cons, nestings_cons, ih, Nat.max_assoc]

/-- Trees are nested at most as deep as each of them is. -/
theorem nestings_le {parent : Kind} {ts : List Tree} {depth : Nat}
    (h : ∀ t ∈ ts, t.nesting + t.level parent ≤ depth) : nestings parent ts ≤ depth := by
  induction ts with
  | nil => exact Nat.zero_le depth
  | cons t ts ih =>
    obtain ⟨ht, hts⟩ := List.forall_mem_cons.1 h
    exact Nat.max_le_of_le_of_le ht (ih hts)

end Tree

/-! ## Productions -/

namespace Part

/-- Whether a tree of a kind that is held under a field adds no level. -/
def addsNone (parent : Kind) (field : Option Field) (kind : Kind) : Bool :=
  !(kind.isExpression && Tree.holdsOperand parent field) && kind ≠ .element

mutual

/-- Whether a part of a node of a kind puts nothing but operands where they add a level. -/
def isFlat (parent : Kind) : Part → Bool
  | token t => addsNone parent t.field t.kind
  | .operand _ _ | callee | refuse _ => true
  | node field kind parts => addsNone parent field kind && areFlat kind parts
  | enclosed field kind opening parts =>
    addsNone parent field kind && addsNone kind opening.field opening.kind && areFlat kind parts
  | choice _ yes no => areFlat parent yes && areFlat parent no
  | repeated _ parts => areFlat parent parts

/-- Whether the parts of a node of a kind put nothing but operands where they add a level. -/
def areFlat (parent : Kind) : List Part → Bool
  | [] => true
  | p :: ps => p.isFlat parent && areFlat parent ps

end

/-- A tree that is held where it adds no level adds none. -/
theorem level_eq_zero {parent : Kind} {t : Tree} (h : addsNone parent t.field t.kind = true) :
    t.level parent = 0 := by
  simp only [addsNone, Bool.and_eq_true, Bool.not_eq_true', decide_eq_true_eq] at h
  rw [Tree.level, Tree.isOperandIn, h.1]
  simp [h.2]

variable {E : Extent → Tree → Prop} {depth : Nat}

/-- A leaf that adds no level is not nested. -/
theorem nestings_leaf {t : Terminal} {parent : Kind} {leaf : Tree}
    (ht : addsNone parent t.field t.kind = true) (h : t.Leaf leaf) :
    Tree.nestings parent [leaf] = 0 := by
  obtain ⟨gap, text, rfl⟩ := h.eq
  have hlevel : (Tree.leaf t.field t.kind gap text).level parent = 0 := level_eq_zero ht
  rw [Tree.nestings_cons, hlevel]
  rfl

/-- The trees of a call statement's callee are nested one deeper than the expression at most. -/
theorem nestings_splitCall {parent : Kind} {t : Tree} (h : t.nesting < depth) :
    Tree.nestings parent (splitCall t) ≤ depth := by
  unfold splitCall
  split
  · -- The function was nested as the call is, and the parameters add no level of their own.
    rename_i f function arguments
    have hfunction : function.nesting ≤ (Tree.node f .call [function, arguments]).nesting :=
      Nat.le_trans (Nat.le_add_right _ _)
        (Tree.nesting_le_of_mem .call (by simp : function ∈ [function, arguments]))
    have harguments : arguments.nesting + arguments.level .call ≤
        (Tree.node f .call [function, arguments]).nesting :=
      Tree.nesting_le_of_mem .call (by simp : arguments ∈ [function, arguments])
    have hparams : (arguments.under (some .params)).level parent ≤ arguments.level .call := by
      simp only [Tree.level, Tree.isOperandIn, Tree.field_under, Tree.kind_under,
        Tree.holdsOperand, Bool.and_false, Bool.false_or]
      by_cases helement : arguments.kind = .element <;> simp [helement]
    have hlevel := Tree.level_le_one parent (function.under (some .macroExpr))
    refine Tree.nestings_le fun u hu => ?_
    rcases List.mem_cons.1 hu with rfl | hu
    · rw [Tree.nesting_under]
      omega
    · obtain rfl := List.mem_singleton.1 hu
      rw [Tree.nesting_under]
      omega
  · have hlevel := Tree.level_le_one parent (t.under (some .macroExpr))
    refine Tree.nestings_le fun u hu => ?_
    obtain rfl := List.mem_singleton.1 hu
    rw [Tree.nesting_under]
    omega

mutual

/-- What a flat part yields is nested at most as deep as the budget says, if operands are nested
less deeply. -/
theorem nestings_of_yields (hE : ∀ {extent t}, E extent t → t.nesting < depth) :
    ∀ (p : Part) {parent : Kind} {ts : List Tree}, p.isFlat parent = true → p.Yields E ts →
      Tree.nestings parent ts ≤ depth
  | token t, parent, ts, hp, ⟨leaf, hleaf, h⟩ => by
    subst h
    rw [nestings_leaf hp hleaf]
    exact Nat.zero_le depth
  | .operand field _, parent, ts, _, ⟨t, ht, h⟩ => by
    subst h
    have hlevel := Tree.level_le_one parent (t.under field)
    have hlt := hE ht
    rw [Tree.nestings_cons, Tree.nesting_under]
    exact Nat.max_le_of_le_of_le (by omega) (Nat.zero_le depth)
  | callee, parent, ts, _, ⟨t, ht, h⟩ => by
    subst h
    exact nestings_splitCall (hE ht)
  | node field kind parts, parent, ts, hp, ⟨inner, hinner, h⟩ => by
    subst h
    simp only [isFlat, Bool.and_eq_true] at hp
    have hlevel : (Tree.node field kind inner).level parent = 0 := level_eq_zero hp.1
    rw [Tree.nestings_cons, hlevel]
    exact Nat.max_le_of_le_of_le (nestings_of_yieldsAll hE parts hp.2 hinner) (Nat.zero_le depth)
  | enclosed field kind opening parts, parent, ts, hp, ⟨first, inner, hfirst, hinner, h⟩ => by
    subst h
    simp only [isFlat, Bool.and_eq_true] at hp
    obtain ⟨⟨hkind, hopening⟩, hparts⟩ := hp
    have hlevel : (Tree.node field kind (first :: inner)).level parent = 0 := level_eq_zero hkind
    have hmore := nestings_of_yieldsAll hE parts hparts hinner
    have hrow : Tree.nestings kind ([first] ++ inner) ≤ depth := by
      rw [Tree.nestings_append, nestings_leaf hopening hfirst]
      exact Nat.max_le_of_le_of_le (Nat.zero_le depth) hmore
    rw [Tree.nestings_cons, hlevel]
    exact Nat.max_le_of_le_of_le hrow (Nat.zero_le depth)
  | choice _ yes no, parent, ts, hp, h => by
    simp only [isFlat, Bool.and_eq_true] at hp
    rcases h with h | h
    · exact nestings_of_yieldsAll hE yes hp.1 h
    · exact nestings_of_yieldsAll hE no hp.2 h
  | repeated _ parts, parent, ts, hp, ⟨rounds, hrounds, h⟩ => by
    subst h
    refine Tree.nestings_le fun t ht => ?_
    obtain ⟨round, hround, ht⟩ := List.mem_flatten.1 ht
    exact Nat.le_trans (Tree.nesting_le_of_mem parent ht)
      (nestings_of_yieldsAll hE parts hp (hrounds round hround))

/-- What a flat production yields is nested at most as deep as the budget says, if operands are
nested less deeply. -/
theorem nestings_of_yieldsAll (hE : ∀ {extent t}, E extent t → t.nesting < depth) :
    ∀ (ps : List Part) {parent : Kind} {ts : List Tree}, areFlat parent ps = true →
      YieldsAll E ps ts → Tree.nestings parent ts ≤ depth
  | [], parent, ts, _, h => by
    obtain rfl : ts = [] := h
    exact Nat.zero_le depth
  | p :: ps, parent, ts, hp, ⟨first, more, hfirst, hmore, h⟩ => by
    subst h
    simp only [areFlat, Bool.and_eq_true] at hp
    rw [Tree.nestings_append]
    exact Nat.max_le_of_le_of_le (nestings_of_yields hE p hp.1 hfirst)
      (nestings_of_yieldsAll hE ps hp.2 hmore)

end

end Part

/-! ## Expressions -/

section Expressions

variable {operand : Extent → Parser Tree} {depth : Nat} {s rest : Input}

/-- The parts of a primary are flat. -/
theorem Primary.areFlat_of_of? {t : Token} {kind : Kind} {parts : List Part}
    (h : of? t = some (.node kind parts)) : Part.areFlat kind parts = true := by
  rcases of?_eq_node h with h | h | ⟨h, -⟩
  · cases h
    decide
  · cases h
    decide
  · cases h
    rfl

/-- The parts of a tail are flat, and the expression that it extends adds no level. -/
theorem Tail.areFlat_of_of? {t : Token} {tail : Tail Part} (h : of? t = some tail) :
    Part.areFlat tail.kind tail.more = true ∧
      Tree.holdsOperand tail.kind (some tail.slot) = false := by
  rcases of?_eq_some h with ⟨rfl, -⟩ | ⟨rfl, -⟩ | ⟨rfl, -⟩ | ⟨rfl, -⟩ | ⟨rfl, -⟩
  · decide
  · decide
  · decide
  · exact ⟨rfl, rfl⟩
  · exact ⟨rfl, rfl⟩

/-- A primary is an expression, nested at most one deeper than operands. -/
theorem Primary.read_nesting
    (ho : ∀ {extent s t rest}, operand extent s = .ok (t, rest) → t.nesting < depth) {t : Tree}
    (h : read operand s = .ok (t, rest)) : t.kind.isExpression = true ∧ t.nesting ≤ depth := by
  rcases read_yields (E := fun _ t => t.nesting < depth) ho h with
    ⟨next, kind, -, hform, rfl⟩ | ⟨next, kind, parts, hform, ts, hyields, heq⟩
  · exact ⟨(kind_of_of? hform).1, Nat.zero_le depth⟩
  · obtain rfl := List.singleton_inj.1 heq
    exact ⟨(covered_of_of? hform).1,
      Part.nestings_of_yieldsAll (fun h => h) parts (areFlat_of_of? hform) hyields⟩

/-- An expression that a tail extends is one, nested at most one deeper than operands if it was. -/
theorem Tail.attach_nesting
    (ho : ∀ {extent s t rest}, operand extent s = .ok (t, rest) → t.nesting < depth)
    {extent : Extent} {tail : Tail Tree} {t : Tree}
    (h : read operand extent s = .ok (some tail, rest))
    (ht : t.kind.isExpression = true ∧ t.nesting ≤ depth) :
    (attach t tail).kind.isExpression = true ∧ (attach t tail).nesting ≤ depth := by
  obtain ⟨next, form, -, -, hof, hkind, hslot, hyields⟩ :=
    read_yields (E := fun _ t => t.nesting < depth) ho h
  obtain ⟨hflat, hheld⟩ := areFlat_of_of? hof
  have hexpression := (covered_of_of? hof).1
  rw [← hkind] at hflat hheld hexpression
  rw [← hslot] at hheld
  refine ⟨hexpression, ?_⟩
  have hlevel : (t.under (some tail.slot)).level tail.kind = 0 := by
    refine Part.level_eq_zero ?_
    have helement : t.kind ≠ .element := by
      intro heq
      rw [heq] at ht
      cases ht.1
    simp [Part.addsNone, hheld, helement]
  show Tree.nestings tail.kind (t.under (some tail.slot) :: tail.more) ≤ depth
  rw [Tree.nestings_cons, hlevel, Tree.nesting_under]
  exact Nat.max_le_of_le_of_le ht.2
    (Part.nestings_of_yieldsAll (fun h => h) form.more hflat hyields)

end Expressions

/-- An expression is nested less deeply than its budget says. -/
theorem expression_nesting (depth : Nat) {extent : Extent} {s rest : Input} {t : Tree}
    (h : expression depth extent s = .ok (t, rest)) : t.nesting < depth := by
  induction depth generalizing extent s t rest with
  | zero => cases h
  | succ depth ih =>
    obtain ⟨head, s', tails, hhead, htails, rfl⟩ := exists_of_expression h
    -- The tails extend the primary from the first to the last, and none of them goes deeper.
    have hall : (tails.foldl Tail.attach head).kind.isExpression = true ∧
        (tails.foldl Tail.attach head).nesting ≤ depth := by
      refine List.foldlRecOn
        (motive := fun t : Tree => t.kind.isExpression = true ∧ t.nesting ≤ depth)
        tails Tail.attach (Primary.read_nesting ih hhead) fun t ht tail hmem => ?_
      obtain ⟨_, _, hround⟩ := Parser.many_mem htails tail hmem
      exact Tail.attach_nesting ih hround ht
    exact Nat.lt_succ_of_le hall.2

/-! ## Items -/

namespace Markup

variable {operand : Extent → Parser Tree} {depth : Nat}

/-- Reading that answers trees which are nested at most `depth` deep, whichever node holds them. -/
def ReadsWithin (depth : Nat) (x : Reading (List Tree)) : Prop :=
  ∀ ⦃s ts rest⦄, x.parser s = .ok (ts, rest) → ∀ parent, Tree.nestings parent ts ≤ depth

/-- A part is read within the budget, if operands are. -/
theorem read_nestings
    (ho : ∀ {extent s t rest}, operand extent s = .ok (t, rest) → t.nesting < depth) {p : Part}
    {parent : Kind} (hp : p.isFlat parent = true) {s rest : Input} {ts : List Tree}
    (h : p.read operand s = .ok (ts, rest)) : Tree.nestings parent ts ≤ depth :=
  Part.nestings_of_yields (E := fun _ t => t.nesting < depth) (fun h => h) p hp
    (Part.read_yields ho p h)

/-- A production is read within the budget, if operands are. -/
theorem readAll_nestings
    (ho : ∀ {extent s t rest}, operand extent s = .ok (t, rest) → t.nesting < depth)
    {ps : List Part} {parent : Kind} (hps : Part.areFlat parent ps = true) {s rest : Input}
    {ts : List Tree} (h : Part.readAll operand ps s = .ok (ts, rest)) :
    Tree.nestings parent ts ≤ depth :=
  Part.nestings_of_yieldsAll (E := fun _ t => t.nesting < depth) (fun h => h) ps hps
    (Part.readAll_yields ho ps h)

/-- A leaf of a kind that is no expression is not nested, whichever node holds it. -/
theorem nestings_leaf {field : Option Field} {kind : Kind} (gap text : List Char)
    (hkind : kind.isExpression = false ∧ kind ≠ .element) (parent : Kind) :
    Tree.nestings parent [.leaf field kind gap text] = 0 := by
  have hlevel : (Tree.leaf field kind gap text).level parent = 0 := by
    refine Part.level_eq_zero ?_
    simp [Part.addsNone, Tree.kind, hkind.1, hkind.2]
  rw [Tree.nestings_cons, hlevel]
  rfl

/-- Comments are not nested. -/
theorem comment_nestings {s rest : Input} {t : Tree} (h : comment.parser s = .ok (t, rest))
    (parent : Kind) : Tree.nestings parent [t] = 0 := by
  have hcomment : ∀ ts, Tree.nestings .comment ts = 0 →
      Tree.nestings parent [.node none .comment ts] = 0 := by
    intro ts hts
    have hlevel : (Tree.node none .comment ts).level parent = 0 := by
      refine Part.level_eq_zero ?_
      simp [Part.addsNone, Tree.kind, Kind.isExpression]
    rw [Tree.nestings_cons, hlevel]
    simpa [Tree.nesting, Tree.nestings] using hts
  cases commentTree_of_comment h with
  | empty | filled => exact hcomment _ rfl

/-- The body of a raw block is not nested. -/
theorem rawBody_readsWithin (opener : Input) : ReadsWithin depth (rawBody opener) := by
  intro s ts rest h parent
  obtain ⟨-, -, rfl⟩ := rawBody_eq_ok.1 h
  split
  · exact Nat.zero_le depth
  · rw [Token.leaf, nestings_leaf _ _ ⟨rfl, by decide⟩]
    exact Nat.zero_le depth

/-- A statement is nested within the budget, if operands are. -/
theorem statement_readsWithin
    (ho : ∀ {extent s t rest}, operand extent s = .ok (t, rest) → t.nesting < depth) :
    ReadsWithin depth (statement operand) := by
  intro s ts rest h parent
  obtain ⟨read, s', hread, h⟩ := statement_eq_ok.1 h
  have hflat : Part.statement.isFlat parent = true := by
    have hstatement : Part.statement.isFlat .sourceFile = true := by decide
    exact hstatement
  have hstatement := read_nestings ho hflat hread
  obtain ⟨-, rfl, rfl⟩ | ⟨-, body, hbody, rfl⟩ := h
  · exact hstatement
  · rw [Tree.nestings_append]
    exact Nat.max_le_of_le_of_le hstatement (rawBody_readsWithin _ hbody parent)

/-- The body of an element is nested within the budget, if items are. -/
theorem body_readsWithin {x : Reading (List Tree)} (hx : ReadsWithin depth x) :
    ReadsWithin depth (body x) := by
  intro s ts rest h parent
  refine body_induction (motive := fun _ ts _ => Tree.nestings parent ts ≤ depth) ?stop ?next
    ?stuck h
  case stop => exact fun _ _ => Nat.zero_le depth
  case next =>
    intro s r rest ts others _ hfirst _ hothers
    rw [Tree.nestings_append]
    exact Nat.max_le_of_le_of_le (hx hfirst parent) hothers
  case stuck => exact fun _ hfirst _ => hx hfirst parent

/-- An element is nested within the budget, if operands and the items of its body are. -/
theorem element_nesting
    (ho : ∀ {extent s t rest}, operand extent s = .ok (t, rest) → t.nesting < depth)
    {x : Reading (List Tree)} (hx : ReadsWithin depth x) {s rest : Input} {t : Tree}
    (h : (element operand x).parser s = .ok (t, rest)) : t.nesting ≤ depth := by
  obtain ⟨first, s₁, tag, s₂, stop, s₃, hfirst, htag, hstop, h⟩ := element_eq_ok h
  have hbracket : Tree.nestings .element [first] ≤ depth := by
    rw [Part.nestings_leaf rfl (Terminal.read_leaf hfirst)]
    exact Nat.zero_le depth
  have htag : Tree.nestings .element tag ≤ depth := readAll_nestings ho (by decide) htag
  have hstop : Tree.nestings .element stop ≤ depth := readAll_nestings ho (by decide) hstop
  have hopening : Tree.nestings .element ([first] ++ tag ++ stop) ≤ depth := by
    rw [Tree.nestings_append, Tree.nestings_append]
    exact Nat.max_le_of_le_of_le (Nat.max_le_of_le_of_le hbracket htag) hstop
  rcases h with ⟨-, rfl, rfl⟩ | ⟨-, items, s₄, closing, hitems, hclosing, rfl⟩
  · exact hopening
  · have hclosing : Tree.nestings .element closing ≤ depth :=
      readAll_nestings ho (by decide) hclosing
    show Tree.nestings .element ([first] ++ tag ++ stop ++ items ++ closing) ≤ depth
    rw [Tree.nestings_append, Tree.nestings_append _ _ items]
    exact Nat.max_le_of_le_of_le
      (Nat.max_le_of_le_of_le hopening (body_readsWithin hx hitems .element)) hclosing

/-- An item is nested within the budget, if operands and elements are. -/
theorem itemOf_readsWithin
    (ho : ∀ {extent s t rest}, operand extent s = .ok (t, rest) → t.nesting < depth)
    {element : Reading Tree}
    (he : ∀ {s t rest}, element.parser s = .ok (t, rest) → t.nesting < depth) :
    ReadsWithin depth (itemOf operand element) := by
  intro s ts rest h parent
  simp only [Reading.parser, itemOf_eq] at h
  split at h
  case h_1 =>
    cases h
    rw [Token.leaf, nestings_leaf _ _ ⟨rfl, by decide⟩]
    exact Nat.zero_le depth
  case h_2 =>
    have hvalue : (Part.value none .text "`\x7b\x7b`").isFlat .sourceFile = true := by decide
    have hflat : (Part.value none .text "`\x7b\x7b`").isFlat parent = true := hvalue
    exact read_nestings ho hflat h
  case h_3 => exact statement_readsWithin ho h parent
  case h_4 =>
    obtain ⟨t, ht, rfl⟩ := Reading.parser_single_eq_ok.1 h
    rw [comment_nestings ht]
    exact Nat.zero_le depth
  case h_5 =>
    obtain ⟨t, ht, rfl⟩ := Reading.parser_single_eq_ok.1 h
    have hlevel := t.level_le_one parent
    have hlt := he ht
    rw [Tree.nestings_cons]
    exact Nat.max_le_of_le_of_le (by omega) (Nat.zero_le depth)
  case h_6 => cases h

/-- What becomes of an item is nested within the budget, if the item is. -/
theorem settle_nestings {x : Reading (List Tree)} (hx : ReadsWithin depth x) (recover : Bool)
    (s : Input) (parent : Kind) :
    Tree.nestings parent ((x s).settle recover s).trees ≤ depth := by
  unfold Reply.settle
  split
  · rename_i ts rest h
    exact hx h parent
  · show Tree.nestings parent [.leaf none .error [] _] ≤ depth
    rw [nestings_leaf _ _ ⟨rfl, by decide⟩]
    exact Nat.zero_le depth

/-- An item is nested at most as deep as its budget says. -/
theorem item_nestings (recover : Bool) (depth : Nat) : ReadsWithin depth (item recover depth) := by
  induction depth with
  | zero =>
    refine itemOf_readsWithin (expression_nesting 0) fun h => ?_
    simp only [tooDeep, Reading.parser_bind, Reading.parser_quiet, Parser.bind_eq_ok] at h
    obtain ⟨_, _, _, _, _, _, h⟩ := h
    cases h
  | succ depth ih =>
    have hinner : ReadsWithin depth
        (if recover then (item recover depth).recovering else item recover depth) := by
      cases recover with
      | true =>
        intro s ts rest h parent
        cases h
        exact settle_nestings ih true s parent
      | false => exact ih
    exact itemOf_readsWithin (expression_nesting (depth + 1)) fun h =>
      Nat.lt_succ_of_le (element_nesting (expression_nesting depth) hinner h)

end Markup

/-! ## Ways down -/

/-- The node of one of some trees in a row is this tree, placed somewhere. -/
theorem Tree.mem_placeAll {ts : List Tree} {id pos : Nat} {n : Node} (h : n ∈ placeAll id pos ts) :
    ∃ t ∈ ts, ∃ number start, n = t.place number start := by
  induction ts generalizing id pos with
  | nil => cases h
  | cons t ts ih =>
    rw [placeAll_cons] at h
    rcases List.mem_cons.1 h with rfl | h
    · exact ⟨t, List.mem_cons_self, id, pos, rfl⟩
    · obtain ⟨u, hu, hn⟩ := ih h
      exact ⟨u, List.mem_cons_of_mem t hu, hn⟩

namespace Node

/-- The nodes that one comes to on a way down from a node: each is a child of the one before. -/
inductive Way : Node → List Node → Prop
  | nil (n : Node) : Way n []
  | cons {n c : Node} {way : List Node} (hc : c ∈ n.children) (h : Way c way) : Way n (c :: way)

/-- How many elements there are on a way. -/
def elementsOn (way : List Node) : Nat := way.countP fun n => n.kind = .element

/-- How many times a way that begins at a node goes from a node to an operand of it. -/
def operandsOn : Node → List Node → Nat
  | _, [] => 0
  | n, c :: way => (if c.tree.isOperandIn n.kind then 1 else 0) + operandsOn c way

/-- An element is no operand, so that a child adds a level once only. -/
theorem level_eq_add (parent : Kind) (t : Tree) :
    t.level parent =
      (if t.kind = .element then 1 else 0) + if t.isOperandIn parent then 1 else 0 := by
  by_cases helement : t.kind = .element
  · have hoperand : t.isOperandIn parent = false := by simp [Tree.isOperandIn, helement,
      Kind.isExpression]
    simp [Tree.level, helement, hoperand]
  · simp [Tree.level, helement]

/-- On a way down from a node there are no more elements and operands than stand inside each other
in its tree. -/
theorem elements_add_operands_le {n : Node} {way : List Node} (h : n.Way way) :
    ∀ {t : Tree} {id pos : Nat}, n = t.place id pos →
      elementsOn way + n.operandsOn way ≤ t.nesting := by
  induction h with
  | nil => exact fun _ => Nat.zero_le _
  | @cons n c way hc _ ih =>
    rintro t id pos rfl
    rw [Tree.place_children] at hc
    obtain ⟨u, hu, number, start, rfl⟩ := Tree.mem_placeAll hc
    have hbelow := ih rfl
    have hchild : u.nesting + u.level t.kind ≤ t.nesting := by
      cases t with
      | leaf => cases hu
      | node f kind ts => exact Tree.nesting_le_of_mem kind hu
    have hlevel := level_eq_add t.kind u
    simp only [elementsOn, operandsOn, List.countP_cons, kind, Tree.place_tree,
      decide_eq_true_eq] at hbelow ⊢
    omega

end Node

namespace Template

/-- On every way down from the root of a template there are at most as many elements and operands as
may stand inside each other, however long the chains of what extends to the left are. -/
theorem parse_nesting (options : Options) (source : Input) {way : List Node}
    (h : (parse options source).tree.root.Way way) :
    Node.elementsOn way + (parse options source).tree.root.operandsOn way ≤ options.maxDepth := by
  refine Nat.le_trans (Node.elements_add_operands_le h rfl) ?_
  -- Each of the steps stays within the limit, whether its item is read or replaced by an error.
  show Tree.nestings .sourceFile ((steps options source).flatMap Step.trees) ≤ options.maxDepth
  refine Tree.nestings_le fun t ht => ?_
  obtain ⟨done, hdone, ht⟩ := List.mem_flatMap.1 ht
  obtain ⟨s, rfl⟩ := exists_eq_step hdone
  exact Nat.le_trans (Tree.nesting_le_of_mem .sourceFile ht)
    (Markup.settle_nestings (Markup.item_nestings options.recover options.maxDepth)
      options.recover s .sourceFile)

/-- An element that holds a signed chain of properties: on the way to where the chain begins there
are an element and two operands, which is the limit. -/
theorem parse_nesting_chain :
    let options : Options := ⟨false, 3, by decide⟩
    let source : Input :=
      ['<', 'a', '>', '{', '{', '-', 'x', '.', 'y', '.', 'z', '}', '}', '<', '/', 'a', '>']
    let root := (parse options source).tree.root
    ∃ way, root.Way way ∧ Node.elementsOn way = 1 ∧ root.operandsOn way = 2 ∧
      way.length = 6 ∧ Node.elementsOn way + root.operandsOn way ≤ options.maxDepth := by
  intro options source root
  let chain : Tree := .node (some .operand) .propertyAccess
    [.node (some .object) .propertyAccess
      [.leaf (some .object) .identifier [] ['x'], .leaf none .punctuation [] ['.'],
        .leaf (some .property) .identifier [] ['y']],
      .leaf none .punctuation [] ['.'], .leaf (some .property) .identifier [] ['z']]
  let value : Tree := .node none .value
    [.leaf (some .openDelimiter) .delimiter [] ['{', '{'],
      .node (some .expression) .unaryOperation
        [.leaf (some .operator) .operator [] ['-'], chain],
      .leaf (some .closeDelimiter) .delimiter [] ['}', '}']]
  have htree : (parse options source).tree = .node none .sourceFile
      [.node none .element
        [.leaf none .punctuation [] ['<'], .leaf (some .name) .tagName [] ['a'],
          .leaf none .punctuation [] ['>'], value, .leaf none .punctuation [] ['<', '/'],
          .leaf (some .closeName) .tagName [] ['a'], .leaf none .punctuation [] ['>']]] := by
    unfold parse ofSteps
    dsimp only
    cbv
  have hway : ∃ way, root.Way way ∧ Node.elementsOn way = 1 ∧ root.operandsOn way = 2 ∧
      way.length = 6 := by
    rw [show root = (parse options source).tree.root from rfl, htree]
    -- Down to the element, the value, the signed expression and the two properties.
    refine ⟨_, .cons (.head _) (.cons (.tail _ (.tail _ (.tail _ (.head _))))
      (.cons (.tail _ (.head _)) (.cons (.tail _ (.head _)) (.cons (.head _)
        (.cons (.head _) (.nil _)))))), ?_⟩
    decide
  obtain ⟨way, hway, helements, hoperands, hlength⟩ := hway
  exact ⟨way, hway, helements, hoperands, hlength, parse_nesting options source hway⟩

end Template

end Stencil
