import Mathlib
import Stencil.Proofs.Edges
import Stencil.Proofs.Substitution
import Stencil.Proofs.Targets

/-!
# Headers of loops

The header of a loop is split at the first `in` that stands in no brackets. So the target exposes no
membership; and an expression that exposes none may be a target, whatever stands in its brackets:
its tails are no words, so that they are read as those of a target too
(`expression_target_of_whole`), and before the word `in` it ends as it does before the end of a
value. The main statement is `Template.parse_loop`.
-/

namespace Stencil

/-- The template that is the beginning of a loop with an expression as its target, with a space on
each side of it. -/
def loopOf (expr : List Char) : Input :=
  "\x7b% for".toList ++ ' ' :: (expr ++ ' ' :: "in xs %\x7d".toList)

/-! ## Targets -/

section Targets

variable {operand : Extent → Parser Tree} {s rest : Input} {t : Tree}

namespace Tail

/-- A comparison behind an expression is by a symbol, if they expose no membership together. -/
theorem kind_ne_of_comparison {next : Token} {more : List Tree}
    (hnext : Token.scan .operator s = .ok next)
    (hcompares : next.kind ∈ comparisonKinds ∨ next.isWord "in" = true)
    (hread : Part.readAll operand (binary .comparison next).more s = .ok (more, rest))
    (h : (attach t ⟨.comparison, .left, more⟩).Sheltered) :
    next.kind ≠ .word ∧ next.kind ≠ .notIn := by
  obtain ⟨sign, u, _, hsign, -, -, rfl⟩ := Part.readAll_operation hread
  obtain rfl : sign = next := Except.ok.inj (hsign.symm.trans hnext)
  have hop := h.1 rfl
  rw [Tree.operatorOf_operation] at hop
  constructor
  · intro hkind
    have hin := hcompares.resolve_left (by rw [hkind]; decide)
    rw [(Token.isWord_iff.1 hin).2] at hop
    exact hop (by decide)
  · intro hkind
    obtain ⟨gap, hgap, htext⟩ := Token.isNotIn_of_scanOperator hnext hkind
    rw [htext, Node.squeeze_notIn hgap.1 hgap.2] at hop
    exact hop (by decide)

/-- A tail that exposes no membership behind an expression is one of a target too, and the
expression exposes none either. -/
theorem read_target {tail : Tail Tree} (h : read operand .whole s = .ok (some tail, rest))
    (hsheltered : (attach t tail).Sheltered) :
    t.Sheltered ∧ read operand .target s = .ok (some tail, rest) := by
  cases read_eq_ok.1 h with
  | @some next form _ _ hscan hnext hread =>
    obtain ⟨-, hof⟩ := of?_of_next? hnext
    obtain ⟨hother, hslot⟩ : (next.kind ≠ .word ∧ next.kind ≠ .notIn) ∧
        form.slot.isExposed = true := by
      have harithmetic : ∀ k ∈ arithmeticKinds, k ≠ .word ∧ k ≠ .notIn := by decide
      rcases of?_eq_some hof with ⟨rfl, hkind⟩ | ⟨rfl, hkind⟩ | ⟨rfl, hkind⟩ | ⟨rfl, hcompares⟩ |
        ⟨rfl, hkind⟩
      · exact ⟨by simp [hkind], rfl⟩
      · exact ⟨by simp [hkind], rfl⟩
      · exact ⟨by simp [hkind], rfl⟩
      · exact ⟨kind_ne_of_comparison hscan hcompares hread hsheltered, rfl⟩
      · exact ⟨harithmetic _ hkind, rfl⟩
    have hcode := Token.scan_code_of_operator hscan hother.2
    refine ⟨(Tree.sheltered_under t (some form.slot)).1 (hsheltered.2.1 ?_),
      read_some hcode (by simp [admits, hother.1]) hof hread⟩
    rw [Tree.field_under]
    exact hslot

/-- The tails of an expression that exposes no membership are those of a target, if expressions end
behind them. -/
theorem many_target (ho : Part.Operands operand) {tails : List (Tail Tree)} (hrest : Halts rest)
    (h : Parser.many (read operand .whole) s = .ok (tails, rest))
    (hsheltered : (tails.foldl attach t).Sheltered) :
    t.Sheltered ∧ Parser.many (read operand .target) s = .ok (tails, rest) := by
  fun_induction Parser.many (read operand .whole) s generalizing tails rest t with
  | case1 | case3 => cases h
  | case2 s r hround =>
    cases h
    obtain ⟨rfl, -⟩ := noPostfix_of_read_none hround
    obtain ⟨next, hscan, hnone⟩ := hrest.next?_none .target
    exact ⟨hsheltered, Parser.many_of_none (read_none hscan hnone)⟩
  | case4 s tail r hround hlt others stop hmore ih =>
    cases h
    obtain ⟨hfirst, hothers⟩ := ih hrest hmore hsheltered
    obtain ⟨ht, hread⟩ := read_target hround hfirst
    exact ⟨ht, Parser.many_of_some hread hlt hothers⟩
  | case5 s tail r hround hlt => exact absurd (read_rest_lt ho hround) hlt

end Tail

/-- An expression that exposes no membership is a target too, before every place at which
expressions end. -/
theorem expression_target_of_whole {depth : Nat} (hrest : Halts rest)
    (h : expression depth .whole s = .ok (t, rest)) (hsheltered : t.Sheltered) :
    expression depth .target s = .ok (t, rest) := by
  cases depth with
  | zero => cases h
  | succ depth =>
    obtain ⟨head, s', tails, hhead, htails, rfl⟩ := exists_of_expression h
    have hsame := Tail.many_target (Part.operands_expression depth) hrest htails hsheltered
    exact expression_of_tails hhead hsame.2

end Targets

/-! ## Loops -/

variable {depth high : Nat} {t : Tree} {b : List Char}

/-- A loop with an expression as its target. -/
def Tree.loop (b : List Char) (t : Tree) : Tree :=
  node none .forStatement [keyword "for", t.under (some .target), leaf none .keyword b "in".toList,
    name (some .iterable) "xs".toList]

/-- An expression that fills a place and exposes no membership is read as a target before the word
`in`. -/
theorem Tree.Fills.read_target (h : t.Fills depth) (hle : depth ≤ high) (hb : IsGap b)
    (hsheltered : t.Sheltered) (x : Input) :
    expression high .target (t.source ++ (b ++ 'i' :: 'n' :: ' ' :: x)) =
      .ok (t, b ++ 'i' :: 'n' :: ' ' :: x) := by
  have hends := Halts.statementEnd hb []
  have hin : Token.scanCode false ('i' :: 'n' :: ' ' :: x) =
      .ok ⟨.word, [], "in".toList, ' ' :: x⟩ := rfl
  have htarget := expression_target_of_whole hends (h.read hle hends) hsheltered
  exact expression_replace_edge nofun htarget hends.edge (.of_word hb hin rfl rfl)

/-- The loop with an expression as its target is read as an item, if the expression exposes no
membership. -/
theorem Tree.Fills.read_loop (h : t.Fills depth) (hle : depth ≤ high) (hb : IsGap b)
    (hsheltered : t.Sheltered) :
    (Markup.item false high).parser
        ("\x7b% for".toList ++ (t.source ++ (b ++ "in xs %\x7d".toList))) =
      .ok ([.statementOf [' '] (loop b t)], []) := by
  have hgap : IsGap [' '] := ⟨List.cons_ne_nil _ _, by simp [isBlank]⟩
  have hpos := Nat.lt_of_lt_of_le h.depth_pos hle
  have hends := Halts.statementEnd hgap []
  have hword : IsWord "for".toList := .of_all rfl rfl
  have htarget := Part.read_operand (some .target)
    (h.read_target hle hb hsheltered "xs %\x7d".toList)
  have hin : Token.scan .code (b ++ "in xs %\x7d".toList) =
      .ok ⟨.word, b, "in".toList, " xs %\x7d".toList⟩ :=
    Token.afterBlanks_gap (t := ⟨.word, [], "in".toList, " xs %\x7d".toList⟩) hb.2 rfl
  have hbetween := Terminal.read_of_scan (t := .keyword "in") hin rfl
  have hiterable := Part.read_operand (some .iterable) (expression_name
    (w := "xs".toList) (.of_all rfl rfl) (by decide) hpos (hends.stops .whole))
  have hif := Part.atWord_statementEnd hgap "if"
  obtain ⟨more, hmore⟩ := h.space
  rw [hmore] at htarget ⊢
  refine Markup.read_statement hgap (List.mem_of_getElem? (i := 0) rfl) hword nofun ?_
  exact Part.readAll_cons (Part.read_word hword _) (Part.readAll_cons htarget
    (Part.readAll_cons (Part.read_token hbetween) (Part.readAll_cons hiterable
      (Part.readAll_singleton (Part.read_choice_no hif Part.readAll_nil)))))

section Views

attribute [local simp] Tree.place_children Tree.placeAll_cons Node.view? Node.expr? Node.child?
  Tree.keyword Tree.name

/-- A loop is seen as its target and its iterable. -/
theorem Tree.view?_loop (ht : t.kind.isExpression = true) :
    ∃ iterable, ((loop b t).place 1 2).view? = some (.forStatement
        (some ((t.under (some .target)).place 2 6)) (some iterable) none) ∧
      iterable.kind = .identifier ∧ iterable.text = "xs".toList := by
  refine ⟨(name (some .iterable) "xs".toList).place (2 + t.size + 1)
    (6 + byteLength t.source + byteLength (b ++ "in".toList)), ?_, rfl, rfl⟩
  simp [loop, ht]
  exact ⟨rfl, rfl, rfl⟩

end Views

/-- The body of the statement that a template is is a node of the template. -/
theorem Node.HoldsStatement.mem_descendants {root body : Node} (h : root.HoldsStatement body) :
    body ∈ root.descendants := by
  obtain ⟨n, hroot, hview⟩ := h
  have hkind : n.kind = .statement := Node.kind_of_view? hview
  rw [Node.view?, hkind] at hview
  obtain ⟨hbody, -⟩ := View.statement.inj (Option.some.inj hview)
  have hn : n ∈ root.children := hroot ▸ List.mem_singleton_self n
  exact mem_descendants_of_child (mem_descendants_of_child root.mem_descendants_self hn)
    (List.mem_of_find?_eq_some hbody)

namespace Template

/-- The header of a loop is split at the first `in` that stands in no brackets. The target of every
loop in a template exposes no membership, and right behind it comes the word `in`. And an expression
that exposes none, if it is read without faults as the value that a template is, with a space on
each side, is read so as a target too, if operands may nest as deeply. -/
theorem parse_loop :
    (∀ (options : Options) (source : Input), ∀ n ∈ (parse options source).tree.root.descendants,
      n.kind = .forStatement → ∃ target iterable condition first word more,
        n.view? = some (.forStatement (some target) (some iterable) condition) ∧
          (∀ m ∈ target.exposed, ¬m.IsMembership) ∧
          n.children = first :: target :: word :: more ∧
          word.kind = .keyword ∧ word.text = "in".toList) ∧
    ∀ (options options' : Options) (expr : Input) (e : Node),
      options.maxDepth ≤ options'.maxDepth →
      (parse options (Hole.value.fill expr)).errors = [] →
      (parse options (Hole.value.fill expr)).tree.root.HoldsValue e →
      (∀ m ∈ e.exposed, ¬m.IsMembership) →
        (parse options' (loopOf expr)).errors = [] ∧
          ∃ body iterable, (parse options' (loopOf expr)).tree.root.HoldsStatement body ∧
            body.view? = some (.forStatement (some ((e.shift 1 4).under (some .target)))
              (some iterable) none) ∧
            iterable.kind = .identifier ∧ iterable.text = "xs".toList := by
  refine ⟨header_of_forStatement, fun options options' expr e hle hclean hvalue hexposed => ?_⟩
  obtain ⟨t, b, hfills, hb, hsource, rfl⟩ := exists_of_holdsValue hclean hvalue
  have hsheltered := (Tree.sheltered_under _ _).1 ((Tree.sheltered_iff _ 1 2).2 hexposed)
  have hitem := hfills.read_loop hle hb hsheltered
  rw [← hsource] at hitem
  have hne : loopOf expr ≠ [] := List.append_ne_nil_of_right_ne_nil _ (List.cons_ne_nil _ _)
  obtain ⟨herrors, htree⟩ : (parse options' (loopOf expr)).errors = [] ∧
      (parse options' (loopOf expr)).tree =
        .node none .sourceFile [.statementOf [' '] (.loop b t)] :=
    parse_of_item hne hitem
  obtain ⟨iterable, hview, hname⟩ := Tree.view?_loop (b := b) hfills.isExpression
  refine ⟨herrors, (Tree.loop b t).place 1 2, iterable, ?_, ?_, hname⟩
  · rw [htree]
    exact ⟨_, rfl, rfl⟩
  · rw [← Tree.place_shift, ← Tree.place_under, Tree.under_under]
    exact hview

/-- A membership in brackets may stand in a target. -/
theorem parse_loop_bracketed :
    let options : Options := ⟨false, 3, by decide⟩
    let options' : Options := ⟨true, 3, by decide⟩
    let expr : Input := ['a', '[', 'b', ' ', 'i', 'n', ' ', 'c', ']']
    let membership : Tree := .node (some .index) .comparison
      [.leaf (some .left) .identifier [] ['b'], .leaf (some .operator) .operator [' '] ['i', 'n'],
        .leaf (some .right) .identifier [' '] ['c']]
    let e : Node := (Tree.node (some .expression) .subscript
      [.leaf (some .object) .identifier [' '] ['a'], .leaf none .punctuation [] ['['], membership,
        .leaf none .punctuation [] [']']]).place 1 2
    options.maxDepth ≤ options'.maxDepth ∧ (parse options (Hole.value.fill expr)).errors = [] ∧
      (parse options (Hole.value.fill expr)).tree.root.HoldsValue e ∧
      (∀ m ∈ e.exposed, ¬m.IsMembership) ∧
      ∃ body ∈ (parse options' (loopOf expr)).tree.root.descendants, body.kind = .forStatement ∧
        ∃ iterable first word more, body.view? = some (.forStatement
            (some ((e.shift 1 4).under (some .target))) (some iterable) none) ∧
          body.children = first :: (e.shift 1 4).under (some .target) :: word :: more ∧
          word.text = "in".toList := by
  intro options options' expr membership e
  have hfill : Hole.value.fill expr =
      ['{', '{', ' ', 'a', '[', 'b', ' ', 'i', 'n', ' ', 'c', ']', ' ', '}', '}'] := rfl
  have hne : Hole.value.fill expr ≠ [] := List.cons_ne_nil _ _
  have hread : (Markup.item false 3).parser (Hole.value.fill expr) =
      .ok ([e.tree.valueOf none [' ']], []) := by
    rw [hfill]
    cbv
  obtain ⟨hclean, hvalue⟩ :
      (parse options (Hole.value.fill expr)).errors = [] ∧
        (parse options (Hole.value.fill expr)).tree.root.HoldsValue e :=
    @holdsValue_of_item _ _ options _ hne rfl hread
  have hexposed : ∀ m ∈ e.exposed, ¬m.IsMembership := by
    refine (Tree.sheltered_iff _ 1 2).1 ⟨by decide, ?_⟩
    -- The index is in brackets.
    have hindex : membership.field.any Field.isExposed ≠ true := by decide
    exact ⟨fun _ => trivial, fun _ => trivial, fun h => absurd h hindex, fun _ => trivial, trivial⟩
  obtain ⟨-, body, iterable, hbody, hview, -⟩ :=
    parse_loop.2 options options' expr e (Nat.le_refl 3) hclean hvalue hexposed
  have hmem := hbody.mem_descendants
  have hkind : body.kind = .forStatement := Node.kind_of_view? hview
  obtain ⟨target, _, _, first, word, more, hheader, -, hchildren, -, hword⟩ :=
    parse_loop.1 options' (loopOf expr) body hmem hkind
  obtain ⟨htarget, -⟩ := View.forStatement.inj (Option.some.inj (hview.symm.trans hheader))
  obtain rfl := Option.some.inj htarget
  exact ⟨Nat.le_refl 3, hclean, hvalue, hexposed, body, hmem, hkind, iterable, first, word, more,
    hview, hchildren, hword⟩

end Template

end Stencil
