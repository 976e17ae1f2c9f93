import Mathlib
import Stencil.Proofs.Substitution

/-!
# Call statements

A call statement may hold every expression that a value may hold. An expression that is a call is
taken apart: what it calls is the macro of the statement and its arguments are the parameters, and
no node is left for the call itself. Every other expression is the macro, and the statement has no
parameters. The main statement is `Template.parse_call`.
-/

namespace Stencil

/-- The template that is a call statement of an expression, with a space on each side of it. -/
def callOf (expr : List Char) : Input :=
  "\x7b% call".toList ++ ' ' :: (expr ++ ' ' :: "%\x7d".toList)

variable {depth : Nat} {t : Tree} {b : List Char}

/-! ## Reading -/

/-- An expression that fills a place is formed. -/
theorem Tree.Fills.formed (h : t.Fills depth) : t.FormedExpression :=
  have hgap : IsGap [' '] := ⟨List.cons_ne_nil _ _, by simp [isBlank]⟩
  expression_formed depth (h.read (Nat.le_refl depth) (Halts.valueEnd hgap []))

/-- A callee is read, if the expression is. -/
theorem Part.read_callee {operand : Extent → Parser Tree} {s rest : Input}
    (h : operand .whole s = .ok (t, rest)) : callee.read operand s = .ok (splitCall t, rest) := by
  rw [read, Parser.bind_of_ok h]
  rfl

/-- A token that begins no expression does not come first in one. -/
theorem Tree.Fills.look_kind (h : t.Fills depth) {y : Input} (hy : Halts y) {k : TokenKind}
    (hk : k ∉ Primary.firstKinds) :
    (Look.next .operand (.kind k)).holds (t.source ++ y) = .ok (false, t.source ++ y) := by
  obtain ⟨next, hscan, hof⟩ := h.exists_first hy
  have hne : next.kind ≠ k := fun hkind => hk (hkind ▸ Primary.kind_mem_firstKinds hof)
  have hnone : (Pattern.kind k).take? next = none := if_neg hne
  rw [Look.holds_of_scan hscan, hnone]
  rfl

/-- The call statement of an expression is read as an item. -/
theorem Tree.Fills.read_call (h : t.Fills depth) (hb : IsGap b) :
    (Markup.item false depth).parser ("\x7b% call".toList ++ (t.source ++ (b ++ ['%', '}']))) =
      .ok ([.statementOf b (node none .callStatement (keyword "call" :: Part.splitCall t))],
        []) := by
  have hends := Halts.statementEnd hb []
  have hclose := h.look_kind hends (k := .statementClose) (by decide)
  have htrim := h.look_kind hends (k := .trim) (by decide)
  have hparams := h.look_kind hends (k := .leftParen) (by decide)
  have hcallee := Part.read_callee (h.read (Nat.le_refl depth) hends)
  have hword : IsWord "call".toList := .of_all rfl rfl
  obtain ⟨more, hmore⟩ := h.space
  rw [hmore, List.cons_append] at hclose htrim hparams hcallee
  rw [hmore]
  refine Markup.read_statement hb (List.mem_of_getElem? (i := 9) rfl) hword nofun ?_
  exact Part.readAll_cons (Part.read_word hword _)
    (Part.readAll_singleton (Part.read_choice_no hclose
      (Part.readAll_singleton (Part.read_choice_no htrim
        (Part.readAll_singleton (Part.read_choice_no hparams
          (Part.readAll_singleton hcallee)))))))

/-- A call is taken apart into what it calls and its arguments. -/
theorem Tree.FormedExpression.exists_of_call (h : t.FormedExpression) (hcall : t.kind = .call) :
    ∃ (f : Option Field) (function arguments : Tree), t = node f .call [function, arguments] ∧
      function.HasExpression (some .function) ∧
        arguments.Has .argumentList (some .arguments) := by
  cases t with
  | leaf f k gap text =>
    obtain rfl : k = .call := hcall
    cases h.2.here
  | node f k ts =>
    obtain rfl : k = .call := hcall
    obtain ⟨function, arguments, hfunction, harguments, rfl⟩ := Schema.call_children h.2.here
    exact ⟨f, function, arguments, rfl, hfunction, harguments⟩

/-- Every other expression is the callee as it is. -/
theorem Part.splitCall_of_ne (h : t.kind ≠ .call) : splitCall t = [t.under (some .macroExpr)] := by
  unfold splitCall
  split
  · exact absurd rfl h
  · rfl

/-! ## What the statement holds -/

section Views

attribute [local simp] Tree.place_children Tree.placeAll_cons Node.view? Node.expr? Node.child?
  Node.part? Tree.keyword

/-- A call is seen as what it calls and its arguments. -/
theorem Tree.view?_call {f : Option Field} {function arguments : Tree}
    (hfunction : function.HasExpression (some .function))
    (harguments : arguments.Has .argumentList (some .arguments)) (id pos : Nat) :
    ((node f .call [function, arguments]).place id pos).view? =
      some (.call (some (function.place id pos))
        (some (arguments.place (id + function.size) (pos + byteLength function.source)))) := by
  simp [hfunction.field, hfunction.isExpression, harguments.field, harguments.kind]

/-- The statement of a callee is seen as its macro and its parameters. -/
theorem Tree.view?_callStatement {function arguments : Tree}
    (hfunction : function.kind.isExpression = true) (harguments : arguments.kind = .argumentList) :
    ((node none .callStatement [keyword "call", function.under (some .macroExpr),
      arguments.under (some .params)]).place 1 2).view? =
        some (.callStatement (some ((function.under (some .macroExpr)).place 2 7))
          (some ((arguments.under (some .params)).place (2 + function.size)
            (7 + byteLength function.source)))) := by
  simp [hfunction, harguments]
  exact ⟨rfl, rfl⟩

/-- The statement of another expression is seen as its macro. -/
theorem Tree.view?_callStatement_alone (ht : t.kind.isExpression = true) :
    ((node none .callStatement [keyword "call", t.under (some .macroExpr)]).place 1 2).view? =
      some (.callStatement (some ((t.under (some .macroExpr)).place 2 7)) none) := by
  simp [ht]
  rfl

end Views

/-- A call in the template of a call statement is below the trees of the callee. -/
theorem Node.mem_callees {ts : List Tree} {n : Node} (hcall : n.kind = .call)
    (h : n ∈ (Tree.root (.node none .sourceFile
      [.statementOf b (.node none .callStatement (.keyword "call" :: ts))])).descendants) :
    n ∈ descendantsOfAll (Tree.placeAll 2 7 ts) := by
  have hne : ∀ {u : Tree} {id pos : Nat}, u.kind ≠ .call → n ≠ u.place id pos := by
    rintro u id pos hu rfl
    exact hu ((kind_place u id pos).symm.trans hcall)
  simp only [Tree.root, Tree.statementOf, Tree.keyword, descendants_eq, Tree.place_children,
    Tree.children_node, Tree.children.eq_1, Tree.placeAll_cons, Tree.placeAll_nil, descendantsOfAll,
    List.append_nil, List.mem_cons, List.mem_append, List.not_mem_nil, or_false] at h
  -- The others are the root, the statement, its body, its keyword and its delimiters.
  rcases h with h | h | h | (h | h | h) | h
  all_goals first | exact h | exact absurd h (hne (by simp [Tree.kind]))

namespace Template

/-- An expression that is read without faults as the value that a template is, with a space on each
side, is read so in a call statement too. If it is a call, what it calls is the macro of the
statement and its arguments are the parameters, and the calls of the template are below these; if
not, it is the macro, and there are no parameters. -/
theorem parse_call (options : Options) (expr : Input) {e : Node}
    (hclean : (parse options (Hole.value.fill expr)).errors = [])
    (hvalue : (parse options (Hole.value.fill expr)).tree.root.HoldsValue e) :
    let called := parse options (callOf expr)
    called.errors = [] ∧ ∃ body, called.tree.root.HoldsStatement body ∧
      (e.kind = .call → ∃ f a, e.view? = some (.call (some f) (some a)) ∧
        let m := (f.shift 1 5).under (some .macroExpr)
        let p := (a.shift 1 5).under (some .params)
        body.view? = some (.callStatement (some m) (some p)) ∧
          ∀ n ∈ called.tree.root.descendants, n.kind = .call →
            n ∈ m.descendants ∨ n ∈ p.descendants) ∧
      (e.kind ≠ .call →
        body.view? =
          some (.callStatement (some ((e.shift 1 5).under (some .macroExpr))) none)) := by
  intro called
  obtain ⟨t, b, hfills, hb, hsource, rfl⟩ := exists_of_holdsValue hclean hvalue
  have hitem := hfills.read_call hb
  rw [← hsource] at hitem
  have hne : callOf expr ≠ [] := List.append_ne_nil_of_right_ne_nil _ (List.cons_ne_nil _ _)
  obtain ⟨herrors, htree⟩ : called.errors = [] ∧ called.tree = .node none .sourceFile
      [.statementOf b (.node none .callStatement (.keyword "call" :: Part.splitCall t))] :=
    parse_of_item hne hitem
  refine ⟨herrors, (Tree.node none .callStatement
    (.keyword "call" :: Part.splitCall t)).place 1 2, ?_, fun hcall => ?_, fun hother => ?_⟩
  · rw [htree]
    exact ⟨_, rfl, rfl⟩
  · rw [Node.kind_place, Tree.kind_under] at hcall
    obtain ⟨f, function, arguments, rfl, hfunction, harguments⟩ :=
      hfills.formed.exists_of_call hcall
    refine ⟨_, _, Tree.view?_call hfunction harguments 1 2, ?_⟩
    rw [← Tree.place_shift, ← Tree.place_shift, ← Tree.place_under, ← Tree.place_under,
      Nat.add_right_comm 1, Nat.add_right_comm 2]
    refine ⟨Tree.view?_callStatement hfunction.isExpression harguments.kind, fun n hn hkind => ?_⟩
    rw [htree] at hn
    have hmem := Node.mem_callees hkind hn
    rw [Part.splitCall, Tree.placeAll_cons, Tree.placeAll_cons, Tree.placeAll_nil,
      Tree.size_under, Tree.source_under] at hmem
    simpa [Node.descendantsOfAll] using hmem
  · rw [Node.kind_place, Tree.kind_under] at hother
    rw [← Tree.place_shift, ← Tree.place_under, Tree.under_under, Part.splitCall_of_ne hother]
    exact Tree.view?_callStatement_alone hfills.isExpression

/-- A call with one argument is taken apart in a call statement. -/
theorem parse_call_taken_apart :
    let options : Options := ⟨false, 2, by decide⟩
    let expr : Input := ['f', '(', '1', ')']
    let arguments : Tree := .node (some .arguments) .argumentList
      [.leaf none .punctuation [] ['('], .leaf none .integer [] ['1'],
        .leaf none .punctuation [] [')']]
    let e : Node := (Tree.node (some .expression) .call
      [.leaf (some .function) .identifier [' '] ['f'], arguments]).place 1 2
    (parse options (Hole.value.fill expr)).errors = [] ∧
      (parse options (Hole.value.fill expr)).tree.root.HoldsValue e ∧ e.kind = .call ∧
      ∃ body f a, (parse options (callOf expr)).tree.root.HoldsStatement body ∧
        e.view? = some (.call (some f) (some a)) ∧
        body.view? = some (.callStatement (some ((f.shift 1 5).under (some .macroExpr)))
          (some ((a.shift 1 5).under (some .params)))) := by
  intro options expr arguments e
  have hfill : Hole.value.fill expr = ['{', '{', ' ', 'f', '(', '1', ')', ' ', '}', '}'] := rfl
  have hne : Hole.value.fill expr ≠ [] := List.cons_ne_nil _ _
  have hread : (Markup.item false 2).parser (Hole.value.fill expr) =
      .ok ([e.tree.valueOf none [' ']], []) := by
    rw [hfill]
    cbv
  obtain ⟨hclean, hvalue⟩ :
      (parse options (Hole.value.fill expr)).errors = [] ∧
        (parse options (Hole.value.fill expr)).tree.root.HoldsValue e :=
    @holdsValue_of_item _ _ options _ hne rfl hread
  obtain ⟨-, body, hbody, hcall, -⟩ := parse_call options expr hclean hvalue
  obtain ⟨f, a, hview, hviewBody, -⟩ := hcall rfl
  exact ⟨hclean, hvalue, rfl, body, f, a, hbody, hview, hviewBody⟩

end Template

end Stencil
