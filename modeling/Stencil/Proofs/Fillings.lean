import Stencil.Proofs.Concatenation
import Stencil.Proofs.Endings
import Stencil.Proofs.Limits
import Stencil.Proofs.RoundTrip

/-!
# Expressions that may stand anywhere

The expression of a value may stand behind a space wherever expressions may stand, and the same tree
is read of it (`Tree.Fills`): what comes before it does not matter, and of what comes behind it only
that the expression ends there. Where it is the member of a list, it is seen to begin one, and where
it is an argument, it is seen to have no name. The values and statements that hold such a tree are
read with it (`Part.read_valueOf`, `Part.read_statementOf`).
-/

namespace Stencil

variable {depth : Nat} {t : Tree} {s y : Input}

/-! ## Trees that fill a place -/

/-- Whether a tree is read of what it holds wherever an expression may stand behind a space, if
operands may nest `depth` deep. -/
structure Tree.Fills (depth : Nat) (t : Tree) : Prop where
  space : ∃ more, t.source = ' ' :: more
  isExpression : t.kind.isExpression = true
  read : ∀ {high : Nat} {y : Input}, depth ≤ high → Halts y →
    expression high .whole (t.source ++ y) = .ok (t, y)

/-- A tree that is read behind a space fills a place, if expressions end behind it. -/
theorem fills_of_expression (h : expression depth .whole (' ' :: s) = .ok (t, y)) (hy : Halts y) :
    t.Fills depth := by
  have hsource : t.source ++ y = ' ' :: s := expression_append depth h
  refine ⟨?_, (expression_formed depth h).1, fun {high y'} hle hy' => ?_⟩
  · obtain ⟨c, more, hmore⟩ := List.exists_cons_of_ne_nil
      (Tree.source_ne_nil (expression_spaced depth h))
    rw [hmore] at hsource
    obtain ⟨rfl, -⟩ := List.cons_eq_cons.1 hsource
    exact ⟨more, hmore⟩
  · have hread := expression_replace h hy hy'
    rcases expression_limits hle .whole (t.source ++ y') with hsame | ⟨e, he, -⟩
    · exact hsame ▸ hread
    · rw [hread] at he
      cases he

/-- The first token of an expression begins one. -/
theorem exists_first_of_expression {extent : Extent} {rest : Input}
    (h : expression depth extent s = .ok (t, rest)) :
    ∃ next, Token.scan .operand s = .ok next ∧ Primary.of? next ≠ none := by
  cases depth with
  | zero => cases h
  | succ depth =>
    obtain ⟨head, s₁, tails, hhead, -⟩ := exists_of_expression h
    cases Primary.read_eq_ok.1 hhead with
    | leaf hscan hform | node hscan hform => exact ⟨_, hscan, by simp [hform]⟩

/-- Behind places at which expressions end no expression goes on. -/
theorem Halts.stops (hy : Halts y) (extent : Extent) : Stops extent y := by
  obtain ⟨next, hscan, hnone⟩ := hy.next?_none extent
  exact stops_of_scan hscan hnone

/-- No sign of assignment is where expressions end. -/
theorem Halts.noAssign (hy : Halts y) : NoAssign y := by
  obtain ⟨next, hscan, hend⟩ := hy.next
  exact noAssign_of_scan hscan hend.unnamed

/-- Of the forms that have parts only the operator `not` begins with a word. -/
theorem Primary.eq_unary_of_word {next : Token} {kind : Kind} {parts : List Part}
    (hword : next.kind = .word) (h : of? next = some (.node kind parts)) :
    node kind parts = unary next := by
  simp only [of?, hword] at h
  repeat' split at h
  all_goals cases h
  rfl

/-- Where an operator before its operand is read, the operand is read behind it. -/
theorem Part.exists_of_read_unary {operand : Extent → Parser Tree} {next : Token}
    {kind : Kind} {parts : List Part} {ts : List Tree} {rest : Input}
    (hscan : Token.scan .operand s = .ok next) (hform : Primary.node kind parts = .unary next)
    (h : readAll operand parts s = .ok (ts, rest)) :
    ∃ t rest', operand .operand next.rest = .ok (t, rest') := by
  cases hform
  obtain ⟨first, taken, t, hfirst, htake, hoperand, -⟩ := exists_of_read_operation h
  obtain rfl : first = next := Except.ok.inj (hfirst.symm.trans hscan)
  obtain ⟨-, rfl⟩ := Pattern.kind_of_take? htake
  exact ⟨t, rest, hoperand⟩

/-- No expression goes on with a sign of assignment. -/
theorem stops_of_assign {sign : Token} (hsign : Token.scan .code s = .ok sign)
    (hassign : sign.kind = .assign) : Stops .whole s := by
  have hnot : sign.isWord "not" = false := by simp [Token.isWord, hassign]
  have hoperator : Token.scan .operator s = .ok sign := by
    refine Token.scanOperator_eq_ok.2 (.single hsign fun h => ?_)
    rw [hnot] at h
    cases h
  exact stops_of_scan hoperator (by simp [Tail.of?, hassign])

/-- No sign of assignment comes behind a word with which an expression begins, if expressions end
behind the expression. -/
theorem noAssign_of_expression (h : expression depth .whole s = .ok (t, y)) (hy : Halts y)
    {next : Token} (hscan : Token.scan .operand s = .ok next) (hword : next.kind = .word) :
    NoAssign next.rest := by
  intro sign hsign hassign
  cases depth with
  | zero => cases h
  | succ depth =>
    obtain ⟨head, s₁, tails, hhead, htails, rfl⟩ := exists_of_expression h
    cases Primary.read_eq_ok.1 hhead with
    | @leaf next' _ hscan' =>
      -- The word is all of the expression.
      obtain rfl : next' = next := Except.ok.inj (hscan'.symm.trans hscan)
      obtain ⟨rfl, rfl⟩ : [] = tails ∧ next'.rest = y := by
        simpa using (stops_of_assign hsign hassign (expression depth)).symm.trans htails
      exact hy.noAssign sign hsign hassign
    | @node next' _ _ _ _ hscan' hform hparts =>
      -- The word is `not`, and its operand does not begin with the sign.
      obtain rfl : next' = next := Except.ok.inj (hscan'.symm.trans hscan)
      obtain ⟨u, rest, hoperand⟩ :=
        Part.exists_of_read_unary hscan (Primary.eq_unary_of_word hword hform) hparts
      obtain ⟨second, hsecond, hof⟩ := exists_first_of_expression hoperand
      obtain ⟨code, hcode, hbegins, -⟩ := Token.exists_code_of_operand hsecond hof
      obtain rfl : code = sign := Except.ok.inj (hcode.symm.trans hsign)
      exact hbegins.assign hassign

namespace Tree.Fills

/-- What a tree that fills a place holds begins with a token that begins an expression. -/
theorem exists_first (h : t.Fills depth) (hy : Halts y) :
    ∃ next, Token.scan .operand (t.source ++ y) = .ok next ∧ Primary.of? next ≠ none :=
  exists_first_of_expression (h.read (Nat.le_refl depth) hy)

/-- What a tree that fills a place holds begins as a member of a list does. -/
theorem begins (h : t.Fills depth) (hy : Halts y) :
    ∃ next, Token.scan .code (t.source ++ y) = .ok next ∧ next.BeginsMember := by
  obtain ⟨next, hscan, hof⟩ := h.exists_first hy
  obtain ⟨code, hcode, hbegins, -⟩ := Token.exists_code_of_operand hscan hof
  exact ⟨code, hcode, hbegins⟩

/-- What a tree that fills a place holds is no named argument. -/
theorem not_atNamed (h : t.Fills depth) (hy : Halts y) : atNamed (t.source ++ y) = false := by
  obtain ⟨next, hscan, hof⟩ := h.exists_first hy
  obtain ⟨code, hcode, -, hsame⟩ := Token.exists_code_of_operand hscan hof
  refine atNamed_eq_false hcode fun hword => ?_
  obtain rfl := hsame hword
  exact noAssign_of_expression (h.read (Nat.le_refl depth) hy) hy hscan hword

end Tree.Fills

/-! ## Where expressions end -/

namespace Halts

variable {b : List Char}

/-- Expressions end before the end of a value. -/
theorem valueEnd (hb : IsGap b) (rest : Input) : Halts (b ++ '}' :: '}' :: rest) :=
  of_scan hb (t := ⟨.valueClose, [], ['}', '}'], rest⟩) rfl ⟨rfl, rfl, nofun⟩

/-- Expressions end before the end of a statement. -/
theorem statementEnd (hb : IsGap b) (rest : Input) : Halts (b ++ '%' :: '}' :: rest) :=
  of_scan hb (t := ⟨.statementClose, [], ['%', '}'], rest⟩) rfl ⟨rfl, rfl, nofun⟩

end Halts

/-! ## Values -/

/-- A value that holds an expression, with blanks before what closes it. -/
def Tree.valueOf (field : Option Field) (b : List Char) (t : Tree) : Tree :=
  node field .value
    [leaf (some .openDelimiter) .delimiter [] ['{', '{'], t.under (some .expression),
      leaf (some .closeDelimiter) .delimiter b ['}', '}']]

/-- A value is read, if the expression in it is. -/
theorem Part.read_valueOf (field : Option Field) {mode : Mode} (hmode : mode = .text ∨ mode = .tag)
    (expected : String) {b : List Char} (hb : ∀ c ∈ b, isBlank c = true) {rest : Input}
    (h : expression depth .whole s = .ok (t, b ++ '}' :: '}' :: rest)) :
    (value field mode expected).read (expression depth) ('{' :: '{' :: s) =
      .ok ([t.valueOf field b], rest) := by
  have hopener : Terminal.read ⟨some .openDelimiter, .delimiter, mode, .kind .valueOpen, expected⟩
      ('{' :: '{' :: s) = .ok (.leaf (some .openDelimiter) .delimiter [] ['{', '{'], s) := by
    rcases hmode with rfl | rfl <;> rfl
  have hscan : Token.scan .code (b ++ '}' :: '}' :: rest) =
      .ok ⟨.valueClose, b, ['}', '}'], rest⟩ :=
    Token.afterBlanks_gap (t := ⟨.valueClose, [], ['}', '}'], rest⟩) hb rfl
  have hcloser := Terminal.read_of_scan
    (t := ⟨some .closeDelimiter, .delimiter, .code, .kind .valueClose, "`\x7d\x7d`"⟩) hscan rfl
  exact read_enclosed hopener (readAll_cons (read_operand (some .expression) h)
    (readAll_singleton (read_token hcloser)))

/-- What a value is read of: its expression, and blanks before what closes it. -/
theorem Part.exists_of_read_value {field : Option Field} {mode : Mode} {expected : String}
    {rest : Input} {ts : List Tree}
    (h : (value field mode expected).read (expression depth) s = .ok (ts, rest)) :
    ∃ first s₁ t b, Terminal.read ⟨some .openDelimiter, .delimiter, mode, .kind .valueOpen,
        expected⟩ s = .ok (first, s₁) ∧
      expression depth .whole s₁ = .ok (t, b ++ '}' :: '}' :: rest) ∧
      (∀ c ∈ b, isBlank c = true) ∧
      ts = [.node field .value [first, t.under (some .expression),
        .leaf (some .closeDelimiter) .delimiter b ['}', '}']]] := by
  obtain ⟨first, s₁, more, hfirst, hmore, rfl⟩ := exists_of_read_enclosed h
  obtain ⟨_, s₂, _, hexpr, hlast, rfl⟩ := exists_of_readAll_cons hmore
  obtain ⟨t, ht, rfl⟩ := exists_of_read_operand hexpr
  obtain ⟨close, taken, hscan, htake, rfl, rfl⟩ :=
    exists_of_read_token (read_of_readAll_singleton hlast)
  obtain ⟨hkind, rfl⟩ := Pattern.kind_of_take? htake
  have hstart : taken.gap ++ (taken.text ++ taken.rest) = s₂ := Token.gap_append_start hscan
  obtain ⟨next, hnext, hsame, htext⟩ := Token.exists_scan_of_afterBlanks hscan
  have hbraces : taken.text = ['}', '}'] :=
    htext.trans ((Token.scanCode_text hnext).2.1 (hsame.symm.trans hkind))
  rw [hbraces] at hstart
  refine ⟨first, s₁, t, taken.gap, hfirst, ?_, Token.isBlank_of_mem_gap hscan, ?_⟩
  · rw [ht, ← hstart]
    rfl
  · rw [Token.leaf, hbraces]
    rfl

/-- Where the delimiter of a value comes first, an item is a value. -/
theorem Markup.item_value (recover : Bool) (depth : Nat) (s : Input) :
    (item recover depth).parser ('{' :: '{' :: s) =
      (Part.value none .text "`\x7b\x7b`").read (expression depth) ('{' :: '{' :: s) := by
  show (item recover depth ('{' :: '{' :: s)).result = _
  rw [item_eq, itemOf_eq]
  rfl

/-- An item that leaves nothing is a template without faults. -/
theorem Template.parse_of_item {options : Options} {u : Tree} (hs : s ≠ [])
    (h : (Markup.item false options.maxDepth).parser s = .ok ([u], [])) :
    (parse options s).errors = [] ∧ (parse options s).tree = .node none .sourceFile [u] :=
  parse_of_whole_row (.cons hs h (.nil []))

/-- A row without items reads nothing. -/
theorem Markup.Row.eq_of_nil {item : Reading (List Tree)} (hitem : ReadsItems item) {rest : Input}
    (h : Row item s [] rest) : s = rest := by
  generalize hts : [] = ts at h
  cases h with
  | nil => rfl
  | cons hs h _ => exact absurd (List.append_eq_nil_iff.1 hts.symm).1 (hitem.items hs h).1

/-- A template without faults that has one item is that item. -/
theorem Template.item_of_parse {options : Options} {n : Node}
    (hclean : (parse options s).errors = []) (hone : (parse options s).tree.root.children = [n]) :
    ∃ u, (Markup.item false options.maxDepth).parser s = .ok ([u], []) ∧ n = u.place 0 0 := by
  have hitem := Markup.item_readsItems false options.maxDepth
  have hrow := row_of_errors_nil hclean
  rw [parse_children] at hone
  generalize (steps options s).flatMap Step.trees = ts at hrow hone
  cases hrow with
  | nil => cases hone
  | @cons _ s' _ ts others hs h hmore =>
    obtain ⟨u, us, rfl⟩ := List.exists_cons_of_ne_nil (hitem.items hs h).1
    rw [List.cons_append, Tree.placeAll_cons] at hone
    obtain ⟨rfl, hnone⟩ := List.cons_eq_cons.1 hone
    have htrees := Tree.placeAll_tree (0 + u.size) (0 + byteLength u.source) (us ++ others)
    rw [hnone] at htrees
    obtain ⟨rfl, rfl⟩ := List.append_eq_nil_iff.1 htrees.symm
    obtain rfl := hmore.eq_of_nil hitem
    exact ⟨u, h, rfl⟩

/-- The expression of a value without faults fills other places too, as it was read. -/
theorem Template.fills_of_value {options : Options} {expr : Input} {n : Node}
    (hclean : (parse options ('{' :: '{' :: ' ' :: (expr ++ [' ', '}', '}']))).errors = [])
    (hone : (parse options ('{' :: '{' :: ' ' :: (expr ++ [' ', '}', '}']))).tree.root.children =
      [n]) :
    ∃ (t : Tree) (b : List Char), t.Fills options.maxDepth ∧ IsGap b ∧
      t.source ++ b = ' ' :: (expr ++ [' ']) ∧ n = (t.valueOf none b).place 0 0 := by
  obtain ⟨u, hitem, rfl⟩ := item_of_parse hclean hone
  rw [Markup.item_value] at hitem
  obtain ⟨first, s₁, t, b, hfirst, ht, hb, hu⟩ := Part.exists_of_read_value hitem
  cases hfirst
  have hsource : t.source ++ (b ++ ['}', '}']) = ' ' :: (expr ++ [' ', '}', '}']) :=
    expression_append options.maxDepth ht
  have hblanks : t.source ++ b = ' ' :: (expr ++ [' ']) := by
    have happend : (t.source ++ b) ++ ['}', '}'] = ' ' :: (expr ++ [' ']) ++ ['}', '}'] := by
      simpa using hsource
    exact List.append_cancel_right happend
  -- What is read of the expression does not end with the last space.
  have hgap : IsGap b := by
    refine ⟨fun hnil => ?_, hb⟩
    subst hnil
    have hclose : Alike Closes ['}', '}'] ['}', '}'] :=
      ⟨_, _, [], [], rfl, rfl, .of_plain (List.all_eq_true.1 rfl), ⟨[], '}', [], rfl, .inl rfl⟩,
        ⟨[], '}', [], rfl, .inl rfl⟩⟩
    obtain ⟨front, c, hfront, hc⟩ := expression_trimmed ht hclose
    rw [List.append_nil, hfront, ← List.cons_append] at hblanks
    obtain ⟨-, hlast⟩ := List.append_inj' hblanks rfl
    obtain rfl := List.singleton_inj.1 hlast
    cases hc
  exact ⟨t, b, fills_of_expression ht (.valueEnd hgap []), hgap, hblanks,
    congrArg (Tree.place 0 0) (List.singleton_inj.1 hu)⟩

/-! ## Statements -/

/-- A statement of a body, with blanks before what closes it. -/
def Tree.statementOf (b : List Char) (body : Tree) : Tree :=
  node none .statement
    [leaf (some .openDelimiter) .delimiter [] ['{', '%'], body,
      leaf (some .closeDelimiter) .delimiter b ['%', '}']]

/-- A token is no other word than the one that it is. -/
theorem Token.isWord_unique {next : Token} {w w' : String} (h : next.isWord w = true)
    (hne : w' ≠ w) : next.isWord w' = false := by
  cases h' : next.isWord w' with
  | false => rfl
  | true =>
    have htext := (isWord_iff.1 h').2.symm.trans (isWord_iff.1 h).2
    exact absurd (String.toList_inj.1 htext) hne

namespace Part

variable {operand : Extent → Parser Tree} {w : String} {form : Part} {rest : Input}

/-- What stands between the delimiters of a statement is read as the form of its first word. -/
theorem read_form (hmem : (w, form) ∈ Statement.bodies) {next : Token}
    (hscan : Token.scan .code s = .ok next) (hword : next.isWord w = true) {ts : List Tree}
    (h : form.read operand s = .ok (ts, rest)) :
    readAll operand Statement.body s = .ok (ts, rest) := by
  have hlook : ∀ w', (atWord w').holds s = .ok (next.isWord w', s) := by
    intro w'
    rw [atWord, Look.holds_of_scan hscan]
    simp only [Pattern.take?]
    split <;> simp_all
  -- The words are looked for one after the other, and no two of them are the same.
  have choose : ∀ (forms : List (String × Part)) (last : List Part), (w, form) ∈ forms →
      (forms.map Prod.fst).Nodup →
        readAll operand
          (forms.foldr (fun form others => [.choice (atWord form.1) [form.2] others]) last) s =
            .ok (ts, rest) := by
    intro forms last hmem hnodup
    induction forms with
    | nil => cases hmem
    | cons first forms ih =>
      obtain ⟨w', form'⟩ := first
      obtain ⟨hnot, hnodup⟩ := List.nodup_cons.1 hnodup
      refine readAll_singleton ?_
      rcases List.mem_cons.1 hmem with heq | hmem
      · cases heq
        exact read_choice_yes (hword ▸ hlook w) (readAll_singleton h)
      · have hlater : w ∈ forms.map Prod.fst := List.mem_map_of_mem hmem
        have hne : w' ≠ w := fun heq => hnot (heq ▸ hlater)
        exact read_choice_no (Token.isWord_unique hword hne ▸ hlook w') (ih hmem hnodup)
  exact choose _ _ hmem (by decide)

/-- A statement is read, if the form of its word is. -/
theorem read_statementOf (hmem : (w, form) ∈ Statement.bodies) (hw : IsWord w.toList) {x : Input}
    {body : Tree} {b : List Char} (hb : ∀ c ∈ b, isBlank c = true)
    (h : form.read operand (' ' :: (w.toList ++ ' ' :: x)) =
      .ok ([body], b ++ '%' :: '}' :: rest)) :
    statement.read operand ('{' :: '%' :: ' ' :: (w.toList ++ ' ' :: x)) =
      .ok ([body.statementOf b], rest) := by
  have hword := (hw.isWhole false).scan_code x
  have hopener : Terminal.read
      ⟨some .openDelimiter, .delimiter, .text, .kind .statementOpen, "`\x7b%`"⟩
      ('{' :: '%' :: ' ' :: (w.toList ++ ' ' :: x)) =
        .ok (.leaf (some .openDelimiter) .delimiter [] ['{', '%'], ' ' :: (w.toList ++ ' ' :: x)) :=
    rfl
  have hleading : (Look.next .code (.touching .hyphen)).holds (' ' :: (w.toList ++ ' ' :: x)) =
      .ok (false, ' ' :: (w.toList ++ ' ' :: x)) := Look.holds_of_scan hword
  have hform := read_form hmem hword (by simp [Token.isWord]) h
  have hscan : Token.scan .code (b ++ '%' :: '}' :: rest) =
      .ok ⟨.statementClose, b, ['%', '}'], rest⟩ :=
    Token.afterBlanks_gap (t := ⟨.statementClose, [], ['%', '}'], rest⟩) hb rfl
  have htrailing : (Look.next .code (.kind .trim)).holds (b ++ '%' :: '}' :: rest) =
      .ok (false, b ++ '%' :: '}' :: rest) := Look.holds_of_scan hscan
  have hcloser := Terminal.read_of_scan
    (t := ⟨some .closeDelimiter, .delimiter, .code, .kind .statementClose, "`%\x7d`"⟩) hscan rfl
  exact read_enclosed hopener (readAll_both
    (readAll_both (readAll_singleton (read_choice_no hleading readAll_nil)) hform)
    (readAll_cons (read_choice_no htrailing readAll_nil)
      (readAll_singleton (read_token hcloser))))

end Part

namespace Markup

/-- Where the delimiter of a statement comes first, an item is a statement. -/
theorem item_eq_statement (recover : Bool) (depth : Nat) (s : Input) :
    (item recover depth).parser ('{' :: '%' :: s) =
      (statement (expression depth)).parser ('{' :: '%' :: s) := by
  show (item recover depth ('{' :: '%' :: s)).result = _
  rw [item_eq, itemOf_eq]
  rfl

/-- A statement that begins no raw block is all that is read. -/
theorem statement_of_read {operand : Extent → Parser Tree} {t : Tree} {rest : Input}
    (hraw : opensRaw [t] = false) (h : Part.statement.read operand s = .ok ([t], rest)) :
    (statement operand).parser s = .ok ([t], rest) :=
  statement_eq_ok.2 ⟨[t], rest, h, .inl ⟨hraw, rfl, rfl⟩⟩

/-- The statement of a body is read as an item. -/
theorem item_statement (recover : Bool) {depth : Nat} {rest : Input} {b : List Char} {body : Tree}
    (hkind : body.kind ≠ .rawStatement)
    (h : Part.statement.read (expression depth) ('{' :: '%' :: s) =
      .ok ([body.statementOf b], rest)) :
    (item recover depth).parser ('{' :: '%' :: s) = .ok ([body.statementOf b], rest) := by
  have hraw : opensRaw [body.statementOf b] = false := by
    show (decide (Kind.delimiter = .rawStatement) || (decide (body.kind = .rawStatement) ||
      (decide (Kind.delimiter = .rawStatement) || false)) || false) = false
    simp [hkind]
  rw [item_eq_statement]
  exact statement_of_read hraw h

end Markup

end Stencil
