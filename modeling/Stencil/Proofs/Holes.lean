import Stencil.Proofs.Fillings
import Stencil.Proofs.Relocation
import Stencil.View

/-!
# The places of expressions

The places in which a template may hold an expression (`Hole`): a value, the statements with a
condition, an iterable or what is assigned, the value of an attribute, and the members of lists,
calls, subscripts and dictionaries. Which reader gets to the expression differs from place to place,
and so does what it looks at before and after; but an expression that fills one of them fills them
all (`Hole.read_fill`), and the tree of the template then holds it there (`Hole.holds_tree`).
-/

namespace Stencil

/-- A place in a template that holds one expression. -/
inductive Hole where
  | value
  | ifCondition
  | elifCondition
  | assigned
  | iterable
  | loopCondition
  | attributeValue
  | listItem
  | argument
  | namedArgument
  | index
  | pairValue
deriving DecidableEq, Repr

namespace Hole

/-- What is written before the expression and the space in front of it. -/
def before : Hole → List Char
  | value => "\x7b\x7b".toList
  | ifCondition => "\x7b% if".toList
  | elifCondition => "\x7b% elif".toList
  | assigned => "\x7b% set v =".toList
  | iterable => "\x7b% for v in".toList
  | loopCondition => "\x7b% for v in w if".toList
  | attributeValue => "<a b=\x7b\x7b".toList
  | listItem => "\x7b\x7b [".toList
  | argument => "\x7b\x7b f(".toList
  | namedArgument => "\x7b\x7b f( k=".toList
  | index => "\x7b\x7b x[".toList
  | pairValue => "\x7b\x7b \x7b k :".toList

/-- What is written after the expression and the space behind it. -/
def after : Hole → List Char
  | value => "\x7d\x7d".toList
  | ifCondition | elifCondition | assigned | iterable | loopCondition => "%\x7d".toList
  | attributeValue => "\x7d\x7d/>".toList
  | listItem | index => "] \x7d\x7d".toList
  | argument | namedArgument => ") \x7d\x7d".toList
  | pairValue => "\x7d \x7d\x7d".toList

/-- The template that holds an expression, with a space on each side of it. -/
def fill (hole : Hole) (expr : List Char) : Input :=
  hole.before ++ ' ' :: (expr ++ ' ' :: hole.after)

/-- The field under which the expression is held. -/
def field : Hole → Option Field
  | value | attributeValue => some .expression
  | ifCondition | elifCondition | loopCondition => some .condition
  | assigned | namedArgument | pairValue => some .value
  | iterable => some .iterable
  | listItem | argument => none
  | index => some .index

end Hole

/-! ## Trees with an expression -/

namespace Tree

/-- A keyword with one space before it. -/
def keyword (w : String) : Tree := leaf none .keyword [' '] w.toList

/-- A punctuation mark that touches what comes before it. -/
def touchingMark (c : Char) : Tree := leaf none .punctuation [] [c]

/-- One member between brackets, of which the first touches what comes before it or not. -/
def between (g : List Char) (br : Bracket) (b : List Char) (member : Tree) : List Tree :=
  [leaf none .punctuation g [br.first], member, leaf none .punctuation b [br.closer]]

end Tree

namespace Hole

/-- The tree of the item that holds an expression, with the blanks behind it. -/
def tree (b : List Char) (t : Tree) : Hole → Tree
  | value => t.valueOf none b
  | ifCondition =>
    .statementOf b (.node none .ifStatement [.keyword "if", t.under (some .condition)])
  | elifCondition =>
    .statementOf b (.node none .elifClause [.keyword "elif", t.under (some .condition)])
  | assigned =>
    .statementOf b (.node none .setStatement
      [.keyword "set", .name (some .variableName) ['v'], .mark '=', t.under (some .value)])
  | iterable =>
    .statementOf b (.node none .forStatement
      [.keyword "for", .name (some .target) ['v'], .keyword "in", t.under (some .iterable)])
  | loopCondition =>
    .statementOf b (.node none .forStatement
      [.keyword "for", .name (some .target) ['v'], .keyword "in", .name (some .iterable) ['w'],
        .keyword "if", t.under (some .condition)])
  | attributeValue =>
    .node none .element
      [.touchingMark '<', .leaf (some .name) .tagName [] ['a'],
        .node none .tagAttribute
          [.leaf (some .name) .attributeName [' '] ['b'], .touchingMark '=',
            t.valueOf (some .value) b],
        .leaf none .punctuation [] ['/', '>']]
  | listItem =>
    .valueOf none [' '] (.node none .list (Tree.between [' '] .square b (t.under none)))
  | argument =>
    .valueOf none [' '] (Tail.attach (.name none ['f'])
      ⟨.call, .function,
        [.node (some .arguments) .argumentList (Tree.between [] .round b (t.under none))]⟩)
  | namedArgument =>
    .valueOf none [' '] (Tail.attach (.name none ['f'])
      ⟨.call, .function,
        [.node (some .arguments) .argumentList (Tree.between [] .round b
          (.node none .keywordArgument
            [.name (some .key) ['k'], .touchingMark '=', t.under (some .value)]))]⟩)
  | index =>
    .valueOf none [' '] (Tail.attach (.name none ['x'])
      ⟨.subscript, .object, Tree.between [] .square b (t.under (some .index))⟩)
  | pairValue =>
    .valueOf none [' ']
      (.node none .dict (Tree.between [' '] .curly b (.pair (.name none ['k']) t)))

end Hole

/-! ## Reading -/

section Reading

variable {depth high : Nat} {t : Tree} {b x : List Char}

/-- Expressions end before the end of a bracket. -/
theorem Halts.closer (hb : IsGap b) (br : Bracket) (x : Input) :
    Halts (b ++ br.closer :: ' ' :: x) :=
  of_scan hb (t := ⟨br.closerKind, [], [br.closer], ' ' :: x⟩) (by cases br <;> rfl)
    (by cases br <;> exact ⟨rfl, rfl, nofun⟩)

/-- One member between brackets is read, if it is read before the closing one. -/
theorem Part.read_between {operand : Extent → Parser Tree} (br : Bracket) {mode : Mode}
    {member : List Part} {s s₁ : Input} {g : List Char} {u : Tree} (hb : IsGap b)
    (hopener : (Terminal.opener br mode).read s =
      .ok (.leaf none .punctuation g [br.first], s₁))
    (hbegins : ∃ next, Token.scan .code s₁ = .ok next ∧ next.BeginsMember)
    (hmember : readAll operand member s₁ = .ok ([u], b ++ br.closer :: ' ' :: x)) :
    readAll operand (bracketed br mode member) s =
      .ok (Tree.between g br b u, ' ' :: x) := by
  obtain ⟨next, hnext, hmem⟩ := hbegins
  have hscan : Token.scan .code (b ++ br.closer :: ' ' :: x) =
      .ok ⟨br.closerKind, b, [br.closer], ' ' :: x⟩ := by
    refine Token.afterBlanks_gap (t := ⟨br.closerKind, [], [br.closer], ' ' :: x⟩) hb.2 ?_
    cases br <;> rfl
  have hcomma : atComma.holds (b ++ br.closer :: ' ' :: x) =
      .ok (false, b ++ br.closer :: ' ' :: x) := by
    rw [atComma, Look.holds_of_scan hscan]
    cases br <;> rfl
  have hcloser : (Terminal.closer br).read (b ++ br.closer :: ' ' :: x) =
      .ok (.leaf none .punctuation b [br.closer], ' ' :: x) :=
    Terminal.read_of_scan (t := .closer br) hscan (if_pos rfl)
  have hmembers : readAll operand
      (member ++ [.repeated atComma [comma, .choice (.next .code (.closer br)) [] member]]) s₁ =
        .ok ([u] ++ [], b ++ br.closer :: ' ' :: x) :=
    readAll_both hmember (readAll_singleton (read_repeated_nil hcomma))
  exact readAll_cons (read_token hopener)
    (readAll_cons
      (read_choice_no (atComma_of_beginsMember hnext hmem)
        (readAll_singleton (read_choice_no (atCloser_of_beginsMember hnext hmem br) hmembers)))
      (readAll_singleton (read_token hcloser)))

/-- What begins a word and goes on as one is a word. -/
theorem IsWord.of_all {c : Char} {w : List Char} (hc : isWordStart c = true)
    (hw : w.all isWordChar = true) : IsWord (c :: w) :=
  ⟨c, w, rfl, hc, List.all_eq_true.1 hw⟩

/-- A keyword is read. -/
theorem Part.read_word {operand : Extent → Parser Tree} {w : String} (hw : IsWord w.toList)
    (x : Input) : (word w).read operand (' ' :: (w.toList ++ ' ' :: x)) =
      .ok ([.keyword w], ' ' :: x) :=
  read_token (Terminal.read_of_scan (t := .keyword w) ((hw.isWhole false).scan_code x)
    (if_pos (by simp [Token.isWord])))

/-- A name is an expression, if none goes on behind it. -/
theorem expression_name {w : List Char} (hw : IsWord w) (hname : ∀ r ∈ reservedWords, w ≠ r.toList)
    (hpos : 0 < high) {extent : Extent} (hstops : Stops extent (' ' :: x)) :
    expression high extent (' ' :: (w ++ ' ' :: x)) = .ok (.name none w, ' ' :: x) :=
  (hw.reads hname .tight).operand extent hpos (.inr (.inl rfl)) (.inl rfl) hstops

/-- A primary before the end of a value is an expression. -/
theorem expression_of_primary {s : Input} {head : Tree}
    (hhead : Primary.read (expression high) s = .ok (head, [' ', '}', '}'])) :
    expression (high + 1) .whole s = .ok (head, [' ', '}', '}']) :=
  expression_of_tails hhead (ends_value.stops .whole _)

/-- A primary and one tail before the end of a value are an expression. -/
theorem expression_of_tail {s : Input} (s₁ : Input) {head : Tree} {tail : Tail Tree}
    (hhead : Primary.read (expression high) s = .ok (head, s₁)) (hlt : 3 < s₁.length)
    (htail : Tail.read (expression high) .whole s₁ = .ok (some tail, [' ', '}', '}'])) :
    expression (high + 1) .whole s = .ok (Tail.attach head tail, [' ', '}', '}']) :=
  expression_of_tails hhead (Parser.many_of_some htail hlt (ends_value.stops .whole _))

end Reading

/-! ## Expressions that hold an expression -/

namespace Tree.Fills

variable {depth high : Nat} {t : Tree} {b : List Char}

/-- Nothing is read without depth. -/
theorem depth_pos (h : t.Fills depth) : 0 < depth := by
  cases depth with
  | zero =>
    have hgap : IsGap [' '] := ⟨List.cons_ne_nil _ _, by simp [isBlank]⟩
    cases h.read (Nat.le_refl 0) (Halts.valueEnd hgap [])
  | succ depth => exact Nat.succ_pos depth

/-- A call with one argument is read, if the argument is. -/
theorem expression_call (high : Nat) {u : Tree} (hb : IsGap b)
    (hbegins : ∃ next, Token.scan .code (u.source ++ (b ++ [')', ' ', '}', '}'])) = .ok next ∧
      next.BeginsMember)
    (hmember : Part.readAll (expression high) Part.argumentMember
      (u.source ++ (b ++ [')', ' ', '}', '}'])) = .ok ([u], b ++ [')', ' ', '}', '}'])) :
    expression (high + 1) .whole
        (' ' :: 'f' :: '(' :: (u.source ++ (b ++ [')', ' ', '}', '}']))) =
      .ok (Tail.attach (name none ['f'])
        ⟨.call, .function, [node (some .arguments) .argumentList (between [] .round b u)]⟩,
        [' ', '}', '}']) := by
  have hopener : (Terminal.opener .round .code).read
      ('(' :: (u.source ++ (b ++ [')', ' ', '}', '}']))) =
        .ok (leaf none .punctuation [] ['('], u.source ++ (b ++ [')', ' ', '}', '}'])) := rfl
  have hparts := Part.read_between .round hb hopener hbegins hmember
  refine expression_of_tail ('(' :: (u.source ++ (b ++ [')', ' ', '}', '}'])))
    (Primary.read_leaf (t := ⟨.word, [' '], ['f'], _⟩) rfl rfl) (by simp; omega) ?_
  exact Tail.read_some (t := ⟨.leftParen, [], ['('], _⟩) rfl rfl rfl
    (Part.readAll_singleton (Part.read_node hparts))

variable (h : t.Fills depth) (hle : depth ≤ high) (hb : IsGap b)

include h hle hb

/-- The list of an expression is read. -/
theorem read_list :
    expression (high + 1) .whole (' ' :: '[' :: (t.source ++ (b ++ [']', ' ', '}', '}']))) =
      .ok (node none .list (between [' '] .square b (t.under none)), [' ', '}', '}']) := by
  have hends : Halts (b ++ [']', ' ', '}', '}']) := .closer hb .square _
  have hmember := Part.read_operand none (h.read hle hends)
  exact expression_of_primary (Primary.read_node (t := ⟨.leftBracket, [' '], ['['], _⟩) rfl rfl
    (Part.read_between .square hb rfl (h.begins hends) (Part.readAll_singleton hmember)))

/-- A call with an expression as its argument is read. -/
theorem read_argument :
    expression (high + 1) .whole
        (' ' :: 'f' :: '(' :: (t.source ++ (b ++ [')', ' ', '}', '}']))) =
      .ok (Tail.attach (name none ['f']) ⟨.call, .function,
        [node (some .arguments) .argumentList (between [] .round b (t.under none))]⟩,
        [' ', '}', '}']) := by
  have hends : Halts (b ++ [')', ' ', '}', '}']) := .closer hb .round _
  have hlook : Look.named.holds (t.source ++ (b ++ [')', ' ', '}', '}'])) =
      .ok (false, t.source ++ (b ++ [')', ' ', '}', '}'])) := by
    rw [Look.holds_named, h.not_atNamed hends]
  have hmember : Part.readAll (expression high) Part.argumentMember
      (t.source ++ (b ++ [')', ' ', '}', '}'])) =
        .ok ([t.under none], b ++ [')', ' ', '}', '}']) :=
    Part.readAll_singleton (Part.read_choice_no hlook
      (Part.readAll_singleton (Part.read_operand none (h.read hle hends))))
  have hbegins := h.begins hends
  rw [← source_under t none] at hbegins hmember ⊢
  exact expression_call high hb hbegins hmember

/-- A call with an expression as its named argument is read. -/
theorem read_namedArgument :
    let named : Tree := node none .keywordArgument
      [name (some .key) ['k'], touchingMark '=', t.under (some .value)]
    expression (high + 1) .whole
        (' ' :: 'f' :: '(' :: ' ' :: 'k' :: '=' :: (t.source ++ (b ++ [')', ' ', '}', '}']))) =
      .ok (Tail.attach (name none ['f']) ⟨.call, .function,
        [node (some .arguments) .argumentList (between [] .round b named)]⟩,
        [' ', '}', '}']) := by
  intro named
  have hends : Halts (b ++ [')', ' ', '}', '}']) := .closer hb .round _
  obtain ⟨more, hmore⟩ := h.space
  have hvalue := Part.read_operand (some .value) (h.read hle hends)
  rw [hmore, List.cons_append] at hvalue ⊢
  generalize hrest : b ++ [')', ' ', '}', '}'] = rest at hvalue
  have hkey : (Terminal.name .key).read (' ' :: 'k' :: '=' :: ' ' :: (more ++ rest)) =
      .ok (name (some .key) ['k'], '=' :: ' ' :: (more ++ rest)) := rfl
  have hassign : (Terminal.mark .assign "`=`").read ('=' :: ' ' :: (more ++ rest)) =
      .ok (touchingMark '=', ' ' :: (more ++ rest)) := rfl
  have hlook : Look.named.holds (' ' :: 'k' :: '=' :: ' ' :: (more ++ rest)) =
      .ok (true, ' ' :: 'k' :: '=' :: ' ' :: (more ++ rest)) := rfl
  have hmember : Part.readAll (expression high) Part.argumentMember
      (' ' :: 'k' :: '=' :: ' ' :: (more ++ rest)) = .ok ([named], rest) :=
    Part.readAll_singleton (Part.read_choice_yes hlook (Part.readAll_singleton (Part.read_node
      (Part.readAll_cons (Part.read_token hkey)
        (Part.readAll_cons (Part.read_token hassign) (Part.readAll_singleton hvalue))))))
  have hbegins : ∃ next, Token.scan .code (' ' :: 'k' :: '=' :: ' ' :: (more ++ rest)) = .ok next ∧
      next.BeginsMember :=
    ⟨⟨.word, [' '], ['k'], '=' :: ' ' :: (more ++ rest)⟩, rfl,
      IsWord.beginsMember ⟨'k', [], rfl, rfl, nofun⟩ _ _⟩
  have hsource : named.source = ' ' :: 'k' :: '=' :: ' ' :: more := by
    simp [named, source, sources, name, touchingMark, hmore]
  have hcall := expression_call high (u := named) hb
  rw [hsource, hrest] at hcall
  exact hcall hbegins hmember

/-- A subscript with an expression as its index is read. -/
theorem read_index :
    expression (high + 1) .whole
        (' ' :: 'x' :: '[' :: (t.source ++ (b ++ [']', ' ', '}', '}']))) =
      .ok (Tail.attach (name none ['x'])
        ⟨.subscript, .object, between [] .square b (t.under (some .index))⟩, [' ', '}', '}']) := by
  have hends : Halts (b ++ [']', ' ', '}', '}']) := .closer hb .square _
  have hscan : Token.scan .code (b ++ [']', ' ', '}', '}']) =
      .ok ⟨.rightBracket, b, [']'], [' ', '}', '}']⟩ :=
    Token.afterBlanks_gap (t := ⟨.rightBracket, [], [']'], [' ', '}', '}']⟩) hb.2 rfl
  have hopener : (Terminal.mark .leftBracket "`[`").read
      ('[' :: (t.source ++ (b ++ [']', ' ', '}', '}']))) =
        .ok (leaf none .punctuation [] ['['], t.source ++ (b ++ [']', ' ', '}', '}'])) := rfl
  have hindex := Part.read_operand (some .index) (h.read hle hends)
  have hcloser := Terminal.read_of_scan (t := .mark .rightBracket "`]`") hscan rfl
  refine expression_of_tail ('[' :: (t.source ++ (b ++ [']', ' ', '}', '}'])))
    (Primary.read_leaf (t := ⟨.word, [' '], ['x'], _⟩) rfl rfl) (by simp; omega) ?_
  exact Tail.read_some (t := ⟨.leftBracket, [], ['['], _⟩) rfl rfl rfl
    (Part.readAll_cons (Part.read_token hopener)
      (Part.readAll_cons hindex (Part.readAll_singleton (Part.read_token hcloser))))

/-- A dictionary with an expression as the value of a name is read. -/
theorem read_pairValue :
    expression (high + 1) .whole
        (' ' :: '{' :: ' ' :: 'k' :: ' ' :: ':' :: (t.source ++ (b ++ ['}', ' ', '}', '}']))) =
      .ok (node none .dict (between [' '] .curly b (pair (name none ['k']) t)),
        [' ', '}', '}']) := by
  have hends : Halts (b ++ ['}', ' ', '}', '}']) := .closer hb .curly _
  obtain ⟨more, hmore⟩ := h.space
  have hvalue := Part.read_operand (some .value) (h.read hle hends)
  rw [hmore, List.cons_append] at hvalue ⊢
  generalize hrest : b ++ ['}', ' ', '}', '}'] = rest at hvalue
  have hword : IsWord ['k'] := ⟨'k', [], rfl, rfl, nofun⟩
  have hstops := (ends_mark isWhole_colon (by simp) (more ++ rest)).stops .whole
  have hkey := Part.read_operand (some .key)
    (expression_name hword (by decide) (Nat.lt_of_lt_of_le h.depth_pos hle) hstops)
  have hcolon := Terminal.read_mark isWhole_colon "`:`" (more ++ rest)
  have hmember : Part.readAll (expression high) Part.pairMember
      (' ' :: 'k' :: ' ' :: ':' :: ' ' :: (more ++ rest)) =
        .ok ([pair (name none ['k']) t], rest) :=
    Part.readAll_singleton (Part.read_node (Part.readAll_cons hkey
      (Part.readAll_cons (Part.read_token hcolon) (Part.readAll_singleton hvalue))))
  have hbegins : ∃ next, Token.scan .code (' ' :: 'k' :: ' ' :: ':' :: ' ' :: (more ++ rest)) =
      .ok next ∧ next.BeginsMember :=
    ⟨⟨.word, [' '], ['k'], ' ' :: ':' :: ' ' :: (more ++ rest)⟩, rfl, hword.beginsMember _ _⟩
  subst hrest
  exact expression_of_primary (Primary.read_node (t := ⟨.leftBrace, [' '], ['{'], _⟩) rfl rfl
    (Part.read_between .curly hb rfl hbegins hmember))

end Tree.Fills

/-! ## Statements and elements that hold an expression -/

section Items

variable {depth high : Nat} {t : Tree} {b : List Char}

/-- A value that holds an expression is read as an item. -/
theorem Markup.read_value {s : Input} (hb : IsGap b)
    (h : expression high .whole s = .ok (t, b ++ ['}', '}'])) :
    (item false high).parser ('{' :: '{' :: s) = .ok ([t.valueOf none b], []) := by
  rw [item_value]
  exact Part.read_valueOf none (.inl rfl) _ hb.2 h

/-- A statement is read as an item, if the parts of its form are read. -/
theorem Markup.read_statement {w : String} {kind : Kind} {parts : List Part} {ts : List Tree}
    {x : Input} (hb : IsGap b) (hmem : (w, .node none kind parts) ∈ Statement.bodies)
    (hw : IsWord w.toList) (hkind : kind ≠ .rawStatement)
    (h : Part.readAll (expression high) parts (' ' :: (w.toList ++ ' ' :: x)) =
      .ok (ts, b ++ ['%', '}'])) :
    (item false high).parser ('{' :: '%' :: ' ' :: (w.toList ++ ' ' :: x)) =
      .ok ([.statementOf b (.node none kind ts)], []) :=
  item_statement false hkind (Part.read_statementOf hmem hw hb.2 (Part.read_node h))

/-- No word comes before the end of a statement. -/
theorem Part.atWord_statementEnd (hb : IsGap b) (w : String) :
    (atWord w).holds (b ++ ['%', '}']) = .ok (false, b ++ ['%', '}']) := by
  have hscan : Token.scan .code (b ++ ['%', '}']) = .ok ⟨.statementClose, b, ['%', '}'], []⟩ :=
    Token.afterBlanks_gap (t := ⟨.statementClose, [], ['%', '}'], []⟩) hb.2 rfl
  rw [atWord, Look.holds_of_scan hscan]
  rfl

/-- A target is a name before the word `in`. -/
theorem expression_target (hpos : 0 < high) (x : Input) :
    expression high .target (' ' :: 'v' :: ' ' :: 'i' :: 'n' :: ' ' :: x) =
      .ok (.name none ['v'], ' ' :: 'i' :: 'n' :: ' ' :: x) :=
  expression_name (w := ['v']) ⟨'v', [], rfl, rfl, nofun⟩ (by decide) hpos
    (stops_of_scan (t := ⟨.word, [' '], ['i', 'n'], ' ' :: x⟩) rfl rfl)

/-- An iterable is a name before the word `if`. -/
theorem expression_iterable (hpos : 0 < high) (x : Input) :
    expression high .whole (' ' :: 'w' :: ' ' :: 'i' :: 'f' :: ' ' :: x) =
      .ok (.name none ['w'], ' ' :: 'i' :: 'f' :: ' ' :: x) :=
  expression_name (w := ['w']) ⟨'w', [], rfl, rfl, nofun⟩ (by decide) hpos
    (stops_of_scan (t := ⟨.word, [' '], ['i', 'f'], ' ' :: x⟩) rfl rfl)

namespace Tree.Fills

variable (h : t.Fills depth) (hle : depth ≤ high) (hb : IsGap b)

include h hle hb

/-- An expression is read under a field before the end of a statement, behind a space. -/
theorem exists_read_statementEnd (f : Field) :
    ∃ more, t.source = ' ' :: more ∧ (Part.expr f).read (expression high)
      (' ' :: (more ++ (b ++ ['%', '}']))) = .ok ([t.under (some f)], b ++ ['%', '}']) := by
  obtain ⟨more, hmore⟩ := h.space
  have hread := Part.read_operand (some f) (h.read hle (Halts.statementEnd hb []))
  rw [hmore, List.cons_append] at hread
  exact ⟨more, hmore, hread⟩

/-- The statement `if` with an expression is read. -/
theorem read_ifCondition :
    (Markup.item false high).parser ("\x7b% if".toList ++ (t.source ++ (b ++ ['%', '}']))) =
      .ok ([Hole.ifCondition.tree b t], []) := by
  obtain ⟨more, hmore, hcondition⟩ := h.exists_read_statementEnd hle hb .condition
  have hword : IsWord "if".toList := .of_all rfl rfl
  have helif := Part.atWord_statementEnd hb "elif"
  have helse := Part.atWord_statementEnd hb "else"
  rw [hmore]
  refine Markup.read_statement hb (List.mem_of_getElem? (i := 1) rfl) hword nofun ?_
  exact Part.readAll_cons (Part.read_word hword _) (Part.readAll_cons hcondition
    (Part.readAll_cons (Part.read_repeated_nil helif)
      (Part.readAll_singleton (Part.read_choice_no helse Part.readAll_nil))))

/-- The statement `elif` with an expression is read. -/
theorem read_elifCondition :
    (Markup.item false high).parser ("\x7b% elif".toList ++ (t.source ++ (b ++ ['%', '}']))) =
      .ok ([Hole.elifCondition.tree b t], []) := by
  obtain ⟨more, hmore, hcondition⟩ := h.exists_read_statementEnd hle hb .condition
  have hword : IsWord "elif".toList := .of_all rfl rfl
  rw [hmore]
  refine Markup.read_statement hb (List.mem_of_getElem? (i := 2) rfl) hword nofun ?_
  exact Part.readAll_cons (Part.read_word hword _) (Part.readAll_singleton hcondition)

/-- The statement that assigns an expression is read. -/
theorem read_assigned :
    (Markup.item false high).parser ("\x7b% set v =".toList ++ (t.source ++ (b ++ ['%', '}']))) =
      .ok ([Hole.assigned.tree b t], []) := by
  obtain ⟨more, hmore, hvalue⟩ := h.exists_read_statementEnd hle hb .value
  have hword : IsWord "set".toList := .of_all rfl rfl
  have hname := Terminal.read_name .variableName (w := ['v']) (.of_all rfl rfl)
    ('=' :: ' ' :: (more ++ (b ++ ['%', '}'])))
  have hassign := Terminal.read_mark isWhole_assign "`=`" (more ++ (b ++ ['%', '}']))
  rw [hmore]
  refine Markup.read_statement hb (List.mem_of_getElem? (i := 7) rfl) hword nofun ?_
  exact Part.readAll_cons (Part.read_word hword _) (Part.readAll_cons (Part.read_token hname)
    (Part.readAll_cons (Part.read_token hassign) (Part.readAll_singleton hvalue)))

/-- The loop over an expression is read. -/
theorem read_iterable :
    (Markup.item false high).parser ("\x7b% for v in".toList ++ (t.source ++ (b ++ ['%', '}']))) =
      .ok ([Hole.iterable.tree b t], []) := by
  obtain ⟨more, hmore, hiterable⟩ := h.exists_read_statementEnd hle hb .iterable
  have hpos := Nat.lt_of_lt_of_le h.depth_pos hle
  have hword : IsWord "for".toList := .of_all rfl rfl
  have hin : IsWord "in".toList := .of_all rfl rfl
  have htarget := Part.read_operand (some .target)
    (expression_target hpos (more ++ (b ++ ['%', '}'])))
  have hif := Part.atWord_statementEnd hb "if"
  rw [hmore]
  refine Markup.read_statement hb (List.mem_of_getElem? (i := 0) rfl) hword nofun ?_
  exact Part.readAll_cons (Part.read_word hword _) (Part.readAll_cons htarget
    (Part.readAll_cons (Part.read_word hin _) (Part.readAll_cons hiterable
      (Part.readAll_singleton (Part.read_choice_no hif Part.readAll_nil)))))

/-- The loop with an expression as its condition is read. -/
theorem read_loopCondition :
    (Markup.item false high).parser
        ("\x7b% for v in w if".toList ++ (t.source ++ (b ++ ['%', '}']))) =
      .ok ([Hole.loopCondition.tree b t], []) := by
  obtain ⟨more, hmore, hcondition⟩ := h.exists_read_statementEnd hle hb .condition
  have hpos := Nat.lt_of_lt_of_le h.depth_pos hle
  have hword : IsWord "for".toList := .of_all rfl rfl
  have hin : IsWord "in".toList := .of_all rfl rfl
  have hif : IsWord "if".toList := .of_all rfl rfl
  have htarget := Part.read_operand (some .target)
    (expression_target hpos ('w' :: ' ' :: 'i' :: 'f' :: ' ' :: (more ++ (b ++ ['%', '}']))))
  have hiterable := Part.read_operand (some .iterable)
    (expression_iterable hpos (more ++ (b ++ ['%', '}'])))
  have hlook : (Part.atWord "if").holds (' ' :: 'i' :: 'f' :: ' ' :: (more ++ (b ++ ['%', '}']))) =
      .ok (true, ' ' :: 'i' :: 'f' :: ' ' :: (more ++ (b ++ ['%', '}']))) := rfl
  rw [hmore]
  refine Markup.read_statement hb (List.mem_of_getElem? (i := 0) rfl) hword nofun ?_
  exact Part.readAll_cons (Part.read_word hword _) (Part.readAll_cons htarget
    (Part.readAll_cons (Part.read_word hin _) (Part.readAll_cons hiterable
      (Part.readAll_singleton (Part.read_choice_yes hlook
        (Part.readAll_cons (Part.read_word hif _) (Part.readAll_singleton hcondition)))))))

/-- The element with an expression as the value of an attribute is read. -/
theorem read_attributeValue :
    (Markup.item false (high + 1)).parser
        ("<a b=\x7b\x7b".toList ++ (t.source ++ (b ++ ['}', '}', '/', '>']))) =
      .ok ([Hole.attributeValue.tree b t], []) := by
  have hvalue := Part.read_valueOf (some .value) (.inr (.refl Mode.tag))
    "quoted attribute value or `\x7b\x7b`" hb.2 (h.read hle (Halts.valueEnd hb ['/', '>']))
  generalize hrest : t.source ++ (b ++ ['}', '}', '/', '>']) = rest at hvalue
  have hopener := Markup.read_opener_of_isAlpha (c := 'a') rfl
    (' ' :: 'b' :: '=' :: '{' :: '{' :: rest)
  have hattribute : Markup.attributePart.read (expression high)
      (' ' :: 'b' :: '=' :: '{' :: '{' :: rest) = .ok ([.node none .tagAttribute
        [.leaf (some .name) .attributeName [' '] ['b'], .touchingMark '=',
          t.valueOf (some .value) b]], ['/', '>']) := by
    refine Part.read_node (Part.readAll_cons (Part.read_token (s := _) rfl)
      (Part.readAll_singleton (Part.read_choice_yes rfl (Part.readAll_cons (Part.read_token rfl)
        (Part.readAll_singleton (Part.read_choice_no rfl (Part.readAll_singleton hvalue)))))))
  have htag : Part.readAll (expression high) Markup.header
      ('a' :: ' ' :: 'b' :: '=' :: '{' :: '{' :: rest) = .ok ([.leaf (some .name) .tagName [] ['a'],
        .node none .tagAttribute [.leaf (some .name) .attributeName [' '] ['b'], .touchingMark '=',
          t.valueOf (some .value) b]], ['/', '>']) :=
    Part.readAll_cons (Part.read_token (s := _) rfl) (Part.readAll_singleton
      (Part.read_repeated_cons rfl (Part.readAll_singleton hattribute) (by simp)
        (Part.read_repeated_nil rfl)))
  have hstop : Part.readAll (expression high) Markup.headerEnd ['/', '>'] =
      .ok ([.leaf none .punctuation [] ['/', '>']], []) := rfl
  have hself : ∃ last ∈ [leaf none .punctuation [] ['/', '>']], last.text = ['/', '>'] :=
    ⟨_, .head _, rfl⟩
  show (Markup.item false (high + 1)
    ('<' :: 'a' :: ' ' :: 'b' :: '=' :: '{' :: '{' :: rest)).result = _
  rw [Markup.item_eq, Markup.itemOf_eq]
  exact Reading.parser_single_eq_ok.2
    ⟨_, Markup.element_of_selfClosing hopener htag hstop hself, rfl⟩

end Tree.Fills

/-- A place that an expression fills is read as an item, with the tree of the expression in it. -/
theorem Hole.read_fill (hole : Hole) (h : t.Fills depth) (hle : depth ≤ high) (hb : IsGap b) :
    (Markup.item false (high + 1)).parser (hole.before ++ (t.source ++ (b ++ hole.after))) =
      .ok ([hole.tree b t], []) := by
  have hgap : IsGap [' '] := ⟨List.cons_ne_nil _ _, by simp [isBlank]⟩
  have hle' : depth ≤ high + 1 := Nat.le_succ_of_le hle
  cases hole with
  | value => exact Markup.read_value hb (h.read hle' (Halts.valueEnd hb []))
  | ifCondition => exact h.read_ifCondition hle' hb
  | elifCondition => exact h.read_elifCondition hle' hb
  | assigned => exact h.read_assigned hle' hb
  | iterable => exact h.read_iterable hle' hb
  | loopCondition => exact h.read_loopCondition hle' hb
  | attributeValue => exact h.read_attributeValue hle hb
  | listItem => exact Markup.read_value hgap (h.read_list hle hb)
  | argument => exact Markup.read_value hgap (h.read_argument hle hb)
  | namedArgument => exact Markup.read_value hgap (h.read_namedArgument hle hb)
  | index => exact Markup.read_value hgap (h.read_index hle hb)
  | pairValue => exact Markup.read_value hgap (h.read_pairValue hle hb)

end Items

end Stencil
