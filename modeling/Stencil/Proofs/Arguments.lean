import Stencil.Proofs.Contexts
import Stencil.Proofs.Limits
import Stencil.Proofs.Members
import Stencil.Proofs.RawBlocks

/-!
# Arguments

Whether an argument is a named one is decided by looking at two tokens. In the source that means
that a name comes first, blanks or none, and a sign of assignment that is no sign of equality
(`Named`). Every argument of an argument list stands where it was decided so: it is a named one if a
name and the sign are to be read there, and otherwise the expression that is to be read there
(`Tree.ArgumentAt`). Argument lists have this property by how they are read
(`Tree.ofMarkup_argumentsAt`), so that it holds of all of them in a template
(`Template.exists_argument`).
-/

namespace Stencil

/-! ## Looking ahead -/

/-- Whether a name comes first, then blanks or none, and then a sign of assignment that is no sign
of equality. -/
def Named (s : Input) : Prop :=
  ∃ name blanks rest, s = name ++ (blanks ++ '=' :: rest) ∧ IsWord name ∧
    (∀ b ∈ blanks, isBlank b = true) ∧ rest.head? ≠ some '='

namespace Token

variable {s rest : Input} {t : Token}

/-- A word is read up to where it does not go on. -/
theorem scanCode_word {w : List Char} (hw : IsWord w) (operand : Bool)
    (hrest : ∀ c ∈ rest.head?, isWordChar c = false) :
    scanCode operand (w ++ rest) = .ok ⟨.word, [], w, rest⟩ := by
  obtain ⟨c, more, rfl, hc, hmore⟩ := hw
  obtain ⟨hdigit, hplus, hminus, hpoint, hdouble, hsingle⟩ := of_isWordStart hc
  have hstarts : Numeral.starts (c :: (more ++ rest)) = false := by
    simp [Numeral.starts, Numeral.startsUnsigned, hdigit, hplus, hminus, hpoint]
  have hstop : rest.takeWhile isWordChar = [] ∧ rest.dropWhile isWordChar = rest := by
    cases rest with
    | nil => exact ⟨rfl, rfl⟩
    | cons d rest =>
      have hd : ¬isWordChar d = true := by simp [hrest d rfl]
      exact ⟨List.takeWhile_cons_of_neg hd, List.dropWhile_cons_of_neg hd⟩
  rw [List.cons_append, scanCode.eq_3 _ _ _ fun _ hc _ => hminus hc, hstarts,
    List.takeWhile_append_of_pos hmore, List.dropWhile_append_of_pos hmore, hstop.1, hstop.2,
    List.append_nil]
  simp [hdigit, hdouble, hsingle, hc]

/-- A sign of assignment is no sign of equality. -/
theorem scanCode_assign (h : rest.head? ≠ some '=') :
    scanCode false ('=' :: rest) = .ok ⟨.assign, [], ['='], rest⟩ := by
  cases rest with
  | nil => rfl
  | cons c rest =>
    have hc : '=' ≠ c := fun hc => h (congrArg some hc.symm)
    have hsymbol : scanSymbol? ('=' :: c :: rest) = some ⟨.assign, [], ['='], c :: rest⟩ := by
      simp [scanSymbol?, symbols, hc]
    rw [scanCode.eq_3 _ _ _ fun _ hc _ => absurd hc (by decide), hsymbol]
    rfl

/-- A token that is a word is written as one. -/
theorem isWord_text_of_scan (h : scan .code s = .ok t) (hkind : t.kind = .word) :
    IsWord t.text := by
  have hwritten := afterBlanks_written h
  rw [hkind] at hwritten
  have hsymbols : ∀ symbol ∈ symbols, symbol.2 ≠ .word := by decide
  generalize t.text = text at hwritten
  cases hwritten with
  | number hnumber => simp at hnumber
  | word hc hmore => exact ⟨_, _, rfl, hc, hmore⟩
  | symbol hmem => exact absurd rfl (hsymbols _ hmem)

/-- A sign of assignment is written as one, and it is no sign of equality. -/
theorem text_of_scan_assign (h : scan .code s = .ok t) (hkind : t.kind = .assign) :
    t.text = ['='] ∧ t.rest.head? ≠ some '=' := by
  have hwritten := afterBlanks_written h
  rw [hkind] at hwritten
  have hsymbols : ∀ symbol ∈ symbols, symbol.2 = .assign → symbol.1 = ['='] := by decide
  have htext : t.text = ['='] := hsymbols _ (hwritten.mem_symbols (by decide)) rfl
  refine ⟨htext, fun hequal => ?_⟩
  obtain ⟨rest, hrest⟩ : ∃ rest, t.rest = '=' :: rest := by
    cases hrest : t.rest with
    | nil => simp [hrest] at hequal
    | cons c rest => exact ⟨rest, by simpa [hrest] using hequal⟩
  -- Two signs would be read as one token.
  obtain ⟨next, hnext, hsame, -⟩ := exists_scan_of_afterBlanks h
  have hstart := (afterBlanks_start scanCode_start h).2
  rw [start, htext, hrest] at hstart
  rw [← hstart] at hnext
  rw [← Except.ok.inj hnext, hkind] at hsame
  cases hsame

end Token

/-- A named argument is found by its name and the sign behind it. -/
theorem atNamed_iff_named (s : Input) : atNamed s = true ↔ Named (s.dropWhile isBlank) := by
  constructor
  · intro h
    unfold atNamed at h
    split at h
    case h_2 => cases h
    case h_1 key hkey =>
      split at h
      case h_2 => simp at h
      case h_1 sign hsign =>
        simp only [Bool.and_eq_true, decide_eq_true_eq] at h
        obtain ⟨htext, hrest⟩ := Token.text_of_scan_assign hsign h.2
        have hblanks := (Token.afterBlanks_start Token.scanCode_start hsign).2
        have hstart := (Token.afterBlanks_start Token.scanCode_start hkey).2
        refine ⟨key.text, key.rest.takeWhile isBlank, sign.rest, ?_,
          Token.isWord_text_of_scan hkey h.1,
          fun b hb => List.all_eq_true.1 List.all_takeWhile b hb, hrest⟩
        rw [Token.start, htext, List.singleton_append] at hblanks
        rw [hblanks, List.takeWhile_append_dropWhile, ← hstart, Token.start]
  · rintro ⟨name, blanks, rest, hs, hname, hblanks, hrest⟩
    have hstop : ∀ c ∈ (blanks ++ '=' :: rest).head?, isWordChar c = false := by
      intro c hc
      cases blanks with
      | nil =>
        obtain rfl : '=' = c := by simpa using hc
        rfl
      | cons b blanks =>
        obtain rfl : b = c := by simpa using hc
        exact isWordChar_of_isBlank (hblanks b List.mem_cons_self)
    have hkey : Token.scan .code s =
        .ok ⟨.word, s.takeWhile isBlank, name, blanks ++ '=' :: rest⟩ := by
      rw [Token.scan, Token.afterBlanks, hs, Token.scanCode_word hname false hstop]
    have hsign : Token.scan .code (blanks ++ '=' :: rest) = .ok ⟨.assign, blanks, ['='], rest⟩ :=
      Token.afterBlanks_gap hblanks (Token.scanCode_assign hrest)
    simp [atNamed, hkey, hsign]

/-! ## Rows -/

namespace Tree

variable {P : Tree → Input → Prop} {rest : Input} {ts : List Tree}

/-- What holds of each of some trees in a row with what follows it. -/
def EachAt (P : Tree → Input → Prop) (rest : Input) : List Tree → Prop
  | [] => True
  | t :: ts => P t (sources ts ++ rest) ∧ EachAt P rest ts

/-- What holds of each tree in two rows is what holds in each, the other following the one. -/
theorem eachAt_append {as bs : List Tree} :
    EachAt P rest (as ++ bs) ↔ EachAt P (sources bs ++ rest) as ∧ EachAt P rest bs := by
  induction as with
  | nil => simp [EachAt]
  | cons t ts ih => simp [EachAt, ih, and_assoc]

/-- The node of one of some trees that are placed is this tree, placed where its characters stand,
and what holds of each of them holds of it with what follows it. -/
theorem exists_of_mem_placeAll {id pos : Nat} {n : Node} (hP : EachAt P rest ts)
    (h : n ∈ placeAll id pos ts) :
    ∃ (u : Tree) (number : Nat) (before after : List Char),
      n = u.place number (pos + byteLength before) ∧ sources ts = before ++ (u.source ++ after) ∧
        P u (after ++ rest) := by
  induction ts generalizing id pos with
  | nil => cases h
  | cons t ts ih =>
    rw [placeAll_cons] at h
    rcases List.mem_cons.1 h with rfl | h
    · exact ⟨t, id, [], sources ts, rfl, rfl, hP.1⟩
    · obtain ⟨u, number, before, after, rfl, hsource, hu⟩ := ih hP.2 h
      refine ⟨u, number, t.source ++ before, after, ?_, ?_, hu⟩
      · rw [byteLength_append, Nat.add_assoc]
      · rw [sources, hsource, List.append_assoc]

end Tree

/-- What a parser reads are trees each of which has a property. -/
def Parser.ReadsEach (x : Parser (List Tree)) (P : Tree → Input → Prop) : Prop :=
  ∀ ⦃s ts rest⦄, x s = .ok (ts, rest) → Tree.EachAt P rest ts

namespace Part

variable {P : Tree → Input → Prop} {operand : Extent → Parser Tree}

/-- A part and those after it. -/
theorem readAll_cons_each (ho : Operands operand) {p : Part} {ps : List Part}
    (hp : (p.read operand).ReadsEach P) (hps : (readAll operand ps).ReadsEach P) :
    (readAll operand (p :: ps)).ReadsEach P := by
  intro s ts rest h
  obtain ⟨first, s', more, hfirst, hmore, rfl⟩ := exists_of_readAll_cons h
  have hsource := readAll_append ho.source ps hmore
  subst hsource
  exact Tree.eachAt_append.2 ⟨hp hfirst, hps hmore⟩

/-- No parts. -/
theorem readAll_nil_each : (readAll operand []).ReadsEach P := by
  intro s ts rest h
  obtain ⟨rfl, rfl⟩ := Parser.pure_eq_ok.1 h
  trivial

/-- Parts in two rows. -/
theorem readAll_append_each (ho : Operands operand) {ps qs : List Part}
    (hps : (readAll operand ps).ReadsEach P) (hqs : (readAll operand qs).ReadsEach P) :
    (readAll operand (ps ++ qs)).ReadsEach P := by
  intro s ts rest h
  obtain ⟨first, s', more, hfirst, hmore, rfl⟩ := exists_of_readAll_append h
  have hsource := readAll_append ho.source qs hmore
  subst hsource
  exact Tree.eachAt_append.2 ⟨hps hfirst, hqs hmore⟩

/-- A token whose leaves have the property. -/
theorem read_token_each {t : Terminal} (ht : t.Satisfies P) :
    ((token t).read operand).ReadsEach P := by
  intro s ts rest h
  simp only [read, Parser.bind_eq_ok, Parser.pure_eq_ok] at h
  obtain ⟨leaf, _, h, rfl, rfl⟩ := h
  exact ⟨ht h, trivial⟩

/-- A choice between parts. -/
theorem read_choice_each {look : Look} {yes no : List Part}
    (hyes : (readAll operand yes).ReadsEach P) (hno : (readAll operand no).ReadsEach P) :
    ((choice look yes no).read operand).ReadsEach P := by
  intro s ts rest h
  simp only [read, Parser.bind_eq_ok] at h
  obtain ⟨found, _, _, h⟩ := h
  split at h
  · exact hyes h
  · exact hno h

/-- Parts again and again. -/
theorem read_repeated_each (ho : Operands operand) {look : Look} {parts : List Part}
    (h : (readAll operand parts).ReadsEach P) :
    ((repeated look parts).read operand).ReadsEach P := by
  intro s ts rest hread
  rw [read_repeated] at hread
  obtain ⟨rounds, _, hrounds, hflat⟩ := Parser.bind_eq_ok.1 hread
  obtain ⟨rfl, rfl⟩ := Parser.pure_eq_ok.1 hflat
  refine Parser.many_row (Q := Tree.EachAt P) (fun _ => trivial)
    (fun has hbs => Tree.eachAt_append.2 ⟨has, hbs⟩) (fun {s a rest} hround => ?_) hrounds
  obtain ⟨found, _, hlook, hround⟩ := Parser.bind_eq_ok.1 hround
  obtain rfl := Look.holds_rest hlook
  split at hround
  · obtain ⟨ts, _, hts, hround⟩ := Parser.bind_eq_ok.1 hround
    obtain ⟨rfl, rfl⟩ := Parser.pure_eq_ok.1 hround
    exact ⟨readAll_append ho.source parts hts, h hts⟩
  · obtain ⟨rfl, rfl⟩ := Parser.pure_eq_ok.1 hround
    exact ⟨rfl, trivial⟩

/-- Members between brackets, if the marks there have the property too. -/
theorem readAll_bracketed_each (ho : Operands operand)
    (hmark : ∀ gap text rest, P (.leaf none .punctuation gap text) rest) {member : List Part}
    (hmember : (readAll operand member).ReadsEach P) (b : Bracket) (mode : Mode) :
    (readAll operand (bracketed b mode member)).ReadsEach P := by
  have htoken : ∀ t : Terminal, t.field = none → t.kind = .punctuation →
      ((token t).read operand).ReadsEach P := by
    refine fun t hfield hkind => read_token_each fun s leaf rest h => ?_
    obtain ⟨gap, text, rfl⟩ := (Terminal.read_leaf h).eq
    rw [hfield, hkind]
    exact hmark gap text rest
  have hnil := @readAll_nil_each P operand
  have hone : ∀ {p : Part}, (p.read operand).ReadsEach P → (readAll operand [p]).ReadsEach P :=
    fun hp => readAll_cons_each ho hp hnil
  have hcomma := htoken (.mark .comma "`,`") rfl rfl
  have hclosed : ∀ {parts : List Part}, (readAll operand parts).ReadsEach P →
      ((choice (.next .code (.closer b)) [] parts).read operand).ReadsEach P :=
    fun hparts => read_choice_each hnil hparts
  have hmore : ((repeated atComma [comma, choice (.next .code (.closer b)) [] member]).read
      operand).ReadsEach P :=
    read_repeated_each ho (readAll_cons_each ho hcomma (hone (hclosed hmember)))
  have hrow : ((choice atComma [comma] [choice (.next .code (.closer b)) []
      (member ++ [repeated atComma [comma, choice (.next .code (.closer b)) [] member]])]).read
      operand).ReadsEach P :=
    read_choice_each (hone hcomma) (hone (hclosed (readAll_append_each ho hmember (hone hmore))))
  exact readAll_cons_each ho (htoken (.opener b mode) rfl rfl)
    (readAll_cons_each ho hrow (hone (htoken (.closer b) rfl rfl)))

end Part

/-! ## Where expressions begin -/

/-- A token of code is read with all blanks before it. -/
theorem Terminal.gap_of_read {t : Terminal} (ht : t.mode ∈ Token.spacedModes) {s rest : Input}
    {leaf : Tree} (h : t.read s = .ok (leaf, rest)) : leaf.gap = s.takeWhile isBlank := by
  obtain ⟨next, taken, hscan, htake, rfl, rfl⟩ := exists_of_read h
  rw [← (Token.scan_blanks ht hscan).1]
  exact (Pattern.take?_start htake).1

/-- A row that begins with a token of code is read with all blanks before it. -/
theorem Part.gaps_of_readAll {operand : Extent → Parser Tree} {t : Terminal} {ps : List Part}
    (ht : t.mode ∈ Token.spacedModes) {s rest : Input} {ts : List Tree}
    (h : readAll operand (token t :: ps) s = .ok (ts, rest)) :
    Tree.gaps ts = s.takeWhile isBlank := by
  obtain ⟨first, s', more, hfirst, -, rfl⟩ := exists_of_readAll_cons h
  simp only [read, Parser.bind_eq_ok, Parser.pure_eq_ok] at hfirst
  obtain ⟨leaf, _, hleaf, rfl, rfl⟩ := hfirst
  exact Terminal.gap_of_read ht hleaf

/-- A primary is read with all blanks before it, and under no field. -/
theorem Primary.gap_of_read {operand : Extent → Parser Tree} {s rest : Input} {t : Tree}
    (h : Primary.read operand s = .ok (t, rest)) :
    t.gap = s.takeWhile isBlank ∧ t.field = none := by
  cases Primary.read_eq_ok.1 h with
  | leaf hscan _ => exact ⟨(Token.scan_blanks (by decide) hscan).1, rfl⟩
  | node _ hform hparts =>
    have hmode : Mode.operand ∈ Token.spacedModes := by decide
    refine ⟨?_, rfl⟩
    rcases of?_eq_node hform with h | h | ⟨h, -⟩
    all_goals
      cases h
      exact Part.gaps_of_readAll hmode hparts

/-- An expression is read with all blanks before it, and under no field. -/
theorem expression_gap {depth : Nat} {extent : Extent} {s rest : Input} {t : Tree}
    (h : expression depth extent s = .ok (t, rest)) :
    t.gap = s.takeWhile isBlank ∧ t.field = none := by
  cases depth with
  | zero => cases h
  | succ depth =>
    obtain ⟨head, s', tails, hhead, -, rfl⟩ := exists_of_expression h
    -- Tails stand behind the primary.
    refine List.foldlRecOn (motive := fun t => t.gap = s.takeWhile isBlank ∧ t.field = none) tails
      Tail.attach (Primary.gap_of_read hhead) fun t ht tail _ => ⟨?_, rfl⟩
    rw [← ht.1]
    cases t <;> rfl

/-! ## Arguments -/

/-- What an argument is by what is to be read where its blanks begin: a named one if a name and a
sign of assignment are, and otherwise the expression that is, nesting no deeper than a limit. -/
structure Tree.ArgumentAt (limit : Nat) (t : Tree) (rest : Input) : Prop where
  named : t.kind = .keywordArgument ↔ atNamed (t.source ++ rest) = true
  expression : atNamed (t.source ++ rest) = false →
    Stencil.expression limit .whole (t.source ++ rest) = .ok (t, rest)
  gap : t.gap = (t.source ++ rest).takeWhile isBlank

/-- What holds of the arguments in an argument list: of all children but the marks between them. -/
def Tree.ArgumentsAt (limit : Nat) (t : Tree) (rest : Input) : Prop :=
  t.kind = .argumentList →
    EachAt (fun c rest => c.kind ≠ .punctuation → c.ArgumentAt limit rest) rest t.children

namespace Part

/-- An argument, as the grammar has it. -/
def argument : Part :=
  .choice .named
    [.node none .keywordArgument
      [.token (.name .key), .token (.mark .assign "`=`"), .operand (some .value) .whole]]
    [.operand none .whole]

/-- Argument lists are arguments between round brackets. -/
theorem argumentList_eq : argumentList = bracketed .round .code [argument] := rfl

/-- An argument is read for what it is. -/
theorem read_argument_each {limit depth : Nat} (hdepth : depth ≤ limit) :
    (argument.read (Stencil.expression depth)).ReadsEach
      fun t rest => t.kind ≠ .punctuation → t.ArgumentAt limit rest := by
  intro s ts rest h
  have ho := operands_expression depth
  have hholds : Look.named.holds s = .ok (atNamed s, s) := rfl
  rw [argument, read, Parser.bind_of_ok hholds] at h
  split at h
  · -- A name and a sign of assignment come next.
    rename_i hnamed
    obtain ⟨inner, hinner, rfl⟩ : ∃ inner,
        readAll (Stencil.expression depth) _ s = .ok (inner, rest) ∧
          ts = [.node none .keywordArgument inner] := by
      have h := read_of_readAll_singleton h
      simp only [read, Parser.bind_eq_ok, Parser.pure_eq_ok] at h
      obtain ⟨inner, _, hinner, rfl, rfl⟩ := h
      exact ⟨inner, hinner, rfl⟩
    have hsource := readAll_append ho.source _ hinner
    refine ⟨fun _ => ?_, trivial⟩
    have hs : (Tree.node none .keywordArgument inner).source ++ (Tree.sources [] ++ rest) = s :=
      hsource
    constructor
    · rw [hs]
      exact iff_of_true rfl hnamed
    · rw [hs, hnamed]
      exact fun h => absurd h (by decide)
    · rw [hs]
      exact gaps_of_readAll (by decide) hinner
  · rename_i hnamed
    have hnamed : atNamed s = false := by simpa using hnamed
    obtain ⟨t, ht, rfl⟩ := exists_of_read_operand (read_of_readAll_singleton h)
    obtain ⟨hgap, hfield⟩ := expression_gap ht
    have hself : t.under none = t := by
      cases t <;> cases hfield <;> rfl
    have hs : t.source ++ (Tree.sources [] ++ rest) = s := ho.source ht
    -- A higher limit makes no difference to what is read.
    have hread : Stencil.expression limit .whole s = .ok (t, rest) := by
      rcases expression_limits hdepth .whole s with hsame | ⟨e, he, -⟩
      · rw [← hsame, ht]
      · rw [ht] at he
        cases he
    rw [hself]
    refine ⟨fun _ => ?_, trivial⟩
    constructor
    · rw [hs, hnamed]
      refine iff_of_false (fun hkind => ?_) (by decide)
      have hexpression := (expression_formed depth ht).1
      rw [hkind] at hexpression
      cases hexpression
    · rw [hs]
      exact fun _ => hread
    · rw [hs]
      exact hgap

end Part

/-- Argument lists have this property by how they are read. -/
theorem Tree.ofMarkup_argumentsAt (limit : Nat) : OfMarkup limit (ArgumentsAt limit) where
  under {t _ _} h hkind := by
    rw [kind_under] at hkind
    cases t <;> exact h hkind
  node hne hkind := absurd hkind hne
  arguments {depth _ _ _ _} hdepth h _ := by
    have ho := Part.operands_expression depth
    have hmember := Part.readAll_cons_each ho (Part.read_argument_each hdepth) Part.readAll_nil_each
    have hmark : ∀ (gap text : List Char) (rest : Input),
        (Tree.leaf none .punctuation gap text).kind ≠ .punctuation →
          (Tree.leaf none .punctuation gap text).ArgumentAt limit rest :=
      fun _ _ _ hkind => absurd rfl hkind
    rw [Part.argumentList_eq] at h
    exact Part.readAll_bracketed_each ho hmark hmember .round .code h
  leaf _ _ _ := trivial
  primary _ _ _ _ _ _ h _ := by
    obtain ⟨gap, text, rfl⟩ := (Terminal.read_leaf h).eq
    trivial
  tail _ _ _ _ _ _ h _ := by
    obtain ⟨gap, text, rfl⟩ := (Terminal.read_leaf h).eq
    trivial
  other _ hne hkind := absurd hkind hne

/-- The text of an argument begins with what is to be read behind its blanks. -/
theorem Tree.ArgumentAt.named_iff {limit : Nat} {t : Tree} {rest : Input}
    (h : t.ArgumentAt limit rest) : atNamed (t.source ++ rest) = true ↔ Named (t.text ++ rest) := by
  have hsplit : t.gap ++ (t.source ++ rest).dropWhile isBlank = t.gap ++ (t.text ++ rest) := by
    rw [h.gap, List.takeWhile_append_dropWhile, ← h.gap, ← List.append_assoc, gap_append_text]
  rw [atNamed_iff_named, List.append_cancel_left hsplit]

namespace Template

/-- An argument in a template is a named one if a name and a sign of assignment stand where its text
begins. Otherwise it is the expression that is read where its blanks begin. -/
theorem exists_argument (options : Options) (source : Input) {list n : Node}
    (hlist : list ∈ (parse options source).tree.root.descendants)
    (hkind : list.kind = .argumentList) (hn : n ∈ list.children) (hmark : n.kind ≠ .punctuation) :
    ∃ (t : Tree) (number : Nat) (before after : List Char),
      n = t.place number (byteLength before) ∧ source = before ++ (t.source ++ after) ∧
        (n.kind = .keywordArgument ↔ Named (dropBytes n.start source)) ∧
        (¬Named (dropBytes n.start source) →
          expression options.maxDepth .whole (t.source ++ after) = .ok (t, after)) := by
  obtain ⟨u, _, before, after, rfl, hsplit, hu⟩ := Tree.exists_of_mem_descendants
    (parse_everyAt_of options (Tree.ofMarkup_argumentsAt options.maxDepth) source) hlist
  rw [Node.kind_place] at hkind
  rw [Tree.place_children] at hn
  obtain ⟨t, number, front, back, rfl, hrow, ht⟩ := Tree.exists_of_mem_placeAll (hu hkind) hn
  rw [Node.kind_place] at hmark ⊢
  obtain ⟨hnamed, hexpression, hgap⟩ := ht hmark
  -- The list has children, so that it is no token.
  obtain ⟨f, kind, ts, rfl⟩ : ∃ f kind ts, u = .node f kind ts := by
    cases u with
    | leaf => cases hn
    | node f kind ts => exact ⟨f, kind, ts, rfl⟩
  have hsource : source = (before ++ front) ++ (t.source ++ (back ++ after)) := by
    rw [← source_tree options source, hsplit, Tree.source, show Tree.sources ts = _ from hrow]
    simp only [List.append_assoc]
  rw [List.append_nil] at hnamed hexpression hgap
  have hstart : dropBytes (t.place number (0 + byteLength before + byteLength front)).start source =
      t.text ++ (back ++ after) := by
    rw [Tree.place_start, Nat.zero_add, ← byteLength_append, ← byteLength_append, hsource,
      ← Tree.gap_append_text t, List.append_assoc t.gap, ← List.append_assoc, dropBytes_append]
  have hat := Tree.ArgumentAt.named_iff ⟨hnamed, hexpression, hgap⟩
  refine ⟨t, number, before ++ front, back ++ after, ?_, hsource, ?_, ?_⟩
  · rw [Nat.zero_add, byteLength_append]
  · rw [hstart, hnamed, hat]
  · rw [hstart, ← hat]
    exact fun hnot => hexpression (by simpa using hnot)

end Template

end Stencil
