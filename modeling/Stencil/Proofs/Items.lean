import Stencil.Proofs.Schema
import Stencil.Proofs.Spacing
import Stencil.Proofs.Within
import Stencil.Template

/-!
# What templates are made of

A template is a row of items, and so is the body of an element. `Tree.Item` says what an item is to
those who put it into a row: it begins where the one before it ends, and the blanks in it stand
where they may. Reading an item answers items that hold what was read (`Markup.item_readsItems`),
and an error that stands for a malformed item is one too. Every step of a template leaves less than
there was, and what is said of a template is shown step by step (`Template.steps_induction`): its
steps hold every character of it (`Template.steps_items`), and its tree is a row of items
(`Template.parse_items`).
-/

namespace Stencil

/-- A tree that may stand in a row of items. -/
structure Tree.Item (t : Tree) : Prop where
  kind : t.kind.isItem = true
  field : t.field = none
  /-- The tree begins where the one before it ends. -/
  gap : t.gap = []
  spaced : t.Every Tree.Spaced
  formed : t.Every Tree.Formed

/-! ## Expressions -/

/-- The parts of a primary are solid. -/
theorem Primary.isSolid_of_of? {t : Token} {kind : Kind} {parts : List Part}
    (h : Primary.of? t = some (.node kind parts)) : (Part.node none kind parts).isSolid = true := by
  rcases of?_eq_node h with h | h | ⟨h, hkind⟩
  · cases h
    decide
  · cases h
    decide
  · cases h
    rcases hkind with hkind | hkind | hkind <;> rw [hkind] <;> decide

/-- A token that is a primary is a leaf with text. -/
theorem Primary.leaf_spaced_of_of? {mode : Mode} {s : Input} {t : Token} {kind : Kind}
    (hscan : Token.scan mode s = .ok t) (h : Primary.of? t = some (.leaf kind)) :
    (t.leaf none kind).Spaced := by
  have htext : t.text ≠ [] := by
    apply Token.text_ne_nil hscan
    · intro hend
      simp [of?, hend] at h
    · intro hraw
      simp [of?, hraw] at h
  refine ⟨?_, Token.isBlank_of_mem_gap hscan, htext⟩
  unfold of? at h
  repeat' split at h
  all_goals cases h
  all_goals rfl

/-- The parts of a tail are solid, and blanks may stand anywhere in the node that it makes. -/
theorem Tail.isSolid_of_of? {t : Token} {tail : Tail Part} (h : Tail.of? t = some tail) :
    tail.kind.isLoose = true ∧ Part.allSolid tail.more = true := by
  -- The token of an operator has text, whichever it is.
  have hcomparison : ∀ k ∈ comparisonKinds, (Pattern.kind k).hasText = true := by decide
  have harithmetic : ∀ k ∈ arithmeticKinds, (Pattern.kind k).hasText = true := by decide
  have hbinary : ∀ kind, (Pattern.kind t.kind).hasText = true →
      Part.allSolid (binary kind t).more = true := by
    intro kind htext
    simp [binary, Part.allSolid, Part.isSolid, Kind.isLoose, htext]
  rcases of?_eq_some h with ⟨rfl, _⟩ | ⟨rfl, _⟩ | ⟨rfl, _⟩ | ⟨rfl, hkind⟩ | ⟨rfl, hkind⟩
  · decide
  · decide
  · decide
  · refine ⟨rfl, hbinary _ ?_⟩
    rcases hkind with hkind | hword
    · exact hcomparison _ hkind
    · have hkind : t.kind = .word := by simp_all [Token.isWord]
      rw [hkind]
      rfl
  · exact ⟨rfl, hbinary _ (harithmetic _ hkind)⟩

/-- The blanks in a primary stand where they may, if those in operands do. -/
theorem Primary.read_spaced {operand : Extent → Parser Tree} {s rest : Input} {t : Tree}
    (ho : ∀ {extent s t rest}, operand extent s = .ok (t, rest) → t.Every Tree.Spaced)
    (h : Primary.read operand s = .ok (t, rest)) :
    t.Every Tree.Spaced := by
  rcases read_yields (E := fun _ t => t.Every Tree.Spaced) ho h with
    ⟨next, kind, hscan, hform, rfl⟩ | ⟨next, kind, parts, hform, hyields⟩
  · exact leaf_spaced_of_of? hscan hform
  · exact (Part.every_spaced (fun h => h) (.node none kind parts) (isSolid_of_of? hform) hyields).1

/-- The blanks in an expression that a tail extends stand where they may, if those in operands
do. -/
theorem Tail.attach_spaced {operand : Extent → Parser Tree} {extent : Extent} {s rest : Input}
    {tail : Tail Tree} {t : Tree}
    (ho : ∀ {extent s t rest}, operand extent s = .ok (t, rest) → t.Every Tree.Spaced)
    (h : Tail.read operand extent s = .ok (some tail, rest)) (ht : t.Every Tree.Spaced) :
    (attach t tail).Every Tree.Spaced := by
  obtain ⟨next, form, -, -, hof, hkind, -, hyields⟩ :=
    read_yields (E := fun _ t => t.Every Tree.Spaced) ho h
  obtain ⟨hloose, hsolid⟩ := isSolid_of_of? hof
  rw [← hkind] at hloose
  have hmore := Part.everyOf_spaced (fun h => h) form.more hsolid hyields
  exact ⟨.of_isLoose hloose (List.cons_ne_nil _ _), ht.under Tree.Spaced.under _, hmore⟩

/-- The blanks in an expression stand where they may. -/
theorem expression_spaced (depth : Nat) {extent : Extent} {s rest : Input} {t : Tree}
    (h : expression depth extent s = .ok (t, rest)) : t.Every Tree.Spaced :=
  expression_induction Primary.read_spaced Tail.attach_spaced depth h

/-! ## Items -/

namespace Part

variable {operand : Extent → Parser Tree}

/-- What operands have to be for the items that they stand in. -/
structure Operands (operand : Extent → Parser Tree) : Prop where
  source : ∀ {extent s t rest}, operand extent s = .ok (t, rest) → t.source ++ rest = s
  spaced : ∀ {extent s t rest}, operand extent s = .ok (t, rest) → t.Every Tree.Spaced
  formed : ∀ {extent s t rest}, operand extent s = .ok (t, rest) → t.FormedExpression
  within : ∀ extent, (operand extent).Within

/-- Expressions may stand in items. -/
theorem operands_expression (depth : Nat) : Operands (expression depth) :=
  ⟨expression_append depth, expression_spaced depth, expression_formed depth,
    expression_within depth⟩

/-- A solid production is read into trees whose blanks stand where they may. -/
theorem readAll_spaced (ho : Operands operand) {ps : List Part} (hps : allSolid ps = true)
    {s rest : Input} {ts : List Tree} (h : readAll operand ps s = .ok (ts, rest)) :
    Tree.EveryOf Tree.Spaced ts :=
  everyOf_spaced (fun h => h) ps hps (readAll_yields (fun h => ho.spaced h) ps h)

/-- A production that the grammar covers is read into trees that fit it and are formed. -/
theorem readAll_formed (ho : Operands operand) {ps : List Part} (htokens : haveTokens ps = true)
    (hcovered : Covered (productionsOf ps)) {s rest : Input} {ts : List Tree}
    (h : readAll operand ps s = .ok (ts, rest)) : FitsAll ps ts ∧ Tree.EveryOf Tree.Formed ts :=
  everyOf_formed (fun h => h) ps htokens hcovered (readAll_yields (fun h => ho.formed h) ps h)

/-- What stands between a token of text and its counterpart is an item, if it is of such a kind. -/
theorem item_of_enclosed (ho : Operands operand) {kind : Kind} {opening : Terminal}
    {parts : List Part} (hkind : kind.isItem = true) (hmode : opening.mode = .text)
    (hsolid : (enclosed none kind opening parts).isSolid = true)
    (hroot : enclosed none kind opening parts ∈ Grammar.roots) {s rest : Input} {ts : List Tree}
    (h : (enclosed none kind opening parts).read operand s = .ok (ts, rest)) :
    ts ≠ [] ∧ (∀ t ∈ ts, t.Item) ∧ Tree.sources ts ++ rest = s := by
  have hsource := read_append ho.source _ h
  have hyields := read_yields (fun h => ho.spaced h) _ h
  have hspaced := every_spaced (fun h => h) _ hsolid hyields
  have hformed := every_formed (fun h => h) _ (hasTokens_of_mem hroot) (covered_of_mem hroot)
    (read_yields (fun h => ho.formed h) _ h)
  obtain ⟨first, inner, hfirst, _, rfl⟩ := hyields
  refine ⟨List.cons_ne_nil _ _, fun t ht => ?_, hsource⟩
  obtain rfl := List.mem_singleton.1 ht
  have hgap : first.gap = [] := hfirst.gap_eq_nil hmode
  exact ⟨hkind, rfl, hgap, hspaced.1, hformed.2.1⟩

end Part

namespace Markup

variable {operand : Extent → Parser Tree}

/-- Reading that answers items which hold what was read, where there is something to read, and that
goes on or stops at an end of the input. -/
structure ReadsItems (x : Reading (List Tree)) : Prop where
  items : ∀ {s ts rest}, s ≠ [] → x.parser s = .ok (ts, rest) →
    ts ≠ [] ∧ (∀ t ∈ ts, t.Item) ∧ Tree.sources ts ++ rest = s
  within : x.parser.Within

/-- An item leaves less than there was. -/
theorem ReadsItems.rest_lt {x : Reading (List Tree)} (hx : ReadsItems x) {s rest : Input}
    {ts : List Tree} (hs : s ≠ []) (h : x.parser s = .ok (ts, rest)) : rest.length < s.length := by
  obtain ⟨hne, hitems, hsource⟩ := hx.items hs h
  exact Tree.length_lt_of_sources hne (Tree.everyOf_iff.2 fun t ht => (hitems t ht).spaced) hsource

/-- Reading that answers one item which holds what was read, and that goes on or stops at an end of
the input, where a token of a kind comes next. -/
structure ReadsItem (x : Reading Tree) (opening : TokenKind) : Prop where
  item : ∀ {s t rest}, (Token.scanText s).kind = opening → x.parser s = .ok (t, rest) →
    t.Item ∧ t.source ++ rest = s
  within : x.parser.Within

/-- A token of text that is not the end of the input is a leaf with text. -/
theorem leaf_spaced_of_scanText {s : Input} {field : Option Field} {kind : Kind}
    (hkind : kind.isLoose = true) (h : (Token.scanText s).kind ≠ .endOfInput)
    (hraw : (Token.scanText s).kind ≠ .rawText) :
    ((Token.scanText s).leaf field kind).Every Tree.Spaced := by
  have hscan : Token.scan .text s = .ok (Token.scanText s) := rfl
  exact ⟨hkind, Token.isBlank_of_mem_gap hscan, Token.text_ne_nil hscan h hraw⟩

/-- A token of a comment that is not the end of the input is a leaf with text, which stands at the
cursor. -/
theorem leaf_of_scanComment {s : Input} {t : Token} {field : Option Field} {kind : Kind}
    (hkind : kind.isLoose = true) (hscan : Token.scanComment s = t) (h : t.kind ≠ .endOfInput)
    (hraw : t.kind ≠ .rawText) :
    (t.leaf field kind).Every Tree.Spaced ∧ t.gap = [] ∧ t.text ++ t.rest = s := by
  subst hscan
  have hscan : Token.scan .comment s = .ok (Token.scanComment s) := rfl
  exact ⟨⟨hkind, Token.isBlank_of_mem_gap hscan, Token.text_ne_nil hscan h hraw⟩,
    Token.scanComment_gap s, Token.scanComment_start s⟩

/-- What is left after a comment is an end of the input. -/
theorem CommentTree.rest_suffix {s rest : Input} {t : Tree} (h : CommentTree s t rest) :
    rest <:+ s := by
  cases h with
  | empty hopener hlast =>
    subst hopener hlast
    exact (rest_scanComment_suffix _).trans (rest_scanText_suffix s)
  | filled hopener hcontent _ hlast =>
    subst hopener hcontent hlast
    have hfirst := (rest_scanComment_suffix _).trans (rest_scanText_suffix s)
    exact (rest_scanComment_suffix _).trans hfirst

/-- A comment that is read is an item. -/
theorem CommentTree.item {s rest : Input} {t : Tree} (h : CommentTree s t rest)
    (hopen : (Token.scanText s).kind = .commentOpen) : t.Item ∧ t.source ++ rest = s := by
  have hspaced : ((Token.scanText s).leaf (some .openDelimiter) .delimiter).Every Tree.Spaced :=
    leaf_spaced_of_scanText rfl (by simp [hopen]) (by simp [hopen])
  have hgap := Token.scanText_gap s
  have hstart : (Token.scanText s).text ++ (Token.scanText s).rest = s := Token.scanText_start s
  cases h with
  | @empty opener last hopener hlast hclose =>
    rw [hopener] at hspaced hgap hstart
    obtain ⟨hlastSpaced, hlastGap, hlastStart⟩ :=
      @leaf_of_scanComment _ _ (some .closeDelimiter) .delimiter rfl hlast
        (by simp [hclose]) (by simp [hclose])
    refine ⟨⟨rfl, rfl, hgap, ⟨⟨List.cons_ne_nil _ _, fun _ => ?_, fun h => by cases h⟩, ?_⟩,
      ?_⟩, ?_⟩
    · simp [Token.leaf, Tree.gap, hgap, hlastGap]
    · exact ⟨hspaced, hlastSpaced, trivial⟩
    · exact ⟨Schema.comment_children opener _ (.inl rfl), rfl, rfl, trivial⟩
    · simp [Token.leaf, Tree.source, Tree.sources, hgap, hlastGap, hstart, hlastStart]
  | @filled opener content last hopener hcontent hkind hlast hclose =>
    rw [hopener] at hspaced hgap hstart
    obtain ⟨hcontentSpaced, hcontentGap, hcontentStart⟩ :=
      @leaf_of_scanComment _ _ (some .content) .commentContent rfl hcontent
        (by simp [hkind]) (by simp [hkind])
    obtain ⟨hlastSpaced, hlastGap, hlastStart⟩ :=
      @leaf_of_scanComment _ _ (some .closeDelimiter) .delimiter rfl hlast
        (by simp [hclose]) (by simp [hclose])
    refine ⟨⟨rfl, rfl, hgap, ⟨⟨List.cons_ne_nil _ _, fun _ => ?_, fun h => by cases h⟩, ?_⟩,
      ?_⟩, ?_⟩
    · simp [Token.leaf, Tree.gap, hgap, hcontentGap, hlastGap]
    · exact ⟨hspaced, hcontentSpaced, hlastSpaced, trivial⟩
    · exact ⟨Schema.comment_children opener _ (.inr ⟨content, rfl⟩), rfl, rfl, rfl, trivial⟩
    · simp [Token.leaf, Tree.source, Tree.sources, hgap, hcontentGap, hlastGap, hstart,
        hcontentStart, hlastStart]

/-- A comment is an item. -/
theorem comment_readsItem : ReadsItem comment .commentOpen where
  item hopen h := (commentTree_of_comment h).item hopen
  within := by
    apply Parser.Within.intro
    · exact fun h => (commentTree_of_comment h).rest_suffix
    · intro s e h
      obtain ⟨stopped, hstopped, rfl⟩ := comment_eq_error h
      exact hstopped.trans (rest_scanText_suffix s)

/-- The body of a raw block is an item, or no tree if it is empty. -/
theorem rawBody_items {opener s rest : Input} {ts : List Tree}
    (h : (rawBody opener).parser s = .ok (ts, rest)) :
    (∀ t ∈ ts, t.Item) ∧ Tree.sources ts ++ rest = s := by
  have hstart := Token.scanRaw_start s
  obtain ⟨-, rfl, rfl⟩ := rawBody_eq_ok.1 h
  by_cases htext : (Token.scanRaw s).text = []
  · rw [if_pos htext]
    refine ⟨List.forall_mem_nil _, ?_⟩
    simpa [Tree.sources, Token.start, htext] using hstart
  · rw [if_neg htext]
    have hgap : (Token.scanRaw s).gap = [] := rfl
    refine ⟨fun t ht => ?_, ?_⟩
    · obtain rfl := List.mem_singleton.1 ht
      refine ⟨rfl, rfl, hgap, ⟨rfl, ?_, htext⟩, rfl⟩
      rw [hgap]
      exact List.forall_mem_nil _
    · simpa [Token.leaf, Tree.sources, Tree.source, hgap, Token.start] using hstart

/-- Reading the body of a raw block goes on or stops at an end of the input. -/
theorem rawBody_within (opener : Input) : (rawBody opener).parser.Within := by
  apply Parser.Within.intro
  · intro s ts rest h
    exact ⟨_, (rawBody_items h).2⟩
  · intro s e h
    obtain rfl := rawBody_eq_error h
    exact List.nil_suffix

/-- A statement is an item, and so is the body of the raw block that it may begin. -/
theorem statement_readsItems (ho : Part.Operands operand) : ReadsItems (statement operand) := by
  have hstatement : Part.statement.isSolid = true := by decide
  have hroot : Part.statement ∈ Grammar.roots := by simp [Grammar.roots]
  constructor
  · intro s ts rest _ h
    obtain ⟨read, s', hread, h⟩ := statement_eq_ok.1 h
    obtain ⟨hne, hitems, hsource⟩ := Part.item_of_enclosed ho rfl rfl hstatement hroot hread
    obtain ⟨-, rfl, rfl⟩ | ⟨-, body, hbody, rfl⟩ := h
    · exact ⟨hne, hitems, hsource⟩
    · -- The statement begins a raw block, whose body comes next.
      obtain ⟨hbodyItems, hbodySource⟩ := rawBody_items hbody
      refine ⟨by simp [hne], fun t ht => ?_, ?_⟩
      · rcases List.mem_append.1 ht with ht | ht
        · exact hitems t ht
        · exact hbodyItems t ht
      · rw [Tree.sources_append, List.append_assoc, hbodySource, hsource]
  · have hproduction := Part.read_within ho.within Part.statement
    apply Parser.Within.intro
    · intro s ts rest h
      obtain ⟨read, s', hread, ⟨-, -, rfl⟩ | ⟨-, body, hbody, -⟩⟩ := statement_eq_ok.1 h
      · exact hproduction.rest hread
      · exact ((rawBody_within s).rest hbody).trans (hproduction.rest hread)
    · intro s e h
      obtain h | ⟨read, s', hread, h⟩ := statement_eq_error h
      · exact hproduction.stopped h
      · exact ((rawBody_within s).stopped h).trans (hproduction.rest hread)

/-! ## Elements -/

/-- The leaf of a bracket that opens a closing tag. -/
theorem bracket_of_leaf {field : Option Field} {kind : Kind} {expected : String} {leaf : Tree}
    (h : (⟨field, kind, .text, .kind .endTagOpen, expected⟩ : Terminal).Leaf leaf) :
    leaf.text = ['<', '/'] ∧ leaf.gap = [] := by
  have hgap := h.gap_eq_nil rfl
  obtain ⟨s, next, taken, hscan, htake, rfl⟩ := h
  cases hscan
  obtain ⟨hkind, rfl⟩ := Pattern.kind_of_take? htake
  have htext := Token.scanText_text_of_endTagOpen hkind
  exact ⟨by simp [Token.leaf, Tree.text, Tree.source, Tree.gap, htext], hgap⟩

/-- The leaf of what ends a tag. -/
theorem text_of_leaf_tag {field : Option Field} {kind : Kind} {k : TokenKind} {expected : String}
    {leaf : Tree} (h : (⟨field, kind, .tag, .kind k, expected⟩ : Terminal).Leaf leaf) :
    (k = .tagClose → leaf.text = ['>']) ∧ (k = .selfClose → leaf.text = ['/', '>']) := by
  obtain ⟨s, next, taken, hscan, htake, rfl⟩ := h
  obtain ⟨rfl, rfl⟩ := Pattern.kind_of_take? htake
  obtain ⟨t, ht, rfl⟩ := Token.afterBlanks_eq_ok.1 hscan
  simpa [Token.leaf, Tree.text, Tree.source, Tree.gap] using Token.scanTag_text ht

/-- The end of an opening tag is one token, which closes the element too or does not. -/
theorem headerEnd_yields {E : Extent → Tree → Prop} {ts : List Tree}
    (h : Part.YieldsAll E headerEnd ts) :
    ∃ stop, ts = [stop] ∧ (stop.text = ['>'] ∨ stop.text = ['/', '>']) := by
  simp only [headerEnd, Part.YieldsAll, Part.Yields] at h
  obtain ⟨_, _, h, rfl, rfl⟩ := h
  rcases h with ⟨_, _, ⟨leaf, hleaf, rfl⟩, rfl, rfl⟩ | ⟨_, _, ⟨leaf, hleaf, rfl⟩, rfl, rfl⟩
  · exact ⟨leaf, rfl, .inr ((text_of_leaf_tag hleaf).2 rfl)⟩
  · exact ⟨leaf, rfl, .inl ((text_of_leaf_tag hleaf).1 rfl)⟩

/-- A closing tag is its bracket, which follows at once, its name and its end. -/
theorem footer_yields {E : Extent → Tree → Prop} {ts : List Tree}
    (h : Part.YieldsAll E footer ts) :
    ∃ bracket name last, ts = [bracket, name, last] ∧
      bracket.text = ['<', '/'] ∧ bracket.gap = [] := by
  simp only [footer, Part.YieldsAll, Part.Yields] at h
  obtain ⟨_, _, ⟨bracket, hbracket, rfl⟩, ⟨_, _, ⟨name, _, rfl⟩,
    ⟨_, _, ⟨last, _, rfl⟩, rfl, rfl⟩, rfl⟩, rfl⟩ := h
  exact ⟨bracket, name, last, rfl, bracket_of_leaf hbracket⟩

/-- The body of an element is items that hold what was read. -/
theorem body_items {x : Reading (List Tree)} (hx : ReadsItems x) {s rest : Input} {ts : List Tree}
    (h : (body x).parser s = .ok (ts, rest)) :
    (∀ t ∈ ts, t.Item) ∧ Tree.sources ts ++ rest = s := by
  refine body_induction (motive := fun s ts rest =>
    (∀ t ∈ ts, t.Item) ∧ Tree.sources ts ++ rest = s) ?stop ?next ?stuck h
  case stop => exact fun s _ => ⟨List.forall_mem_nil _, rfl⟩
  case next =>
    intro s r rest ts others hs hfirst _ ⟨hothers, hrest⟩
    obtain ⟨_, hitems, hsource⟩ := hx.items hs hfirst
    refine ⟨fun t ht => ?_, ?_⟩
    · rcases List.mem_append.1 ht with ht | ht
      · exact hitems t ht
      · exact hothers t ht
    · rw [Tree.sources_append, List.append_assoc, hrest, hsource]
  case stuck => exact fun hs hfirst _ => (hx.items hs hfirst).2

/-- Reading the body of an element goes on or stops at an end of the input. -/
theorem body_within {x : Reading (List Tree)} (hx : ReadsItems x) : (body x).parser.Within := by
  apply Parser.Within.intro
  · intro s ts rest h
    exact ⟨_, (body_items hx h).2⟩
  · intro s e h
    have hkeep : ∀ {s' ts rest}, s' <:+ s → x.parser s' = .ok (ts, rest) → rest <:+ s :=
      fun hs h => (hx.within.rest h).trans hs
    obtain rfl | ⟨s', hs', -, he⟩ := body_failure (· <:+ s) hkeep (List.suffix_refl s) h
    · exact List.nil_suffix
    · exact (hx.within.stopped he).trans hs'

/-- What an element that is read is made of: its opening tag, and, unless that closes itself, the
body and the closing tag. -/
theorem element_eq_ok {x : Reading (List Tree)} {s rest : Input} {t : Tree}
    (h : (element operand x).parser s = .ok (t, rest)) :
    ∃ first s₁ tag s₂ stop s₃, opener.read s = .ok (first, s₁) ∧
      Part.readAll operand header s₁ = .ok (tag, s₂) ∧
      Part.readAll operand headerEnd s₂ = .ok (stop, s₃) ∧
      (((∃ last ∈ stop, last.text = ['/', '>']) ∧ t = .node none .element (first :: tag ++ stop) ∧
          rest = s₃) ∨
        (∀ last ∈ stop, last.text ≠ ['/', '>']) ∧
        ∃ items s₄ closing, (body x).parser s₃ = .ok (items, s₄) ∧
          Part.readAll operand footer s₄ = .ok (closing, rest) ∧
          t = .node none .element (first :: tag ++ stop ++ items ++ closing)) := by
  simp only [element, Reading.parser_bind, Reading.parser_quiet, Reading.parser_inside,
    Parser.bind_eq_ok, Parser.inside_eq_ok, Reading.parser_here_eq_ok] at h
  obtain ⟨_, _, ⟨rfl, rfl⟩, first, s₁, hfirst, tag, s₂, htag, stop, s₃, hstop, h⟩ := h
  refine ⟨first, s₁, tag, s₂, stop, s₃, hfirst, htag, hstop, ?_⟩
  split at h
  · rename_i hclosed
    obtain ⟨rfl, rfl⟩ := Parser.pure_eq_ok.1 h
    exact .inl ⟨by simpa using hclosed, rfl, rfl⟩
  · rename_i hopen
    simp only [Reading.parser_bind, Reading.parser_quiet, Reading.parser_pure, Parser.bind_eq_ok,
      Parser.pure_eq_ok] at h
    obtain ⟨items, s₄, hitems, closing, _, hclosing, rfl, rfl⟩ := h
    exact .inr ⟨by simpa using hopen, items, s₄, closing, hitems, hclosing, rfl⟩

/-- Reading an element goes on or stops at an end of the input. -/
theorem element_within (ho : Part.Operands operand) {x : Reading (List Tree)} (hx : ReadsItems x) :
    (element operand x).parser.Within := by
  simp only [element, Reading.parser_bind, Reading.parser_quiet, Reading.parser_inside]
  refine Parser.Within.bind (fun s => List.suffix_refl s) fun s => ?_
  refine opener.read_within.bind fun first => Parser.Within.inside s ?_
  refine (Part.readAll_within ho.within _).bind fun tag => ?_
  refine (Part.readAll_within ho.within _).bind fun stop => ?_
  split
  · exact Parser.Within.pure _
  · simp only [Reading.parser_bind, Reading.parser_quiet]
    refine (body_within hx).bind fun items => ?_
    exact (Part.readAll_within ho.within _).bind fun closing => Parser.Within.pure _

/-- The children of an element up to the end of its opening tag are those of the schema. -/
theorem tag_formed (ho : Part.Operands operand) {s s₁ s₂ s₃ : Input} {first : Tree}
    {tag stop : List Tree} (hfirst : opener.read s = .ok (first, s₁))
    (htag : Part.readAll operand header s₁ = .ok (tag, s₂))
    (hstop : Part.readAll operand headerEnd s₂ = .ok (stop, s₃)) :
    Part.FitsAll (.token opener :: (header ++ headerEnd)) (first :: tag ++ stop) ∧
      Tree.EveryOf Tree.Formed (first :: tag ++ stop) := by
  have hcovered : Part.Covered (Part.productionsOf header) :=
    Part.covered_of_mem (p := attributePart) (by simp [Grammar.roots])
  obtain ⟨htagFits, htagFormed⟩ := Part.readAll_formed ho (by decide) hcovered htag
  have hendCovered : Part.Covered (Part.productionsOf headerEnd) := Part.covered_nil
  obtain ⟨hstopFits, hstopFormed⟩ := Part.readAll_formed ho rfl hendCovered hstop
  obtain ⟨gap, text, rfl⟩ := (Terminal.read_leaf hfirst).eq
  refine ⟨⟨_, _, ⟨_, ⟨rfl, rfl⟩, rfl⟩, Part.fitsAll_append htagFits hstopFits, rfl⟩, ?_⟩
  exact Tree.everyOf_append.2 ⟨⟨rfl, htagFormed⟩, hstopFormed⟩

/-- An element is an item, if its body is a row of items. -/
theorem element_readsItem (ho : Part.Operands operand) {x : Reading (List Tree)}
    (hx : ReadsItems x) : ReadsItem (element operand x) .tagOpen := by
  refine ⟨fun {s t rest} _ h => ?_, element_within ho hx⟩
  obtain ⟨first, s₁, tag, s₂, stop, s₃, hfirst, htag, hstop, h⟩ := element_eq_ok h
  have hleaf := Terminal.read_leaf hfirst
  have hgap : first.gap = [] := hleaf.gap_eq_nil rfl
  have hspaced : Tree.EveryOf Tree.Spaced (first :: tag ++ stop) := by
    have hfirstSpaced := hleaf.spaced rfl rfl
    obtain ⟨gap, text, rfl⟩ := hleaf.eq
    have htagSpaced := Part.readAll_spaced ho (by decide) htag
    have hstopSpaced := Part.readAll_spaced ho (by decide) hstop
    exact Tree.everyOf_append.2 ⟨⟨hfirstSpaced, htagSpaced⟩, hstopSpaced⟩
  have hsource : Tree.sources (first :: tag ++ stop) ++ s₃ = s := by
    calc Tree.sources (first :: tag ++ stop) ++ s₃
        = first.source ++ (Tree.sources tag ++ (Tree.sources stop ++ s₃)) := by
          simp [Tree.sources]
      _ = first.source ++ (Tree.sources tag ++ s₂) := by
          rw [Part.readAll_append ho.source _ hstop]
      _ = first.source ++ s₁ := by rw [Part.readAll_append ho.source _ htag]
      _ = s := Terminal.read_append hfirst
  obtain ⟨htagFits, htagFormed⟩ := tag_formed ho hfirst htag hstop
  obtain ⟨stop, rfl, hstopText⟩ :=
    headerEnd_yields (Part.readAll_yields (fun h => ho.spaced h) _ hstop)
  rcases h with ⟨hclosed, rfl, rfl⟩ | ⟨hopen, items, s₄, closing, hitems, hclosing, rfl⟩
  · -- The tag closes itself.
    have hclosed : stop.text = ['/', '>'] := by simpa using hclosed
    refine ⟨⟨rfl, rfl, hgap, ⟨⟨?_, nofun, fun _ => ?_⟩, hspaced⟩, ?_⟩, hsource⟩
    · simp
    · exact .selfClosing (first :: tag) stop hclosed
    · exact ⟨.selfClosing htagFits, htagFormed⟩
  · -- A body and a closing tag follow.
    have hopen : stop.text = ['>'] := by
      have hne : stop.text ≠ ['/', '>'] := by simpa using hopen
      exact hstopText.resolve_right hne
    obtain ⟨hitemsItem, hitemsSource⟩ := body_items hx hitems
    have hclosingSpaced := Part.readAll_spaced ho (by decide) hclosing
    have hclosingSource := Part.readAll_append ho.source _ hclosing
    have hfooterCovered : Part.Covered (Part.productionsOf footer) := Part.covered_nil
    obtain ⟨hclosingFits, hclosingFormed⟩ := Part.readAll_formed ho rfl hfooterCovered hclosing
    obtain ⟨bracket, name, last, rfl, hbracket⟩ :=
      footer_yields (Part.readAll_yields (fun h => ho.spaced h) _ hclosing)
    refine ⟨⟨rfl, rfl, hgap, ⟨⟨?_, nofun, fun _ => ?_⟩, ?_⟩, ?_⟩, ?_⟩
    · simp
    · have hrow := Tree.ElementRow.withBody (first :: tag) stop items bracket name last hopen
        (fun t ht => ⟨(hitemsItem t ht).kind, (hitemsItem t ht).gap⟩) hbracket
      simpa using hrow
    · refine Tree.everyOf_append.2 ⟨Tree.everyOf_append.2 ⟨hspaced, ?_⟩, hclosingSpaced⟩
      exact Tree.everyOf_iff.2 fun t ht => (hitemsItem t ht).spaced
    · refine ⟨.element htagFits (fun t ht => ⟨(hitemsItem t ht).kind, (hitemsItem t ht).field⟩)
        hclosingFits, ?_⟩
      refine Tree.everyOf_append.2 ⟨Tree.everyOf_append.2 ⟨htagFormed, ?_⟩, hclosingFormed⟩
      exact Tree.everyOf_iff.2 fun t ht => (hitemsItem t ht).formed
    · rw [← hsource, ← hitemsSource, ← hclosingSource]
      simp [Tree.source, Tree.sources]

/-- An element that is refused goes on or stops at an end of the input. -/
theorem tooDeep_readsItem : ReadsItem tooDeep .tagOpen := by
  have heq : tooDeep.parser = fun s =>
      (opener.read >>= fun _ => Parser.fail .nestingTooDeep s : Parser Tree) s := rfl
  constructor
  · intro s t rest _ h
    rw [heq] at h
    obtain ⟨_, _, _, h⟩ := Parser.bind_eq_ok.1 h
    cases h
  · intro s
    rw [heq]
    exact (opener.read_within.bind fun _ => Parser.Within.fail .nestingTooDeep s) s

/-- Reading an item answers items, if the elements that it may be are items. -/
theorem itemOf_readsItems (ho : Part.Operands operand) {element : Reading Tree}
    (he : ReadsItem element .tagOpen) : ReadsItems (itemOf operand element) := by
  have hvalue : (Part.value none .text "`\x7b\x7b`").isSolid = true := by decide
  have hroot : Part.value none .text "`\x7b\x7b`" ∈ Grammar.roots := by simp [Grammar.roots]
  constructor
  · intro s ts rest hs h
    simp only [Reading.parser, itemOf_eq] at h
    have single : ∀ {x : Reading Tree} {k : TokenKind}, ReadsItem x k →
        (Token.scanText s).kind = k → (x >>= fun t => pure [t]).parser s = .ok (ts, rest) →
        ts ≠ [] ∧ (∀ t ∈ ts, t.Item) ∧ Tree.sources ts ++ rest = s := by
      intro x k hx hk hread
      obtain ⟨t, ht, rfl⟩ := Reading.parser_single_eq_ok.1 hread
      obtain ⟨hitem, hsource⟩ := hx.item hk ht
      exact ⟨List.cons_ne_nil _ _, by simpa using hitem, by simpa [Tree.sources] using hsource⟩
    split at h
    case h_1 hkind =>
      -- Literal text is one leaf.
      cases h
      refine ⟨List.cons_ne_nil _ _, fun t ht => ?_, ?_⟩
      · obtain rfl := List.mem_singleton.1 ht
        exact ⟨rfl, rfl, Token.scanText_gap s,
          leaf_spaced_of_scanText rfl (by simp [hkind]) (by simp [hkind]), rfl⟩
      · have hstart := Token.scanText_start s
        simpa [Tree.sources, Tree.source, Token.leaf, Token.scanText_gap, Token.start] using hstart
    case h_2 => exact Part.item_of_enclosed ho rfl rfl hvalue hroot h
    case h_3 => exact (statement_readsItems ho).items hs h
    case h_4 hkind => exact single comment_readsItem hkind h
    case h_5 hkind => exact single he hkind h
    case h_6 => cases h
  · intro s
    simp only [Reading.parser, itemOf_eq]
    have single : ∀ {x : Reading Tree} {k : TokenKind}, ReadsItem x k →
        (x >>= fun t => pure [t]).parser.Within := by
      intro x k hx
      rw [Reading.parser_bind]
      exact hx.within.bind fun _ => Parser.Within.pure _
    generalize (Token.scanText s).kind = kind
    cases kind
    case text => exact rest_scanText_suffix s
    case valueOpen => exact Part.read_within ho.within _ s
    case statementOpen => exact (statement_readsItems ho).within s
    case commentOpen => exact single comment_readsItem s
    case tagOpen => exact single he s
    all_goals exact List.suffix_refl s

/-- Reading goes on after a malformed item at an end of the input that is shorter than what there
was. -/
theorem resume_suffix {s : Input} {failure : Failure} (hs : s ≠ []) (h : failure.stopped <:+ s) :
    failure.resume s <:+ s ∧ (failure.resume s).length < s.length := by
  have hrest : ∀ start : Input, (splitBefore atOpener start).2 <:+ start :=
    fun start => ⟨_, splitBefore_append atOpener start⟩
  unfold Failure.resume
  dsimp only
  split
  · rename_i hlt
    exact ⟨(hrest _).trans h, Nat.lt_of_le_of_lt (hrest _).length_le hlt⟩
  · refine ⟨(hrest _).trans (List.tail_suffix s), Nat.lt_of_le_of_lt (hrest _).length_le ?_⟩
    rw [List.length_tail]
    have := List.length_pos_iff.2 hs
    omega

/-- The error that stands for what is skipped is an item, and it holds what is skipped. -/
theorem skipped_item {s rest : Input} (hsuffix : rest <:+ s) (hlt : rest.length < s.length) :
    (Tree.leaf none .error [] (s.take (s.length - rest.length))).Item ∧
      s.take (s.length - rest.length) ++ rest = s := by
  constructor
  · refine ⟨rfl, rfl, rfl, ⟨rfl, List.forall_mem_nil _, fun hnil => ?_⟩, rfl⟩
    have hlength := congrArg List.length hnil
    rw [List.length_take, List.length_nil] at hlength
    omega
  · obtain ⟨skipped, rfl⟩ := hsuffix
    simp

end Markup

/-- What holds of the steps of a reader: their trees are items, and hold what is read. -/
structure Step.Reads (step : Step) (s : Input) : Prop where
  trees_ne_nil : step.trees ≠ []
  items : ∀ t ∈ step.trees, t.Item
  source : Tree.sources step.trees ++ step.rest = s

namespace Markup

variable {operand : Extent → Parser Tree}

/-- What an item comes to is items that hold what was read, be it malformed or not. -/
theorem settle_reads (recover : Bool) {s : Input} {x : Reading (List Tree)} (hs : s ≠ [])
    (hx : ReadsItems x) : ((x s).settle recover s).Reads s := by
  unfold Reply.settle
  split
  · rename_i ts rest h
    obtain ⟨hne, hitems, hsource⟩ := hx.items hs h
    exact ⟨hne, hitems, hsource⟩
  · rename_i failure h
    have hrest : (if recover then failure.resume s else []) <:+ s ∧
        (if recover then failure.resume s else []).length < s.length := by
      cases recover with
      | true => exact resume_suffix hs (hx.within.stopped h)
      | false => exact ⟨List.nil_suffix, List.length_pos_iff.2 hs⟩
    obtain ⟨hitem, hsource⟩ := skipped_item hrest.1 hrest.2
    refine ⟨List.cons_ne_nil _ _, fun t ht => ?_, ?_⟩
    · obtain rfl := List.mem_singleton.1 ht
      exact hitem
    · simpa [Tree.sources, Tree.source] using hsource

/-- A reader that recovers answers items. -/
theorem recovering_readsItems {x : Reading (List Tree)} (hx : ReadsItems x) :
    ReadsItems x.recovering := by
  constructor
  · intro s ts rest hs h
    cases h
    have hreads := settle_reads true hs hx
    exact ⟨hreads.trees_ne_nil, hreads.items, hreads.source⟩
  · intro s
    show ((x s).settle true s).rest <:+ s
    by_cases hs : s = []
    · -- Nothing can be left of nothing.
      subst hs
      unfold Reply.settle
      split
      · rename_i h
        exact hx.within.rest h
      · simp [Failure.resume, splitBefore]
    · exact ⟨_, (settle_reads true hs hx).source⟩

/-- Reading an item answers items that hold what was read. -/
theorem item_readsItems (recover : Bool) (depth : Nat) : ReadsItems (item recover depth) := by
  induction depth with
  | zero => exact itemOf_readsItems (Part.operands_expression 0) tooDeep_readsItem
  | succ depth ih =>
    have hinner : ReadsItems
        (if recover then (item recover depth).recovering else item recover depth) := by
      cases recover with
      | true => exact recovering_readsItems ih
      | false => exact ih
    exact itemOf_readsItems (Part.operands_expression (depth + 1))
      (element_readsItem (Part.operands_expression depth) hinner)

end Markup

/-! ## Steps -/

namespace Template

/-- A step reads items. -/
theorem step_reads (options : Options) {s : Input} (hs : s ≠ []) : (step options s).Reads s :=
  Markup.settle_reads options.recover hs (Markup.item_readsItems options.recover options.maxDepth)

/-- A step leaves less than there was. -/
theorem step_rest_lt (options : Options) {s : Input} (hs : s ≠ []) :
    (step options s).rest.length < s.length := by
  have hreads := step_reads options hs
  have hspaced : Tree.EveryOf Tree.Spaced (step options s).trees :=
    Tree.everyOf_iff.2 fun t ht => (hreads.items t ht).spaced
  exact Tree.length_lt_of_sources hreads.trees_ne_nil hspaced hreads.source

/-- A source that is not empty is read in a step and then the steps of what the step leaves. -/
theorem steps_eq_cons (options : Options) {s : Input} (hs : s ≠ []) :
    steps options s = step options s :: steps options (step options s).rest := by
  rw [steps, if_neg hs, if_pos (step_rest_lt options hs)]

/-- There is nothing to read of nothing. -/
theorem steps_nil (options : Options) : steps options [] = [] := by
  rw [steps, if_pos rfl]

/-- What holds where nothing is left, and before a step if it holds behind it, holds everywhere. -/
@[elab_as_elim]
theorem steps_induction (options : Options) {motive : Input → Prop} (nil : motive [])
    (cons : ∀ s, s ≠ [] → motive (step options s).rest → motive s) (s : Input) : motive s := by
  induction hn : s.length using Nat.strongRecOn generalizing s with
  | ind n ih =>
    by_cases hs : s = []
    · exact hs ▸ nil
    · exact cons s hs (ih _ (hn ▸ step_rest_lt options hs) _ rfl)

/-- The trees of the steps are items, and hold the source. -/
theorem steps_items (options : Options) (s : Input) :
    (∀ t ∈ (steps options s).flatMap Step.trees, t.Item) ∧
      Tree.sources ((steps options s).flatMap Step.trees) = s := by
  induction s using steps_induction options with
  | nil =>
    rw [steps_nil]
    exact ⟨List.forall_mem_nil _, rfl⟩
  | cons s hs ih =>
    have hfirst := step_reads options hs
    obtain ⟨hmore, hrest⟩ := ih
    rw [steps_eq_cons options hs, List.flatMap_cons]
    refine ⟨fun t ht => ?_, ?_⟩
    · rcases List.mem_append.1 ht with ht | ht
      · exact hfirst.items t ht
      · exact hmore t ht
    · rw [Tree.sources_append, hrest, hfirst.source]

/-- The tree of a template is a row of items that hold the source. -/
theorem parse_items (options : Options) (source : Input) :
    ∃ items, (parse options source).tree = .node none .sourceFile items ∧
      (∀ t ∈ items, t.Item) ∧ Tree.sources items = source := by
  obtain ⟨hitems, hsource⟩ := steps_items options source
  exact ⟨_, rfl, hitems, hsource⟩

end Template

end Stencil
