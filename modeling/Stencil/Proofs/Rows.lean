import Stencil.Proofs.Elements
import Stencil.Proofs.Follows
import Stencil.Proofs.Locality

/-!
# Items in a row

An item of a strict reader that is read is the same in front of more input (`Markup.Bounded`). Two
things have to be said of what follows: literal text goes on if no opener follows it, and the
statement that ends a raw block is looked for from the beginning of the block on, so that it has to
be there as a whole. In a row of items that are read (`Markup.Row`) the next item says both, and so
a row is the same in front of more input if its last item is (`Markup.Row.append`). The body of an
element is such a row (`Markup.row_of_body`), and this is why a body, and with it an element, is the
same whatever follows (`Markup.element_append`). The main statement is `Markup.item_bounded`.
-/

namespace Stencil

open Stencil.Parser (Local Closing)

variable {s rest x : Input}

/-- Nothing needs to be said of what is left. -/
theorem ahead_nothing : Ahead (fun _ => True) [] :=
  ⟨fun _ _ _ _ => trivial, fun _ _ _ hmode => by cases hmode⟩

/-! ## Values and statements -/

/-- An opener that is two characters long is local, whatever follows. -/
theorem Terminal.read_opener_local {t : Terminal} {k : TokenKind} (hmode : t.mode = .text)
    (hpattern : t.pattern = .kind k) (hk : k ∈ Token.openers) : t.read.Local fun _ => True := by
  intro s leaf rest _ h x
  obtain ⟨next, taken, hscan, htake, rfl, rfl⟩ := exists_of_read h
  rw [hmode] at hscan
  cases hscan
  have hkind := (Pattern.kind_of_take? (hpattern ▸ htake)).1
  have hmore : Token.scan t.mode (s ++ x) = .ok ((Token.scanText s).append x) := by
    rw [hmode, Token.scan, Token.scanText_append_of_opener (hkind ▸ hk) x]
  exact Terminal.read_of_scan hmore (Pattern.take?_append_of_some htake x)

/-- A token that ends a value or a statement is the two characters that do. -/
theorem Token.closes_text {t : Token} (h : Token.scan .code s = .ok t)
    (hk : t.kind = .valueClose ∨ t.kind = .statementClose) : Closes t.text := by
  obtain ⟨token, htoken, hsame, htext⟩ := Token.exists_scan_of_afterBlanks h
  obtain ⟨-, hvalue, hstatement⟩ := Token.scanCode_text htoken
  rw [← hsame, ← htext] at hvalue hstatement
  rcases hk with hk | hk
  · exact ⟨[], '}', [], hvalue hk, .inl rfl⟩
  · exact ⟨[], '%', [], hstatement hk, .inr rfl⟩

/-- The tokens that end a value or a statement hold its end. -/
theorem Terminal.read_close_closing {t : Terminal} {k : TokenKind} (hmode : t.mode = .code)
    (hpattern : t.pattern = .kind k) (hk : k = .valueClose ∨ k = .statementClose) :
    t.read.Closing Closes := by
  have hmem : t.mode ∈ Token.codeModes := hmode ▸ by decide
  refine Terminal.read_closing ahead_closes hmem fun {s next taken} hscan htake => ?_
  rw [hmode] at hscan
  have hkind := (Pattern.kind_of_take? (hpattern ▸ htake)).1
  obtain ⟨before, c, after, htext, hc⟩ := Token.closes_text hscan (hkind ▸ hk)
  exact ⟨before, c, after ++ next.rest, by simp [Token.start, htext], hc⟩

/-- A value is local as its opening token is. -/
theorem Part.value_local {ends : Input → Prop} {modes : List Mode} (hends : Ahead ends modes)
    (depth : Nat) (field : Option Field) {mode : Mode} (expected : String)
    (hopening : (⟨some .openDelimiter, .delimiter, mode, .kind .valueOpen, expected⟩ :
      Terminal).read.Local ends) :
    ((value field mode expected).read (expression depth)).Local ends := by
  have hw := expression_within depth
  refine (enclosed_local hends hopening ?_ (readAll_within hw _)).1
  exact readAll_closing hw (expression_local depth)
    (read_token_closing (Terminal.read_close_closing rfl rfl (.inl rfl))) [expr .expression] rfl

/-- A statement is local, whatever follows, and it holds its end. -/
theorem Part.statement_local (depth : Nat) :
    (statement.read (expression depth)).Local (fun _ => True) ∧
      ∀ ⦃s ts rest⦄, statement.read (expression depth) s = .ok (ts, rest) → Closes s := by
  have hw := expression_within depth
  rw [statement, List.append_cons]
  refine enclosed_local ahead_nothing (Terminal.read_opener_local rfl rfl (by decide)) ?_
    (readAll_within hw _)
  refine readAll_closing hw (expression_local depth)
    (read_token_closing (Terminal.read_close_closing rfl rfl (.inr rfl))) _ ?_
  decide +kernel

namespace Markup

/-! ## Comments and raw blocks -/

/-- The children of a comment with some content. -/
def commentLeaves (content : List Char) : List Tree :=
  .leaf (some .openDelimiter) .delimiter [] ['{', '#'] ::
    (if content = [] then [] else [.leaf (some .content) .commentContent [] content]) ++
    [.leaf (some .closeDelimiter) .delimiter [] ['#', '}']]

/-- A comment holds its content between its delimiters. -/
theorem sources_commentLeaves (content : List Char) :
    Tree.sources (commentLeaves content) = ['{', '#'] ++ (content ++ ['#', '}']) := by
  by_cases hc : content = [] <;> simp [commentLeaves, hc, Tree.sources, Tree.source]

/-- A comment is read up to its end, whatever follows. -/
theorem comment_eq_ok {t : Tree} (hk : (Token.scanText s).kind = .commentOpen)
    (h : comment.parser s = .ok (t, rest)) :
    ∃ content, t = .node none .comment (commentLeaves content) ∧
      s = ['{', '#'] ++ (content ++ '#' :: '}' :: rest) ∧
      ∀ rest', comment.parser (['{', '#'] ++ (content ++ '#' :: '}' :: rest')) =
        .ok (t, rest') := by
  have hopener : (['{', '#'], TokenKind.commentOpen) ∈ Token.openerTexts := by decide
  obtain ⟨body, rfl⟩ := Token.exists_of_opener hopener hk
  have hend : ∀ y, Token.scanComment ('#' :: '}' :: y) = ⟨.commentClose, [], ['#', '}'], y⟩ :=
    fun _ => rfl
  simp only [Reading.parser, comment, Token.scanText_of_opener hopener] at h ⊢
  -- The first token is the content or, in an empty comment, its end.
  by_cases hcontent : (Token.scanComment body).kind = .commentContent
  · simp only [hcontent, if_true] at h
    split at h
    · rename_i hclose
      obtain ⟨after, hafter⟩ := Token.exists_of_commentClose hclose
      rw [hafter, hend] at h
      cases h
      have hsource := Token.scanComment_start body
      rw [Token.start, hafter] at hsource
      have htext : (Token.scanComment body).text ≠ [] := by
        refine Token.scanComment_text_ne_nil ?_
        rintro rfl
        cases hcontent
      have hgap := Token.scanComment_gap body
      refine ⟨(Token.scanComment body).text, ?_, by rw [hsource], fun rest' => ?_⟩
      · simp only [commentLeaves, if_neg htext, Token.leaf, hgap]
      · rw [Token.scanComment_replace hcontent (by rw [hafter]; rfl)]
        simp only [hcontent, if_true, hend]
        rfl
    · cases h
  · simp only [hcontent, if_false] at h
    split at h
    · rename_i hclose
      obtain ⟨after, rfl⟩ := Token.exists_of_commentClose hclose
      cases h
      exact ⟨[], rfl, rfl, fun rest' => rfl⟩
    · cases h

/-- A comment is the same in front of more input. -/
theorem comment_append {t : Tree} (hk : (Token.scanText s).kind = .commentOpen)
    (h : comment.parser s = .ok (t, rest)) (x : Input) :
    comment.parser (s ++ x) = .ok (t, rest ++ x) := by
  obtain ⟨content, -, rfl, hread⟩ := comment_eq_ok hk h
  simpa using hread (rest ++ x)

/-- The body of a raw block is the same in front of more input, if the end of the block is there as
a whole. -/
theorem rawBody_append {opener opener' : Input} {ts : List Tree}
    (h : (rawBody opener).parser s = .ok (ts, rest))
    (hend : Token.atEndRaw rest = true → '}' ∈ rest) (x : Input) :
    (rawBody opener').parser (s ++ x) = .ok (ts, rest ++ x) := by
  obtain ⟨hrest, rfl, rfl⟩ := rawBody_eq_ok.1 h
  -- Where the body stops before the end of the input, the statement that ends the block begins.
  have hstops : Token.atEndRaw (Token.scanRaw s).rest = true := splitBefore_stops hrest
  refine rawBody_eq_ok.2 ⟨by simp [hrest], ?_, ?_⟩
  · rw [Token.scanRaw_append (hend hstops) x, Token.append_rest]
  · rw [Token.scanRaw_append (hend hstops) x]
    rfl

/-- A statement is the same in front of more input, if the end of the raw block that it may begin is
there as a whole. -/
theorem statement_append {depth : Nat} {ts : List Tree}
    (h : (statement (expression depth)).parser s = .ok (ts, rest))
    (hend : Token.atEndRaw rest = true → '}' ∈ rest) (x : Input) :
    (statement (expression depth)).parser (s ++ x) = .ok (ts, rest ++ x) := by
  obtain ⟨read, s', hread, h⟩ := statement_eq_ok.1 h
  refine statement_eq_ok.2 ⟨read, s' ++ x, (Part.statement_local depth).1 trivial hread x, ?_⟩
  obtain ⟨hraw, rfl, rfl⟩ | ⟨hraw, body, hbody, rfl⟩ := h
  · exact .inl ⟨hraw, rfl, rfl⟩
  · exact .inr ⟨hraw, body, rawBody_append hbody hend x, rfl⟩

/-- A statement that is read holds its end. -/
theorem statement_closes {depth : Nat} {ts : List Tree}
    (h : (statement (expression depth)).parser s = .ok (ts, rest)) : Closes s := by
  obtain ⟨read, s', hread, -⟩ := statement_eq_ok.1 h
  exact (Part.statement_local depth).2 hread

/-! ## Tags -/

/-- A token that ends a tag has its bracket. -/
theorem bracket_mem_text {t : Token} (h : Token.scan .tag s = .ok t)
    (hk : t.kind = .tagClose ∨ t.kind = .selfClose) : '>' ∈ t.text := by
  obtain ⟨token, htoken, hsame, htext⟩ := Token.exists_scan_of_afterBlanks h
  obtain ⟨hclose, hself⟩ := Token.scanTag_text htoken
  rw [← hsame, ← htext] at hclose hself
  rcases hk with hk | hk
  · simp [hclose hk]
  · simp [hself hk]

/-- A token that ends a tag holds its bracket. -/
theorem read_bracket_closing {t : Terminal} {k : TokenKind} (hmode : t.mode = .tag)
    (hpattern : t.pattern = .kind k) (hk : k = .tagClose ∨ k = .selfClose) :
    t.read.Closing fun s => '>' ∈ s := by
  have hmem : t.mode ∈ [Mode.tag] := hmode ▸ List.mem_singleton_self _
  refine Terminal.read_closing ahead_bracket hmem fun {s next taken} hscan htake => ?_
  rw [hmode] at hscan
  have hkind := (Pattern.kind_of_take? (hpattern ▸ htake)).1
  exact List.mem_append_left _ (bracket_mem_text hscan (hkind ▸ hk))

section Tags

variable (depth : Nat)

/-- A token of a tag is the same in front of more input, if the tag is to be closed. -/
theorem read_tagToken_local {t : Terminal} (hmode : t.mode = .tag) :
    ((Part.token t).read (expression depth)).Local fun s => '>' ∈ s :=
  Part.read_token_local (Terminal.read_local ahead_bracket (by simp [hmode]))

/-- What is looked at in a tag is the same in front of more input, if the tag is to be closed. -/
theorem tagLook_local (k : TokenKind) :
    (Look.next .tag (.kind k)).holds.Local fun s => '>' ∈ s :=
  Look.next_local ahead_bracket (List.mem_singleton_self _) (.kind k)

/-- An attribute is the same in front of more input, if its tag is to be closed. -/
theorem attributePart_local :
    (attributePart.read (expression depth)).Local fun s => '>' ∈ s := by
  have hw := expression_within depth
  have hvalue := Part.value_local ahead_bracket depth (some .value)
    "quoted attribute value or `\x7b\x7b`"
    (Terminal.read_local ahead_bracket (List.mem_singleton_self _))
  refine Local.map (Part.readAll_cons_local ahead_bracket hw (read_tagToken_local depth rfl) ?_) _
  refine Part.readAll_singleton_local ahead_bracket hw ?_
  -- The sign of assignment goes before a string or a value, and nothing does without it.
  refine Part.read_choice_local ahead_bracket hw (tagLook_local .assign) ?_ (Local.pure _)
  refine Part.readAll_cons_local ahead_bracket hw (read_tagToken_local depth rfl) ?_
  refine Part.readAll_singleton_local ahead_bracket hw ?_
  refine Part.read_choice_local ahead_bracket hw (tagLook_local .quoted) ?_ ?_
  · exact Part.readAll_singleton_local ahead_bracket hw (read_tagToken_local depth rfl)
  · exact Part.readAll_singleton_local ahead_bracket hw hvalue

/-- The name and the attributes of a tag are the same in front of more input, if the tag is to be
closed. -/
theorem header_local : (Part.readAll (expression depth) header).Local fun s => '>' ∈ s := by
  have hw := expression_within depth
  refine Part.readAll_cons_local ahead_bracket hw (read_tagToken_local depth rfl) ?_
  refine Part.readAll_singleton_local ahead_bracket hw ?_
  refine Part.read_repeated_local ahead_bracket hw (tagLook_local .word) ?_
  exact Part.readAll_singleton_local ahead_bracket hw (attributePart_local depth)

/-- The end of an opening tag holds its bracket. -/
theorem headerEnd_closing :
    (Part.readAll (expression depth) headerEnd).Closing fun s => '>' ∈ s := by
  refine Part.readAll_singleton_closing (Part.read_choice_closing ahead_bracket
    (tagLook_local .selfClose) ?_ ?_)
  · exact Part.readAll_singleton_closing
      (Part.read_token_closing (read_bracket_closing rfl rfl (.inr rfl)))
  · exact Part.readAll_singleton_closing
      (Part.read_token_closing (read_bracket_closing rfl rfl (.inl rfl)))

/-- A closing tag is the same in front of more input. -/
theorem footer_local : (Part.readAll (expression depth) footer).Local fun _ => True := by
  have hw := expression_within depth
  refine Part.readAll_cons_local ahead_nothing hw
    (Part.read_token_local (Terminal.read_opener_local rfl rfl (by decide))) ?_
  refine Closing.isLocal (Part.readAll_cons_closing ahead_bracket hw
    (read_tagToken_local depth rfl) ?_) _
  exact Part.readAll_singleton_closing
    (Part.read_token_closing (read_bracket_closing rfl rfl (.inl rfl)))

end Tags

/-! ## Elements -/

variable {operand : Extent → Parser Tree} {item : Reading (List Tree)} {s₁ s₂ s₃ s₄ : Input}
  {first : Tree} {tag stop items closing : List Tree}

/-- An element that closes itself is read where its tag is. -/
theorem element_of_selfClosing (hfirst : opener.read s = .ok (first, s₁))
    (htag : Part.readAll operand header s₁ = .ok (tag, s₂))
    (hstop : Part.readAll operand headerEnd s₂ = .ok (stop, s₃))
    (hself : ∃ last ∈ stop, last.text = ['/', '>']) :
    (element operand item).parser s = .ok (.node none .element (first :: tag ++ stop), s₃) := by
  have hself : (stop.any fun t => t.text = ['/', '>']) = true := by simpa using hself
  simp only [element, Reading.parser_bind, Reading.parser_quiet, Reading.parser_inside]
  refine Parser.bind_eq_ok.2 ⟨s, s, Reading.parser_here_eq_ok.2 ⟨rfl, rfl⟩, ?_⟩
  refine Parser.bind_eq_ok.2 ⟨first, s₁, hfirst, Parser.inside_eq_ok.2 ?_⟩
  rw [Parser.bind_of_ok htag, Parser.bind_of_ok hstop, if_pos hself]
  rfl

/-- Another element is read where its tags and its body are. -/
theorem element_of_body (hfirst : opener.read s = .ok (first, s₁))
    (htag : Part.readAll operand header s₁ = .ok (tag, s₂))
    (hstop : Part.readAll operand headerEnd s₂ = .ok (stop, s₃))
    (hopen : ∀ last ∈ stop, last.text ≠ ['/', '>'])
    (hitems : (body item).parser s₃ = .ok (items, s₄))
    (hclosing : Part.readAll operand footer s₄ = .ok (closing, rest)) :
    (element operand item).parser s =
      .ok (.node none .element (first :: tag ++ stop ++ items ++ closing), rest) := by
  have hopen : ¬(stop.any fun t => t.text = ['/', '>']) = true := by simpa using hopen
  simp only [element, Reading.parser_bind, Reading.parser_quiet, Reading.parser_inside]
  refine Parser.bind_eq_ok.2 ⟨s, s, Reading.parser_here_eq_ok.2 ⟨rfl, rfl⟩, ?_⟩
  refine Parser.bind_eq_ok.2 ⟨first, s₁, hfirst, Parser.inside_eq_ok.2 ?_⟩
  rw [Parser.bind_of_ok htag, Parser.bind_of_ok hstop, if_neg hopen]
  simp only [Reading.parser_bind, Reading.parser_quiet]
  rw [Parser.bind_of_ok hitems, Parser.bind_of_ok hclosing]
  rfl

/-- The bracket of an element is one leaf. -/
theorem opener_eq_ok (h : opener.read s = .ok (first, rest)) :
    first = .leaf none .punctuation [] ['<'] ∧ s = '<' :: rest := by
  obtain ⟨next, taken, hscan, htake, rfl, rfl⟩ := Terminal.exists_of_read h
  cases hscan
  obtain ⟨hk, rfl⟩ := Pattern.kind_of_take? htake
  unfold Token.scanText at hk ⊢
  split at hk
  case h_6 => exact ⟨rfl, rfl⟩
  all_goals cases hk

/-- A tag begins where a bracket stands in front of a letter. -/
theorem scanText_of_isAlpha {c : Char} (hc : c.isAlpha = true) (y : Input) :
    Token.scanText ('<' :: c :: y) = ⟨.tagOpen, [], ['<'], c :: y⟩ := by
  have hslash : c ≠ '/' := by
    rintro rfl
    cases hc
  simp [Token.scanText, hslash]

/-- The bracket of an element is read in front of a letter. -/
theorem read_opener_of_isAlpha {c : Char} (hc : c.isAlpha = true) (y : Input) :
    opener.read ('<' :: c :: y) = .ok (.leaf none .punctuation [] ['<'], c :: y) :=
  Terminal.read_of_scan (t := opener) (congrArg Except.ok (scanText_of_isAlpha hc y)) rfl

/-- The bracket of an element is the same in front of more input, if something follows it. -/
theorem opener_append (h : opener.read s = .ok (first, s₁)) (hs : s₁ ≠ []) (x : Input) :
    opener.read (s ++ x) = .ok (first, s₁ ++ x) := by
  have hlength : 2 ≤ s.length := by
    have hrest := List.length_pos_iff.2 hs
    have hlt := (opener_rest_lt h).2
    omega
  obtain ⟨next, taken, hscan, htake, rfl, rfl⟩ := Terminal.exists_of_read h
  cases hscan
  have hkind := (Pattern.kind_of_take? htake).1
  have hmore : Token.scan opener.mode (s ++ x) = .ok ((Token.scanText s).append x) := by
    rw [← Token.scanText_append hlength (by simp [hkind]) x]
    rfl
  exact Terminal.read_of_scan hmore (Pattern.take?_append_of_some htake x)

/-- Something follows the bracket of an element that is read. -/
theorem rest_opener_ne_nil {depth : Nat}
    (htag : Part.readAll (expression depth) header s₁ = .ok (tag, s₂))
    (hstop : Part.readAll (expression depth) headerEnd s₂ = .ok (stop, s₃)) : s₁ ≠ [] := by
  have hsuffix := (Part.readAll_within (expression_within depth) header).rest htag
  exact List.ne_nil_of_mem (hsuffix.subset (headerEnd_closing depth hstop).1)

/-- An element that is read has two characters at least. -/
theorem two_le_of_element {depth : Nat} {t : Tree}
    (h : (element (expression depth) item).parser s = .ok (t, rest)) : 2 ≤ s.length := by
  obtain ⟨first, s₁, tag, s₂, stop, s₃, hfirst, htag, hstop, -⟩ := element_eq_ok h
  obtain ⟨-, hlt⟩ := opener_rest_lt hfirst
  have := List.length_pos_iff.2 (rest_opener_ne_nil htag hstop)
  omega

/-- An element is the same in front of more input, if its body is. -/
theorem element_append {depth : Nat} {t : Tree}
    (hbody : ∀ {s ts rest}, (body item).parser s = .ok (ts, rest) →
      ∀ x, (body item).parser (s ++ x) = .ok (ts, rest ++ x))
    (h : (element (expression depth) item).parser s = .ok (t, rest)) (x : Input) :
    (element (expression depth) item).parser (s ++ x) = .ok (t, rest ++ x) := by
  obtain ⟨first, s₁, tag, s₂, stop, s₃, hfirst, htag, hstop, hkind⟩ := element_eq_ok h
  have hfirst := opener_append hfirst (rest_opener_ne_nil htag hstop) x
  obtain ⟨hbracket, hstop⟩ := headerEnd_closing depth hstop
  have htag := header_local depth hbracket htag x
  rcases hkind with ⟨hself, rfl, rfl⟩ | ⟨hopen, items, s₄, closing, hitems, hclosing, rfl⟩
  · exact element_of_selfClosing hfirst htag (hstop x) hself
  · exact element_of_body hfirst htag (hstop x) hopen (hbody hitems x)
      (footer_local depth trivial hclosing x)

/-! ## Rows -/

/-- A row of items that are read: `s` begins with it, and `rest` is left after it. -/
inductive Row (item : Reading (List Tree)) : Input → List Tree → Input → Prop
  | nil (s : Input) : Row item s [] s
  | cons {s s' rest : Input} {ts others : List Tree} (hs : s ≠ [])
    (h : item.parser s = .ok (ts, s')) (hmore : Row item s' others rest) :
    Row item s (ts ++ others) rest

/-- A reader of items that does not look further than what follows an item makes it. -/
structure Bounded (item : Reading (List Tree)) : Prop where
  reads : ReadsItems item
  /-- There is no item where a closing tag begins. -/
  opens : ∀ ⦃s ts rest⦄, item.parser s = .ok (ts, rest) → atFooter s = false
  /-- The statement that ends a raw block holds its own end. -/
  closes : ∀ ⦃s ts rest⦄, item.parser s = .ok (ts, rest) → Token.atEndRaw s = true → '}' ∈ s
  /-- An item is the same in front of more input, if literal text has an opener behind it and the
  end of a raw block is there as a whole. -/
  append : ∀ ⦃s ts rest⦄, item.parser s = .ok (ts, rest) → ∀ x,
    (rest ≠ [] ∨ x.head? = some '<' ∨ ∀ t ∈ ts.getLast?, t.kind ≠ .text) →
    (Token.atEndRaw rest = true → '}' ∈ rest) → item.parser (s ++ x) = .ok (ts, rest ++ x)

namespace Row

variable {ts : List Tree}

/-- A row is the same in front of more input, if its last item is. -/
theorem append (hitem : Bounded item) (h : Row item s ts rest)
    (hlast : rest ≠ [] ∨ x.head? = some '<' ∨ ∀ t ∈ ts.getLast?, t.kind ≠ .text)
    (hraw : Token.atEndRaw rest = true → '}' ∈ rest) : Row item (s ++ x) ts (rest ++ x) := by
  induction h with
  | nil => exact .nil _
  | cons hs h hmore ih =>
    rename_i s s' rest ts others
    have hs' : s ++ x ≠ [] := by simp [hs]
    cases hmore with
    | nil =>
      rw [List.append_nil] at hlast
      exact .cons hs' (hitem.append h x hlast hraw) (.nil _)
    | cons hne hnext hothers =>
      rename_i s₂ next others
      -- The next item says where this one ends.
      have hne' : next ++ others ≠ [] := by simp [(hitem.reads.items hne hnext).1]
      have hsame : (ts ++ (next ++ others)).getLast? = (next ++ others).getLast? := by
        rw [List.getLast?_append, List.getLast?_eq_some_getLast hne', Option.some_or]
      rw [hsame] at hlast
      exact .cons hs' (hitem.append h x (.inl hne) (hitem.closes hnext)) (ih hlast hraw)

/-- A row of items up to a closing tag is a body. -/
theorem body (hitem : Bounded item) (h : Row item s ts rest) (hfooter : atFooter rest = true) :
    (body item).parser s = .ok (ts, rest) := by
  induction h with
  | nil s =>
    have hs : s ≠ [] := by
      rintro rfl
      cases hfooter
    rw [Reading.parser, Markup.body, if_neg hs, if_pos hfooter]
  | cons hs h hmore ih =>
    rename_i s s' rest ts others
    have hopen : ¬atFooter s = true := by simp [hitem.opens h]
    have hfirst : (item s).result = .ok (ts, s') := h
    have hothers : (Markup.body item s').result = .ok (others, rest) := ih hfooter
    rw [Reading.parser, Markup.body, if_neg hs, if_neg hopen]
    simp only [hfirst, if_pos (hitem.reads.rest_lt hs h), hothers]
    rfl

end Row

/-- A body is a row of items up to a closing tag. -/
theorem row_of_body {ts : List Tree} (hitem : ReadsItems item)
    (h : (body item).parser s = .ok (ts, rest)) : Row item s ts rest ∧ atFooter rest = true := by
  refine body_induction (motive := fun s ts rest => Row item s ts rest ∧ atFooter rest = true)
    ?stop ?next ?stuck h
  case stop => exact fun s hfooter => ⟨.nil s, hfooter⟩
  case next => exact fun hs hfirst _ ⟨hrow, hfooter⟩ => ⟨.cons hs hfirst hrow, hfooter⟩
  case stuck => exact fun hs hfirst hlt => absurd (hitem.rest_lt hs hfirst) hlt

/-- No raw block ends where a closing tag begins. -/
theorem not_atEndRaw_of_atFooter (h : atFooter s = true) : Token.atEndRaw s = false := by
  unfold atFooter at h
  split at h
  · rfl
  · cases h

/-- A body is the same in front of more input. -/
theorem body_append {ts : List Tree} (hitem : Bounded item)
    (h : (body item).parser s = .ok (ts, rest)) (x : Input) :
    (body item).parser (s ++ x) = .ok (ts, rest ++ x) := by
  obtain ⟨hrow, hfooter⟩ := row_of_body hitem.reads h
  have hrest : rest ≠ [] := by
    rintro rfl
    cases hfooter
  have hraw : Token.atEndRaw rest = true → '}' ∈ rest := by simp [not_atEndRaw_of_atFooter hfooter]
  have hfooter' : atFooter (rest ++ x) = true := by
    unfold atFooter at hfooter
    split at hfooter
    · rfl
    · cases hfooter
  exact (hrow.append hitem (.inl hrest) hraw).body hitem hfooter'

/-! ## Items -/

/-- An item is the same in front of more input, if an element is, literal text has an opener behind
it and the end of a raw block is there as a whole. -/
theorem itemOf_append {depth : Nat} {element : Reading Tree} {ts : List Tree}
    (helement : ∀ {t}, element.parser s = .ok (t, rest) →
      2 ≤ s.length ∧ element.parser (s ++ x) = .ok (t, rest ++ x))
    (h : (itemOf (expression depth) element).parser s = .ok (ts, rest))
    (hlast : rest ≠ [] ∨ x.head? = some '<' ∨ ∀ t ∈ ts.getLast?, t.kind ≠ .text)
    (hraw : Token.atEndRaw rest = true → '}' ∈ rest) :
    (itemOf (expression depth) element).parser (s ++ x) = .ok (ts, rest ++ x) := by
  have opening : ∀ {k : TokenKind}, (Token.scanText s).kind = k → k ∈ Token.openers →
      (Token.scanText (s ++ x)).kind = k := by
    intro k hk hopener
    rw [Token.scanText_append_of_opener (hk ▸ hopener) x, Token.append_kind, hk]
  simp only [Reading.parser, itemOf_eq] at h ⊢
  split at h
  case h_1 hk =>
    cases h
    have hend : (Token.scanText s).rest ≠ [] ∨ x.head? = some '<' :=
      hlast.imp_right fun hlast => hlast.resolve_right fun htext => htext _ rfl rfl
    rw [Token.scanText_append_of_text hk hend, Token.append_kind, hk]
    rfl
  case h_2 hk =>
    rw [opening hk (by decide)]
    exact Part.value_local ahead_nothing depth none _
      (Terminal.read_opener_local rfl rfl (by decide)) trivial h x
  case h_3 hk =>
    rw [opening hk (by decide)]
    exact statement_append h hraw x
  case h_4 hk =>
    obtain ⟨t, ht, rfl⟩ := Reading.parser_single_eq_ok.1 h
    rw [opening hk (by decide)]
    exact Reading.parser_single_eq_ok.2 ⟨t, comment_append hk ht x, rfl⟩
  case h_5 hk =>
    obtain ⟨t, ht, rfl⟩ := Reading.parser_single_eq_ok.1 h
    obtain ⟨htwo, hmore⟩ := helement ht
    rw [Token.scanText_append htwo (by simp [hk]) x, Token.append_kind, hk]
    exact Reading.parser_single_eq_ok.2 ⟨t, hmore, rfl⟩
  case h_6 => cases h

/-- An item does not look further than what follows makes it, if elements that are read are the same
in front of more input. -/
theorem itemOf_bounded {depth : Nat} {element : Reading Tree}
    (hreads : ReadsItems (itemOf (expression depth) element))
    (helement : ∀ {s t rest}, element.parser s = .ok (t, rest) → 2 ≤ s.length ∧
      ∀ x, element.parser (s ++ x) = .ok (t, rest ++ x)) :
    Bounded (itemOf (expression depth) element) where
  reads := hreads
  opens s ts rest h := by
    -- A closing tag is no item.
    cases hfooter : atFooter s with
    | false => rfl
    | true =>
      unfold atFooter at hfooter
      split at hfooter
      · cases h
      · cases hfooter
  closes s ts rest h hend := by
    unfold Token.atEndRaw at hend
    split at hend
    · obtain ⟨before, c, after, hsource, -⟩ := statement_closes h
      simp [hsource]
    · cases hend
  append s ts rest h x :=
    itemOf_append (fun ht => ⟨(helement ht).1, (helement ht).2 x⟩) h

/-- An item of a strict reader does not look further than what follows makes it. -/
theorem item_bounded (depth : Nat) : Bounded (Markup.item false depth) := by
  induction depth with
  | zero => exact itemOf_bounded (item_readsItems false 0) fun h => absurd h tooDeep_ne_ok
  | succ depth ih =>
    exact itemOf_bounded (item_readsItems false (depth + 1)) fun h =>
      ⟨two_le_of_element h, element_append (fun h => body_append ih h) h⟩

end Markup

end Stencil
