import Stencil.Proofs.Concatenation
import Stencil.Proofs.Follows
import Stencil.Proofs.Lockstep

/-!
# Blanks between tokens

The blanks between the tokens of a template without faults may be replaced by others. An item of a
strict reader is read respaced where what follows it looks the same to it (`Markup.Respacing`): the
tokens of values, statements and tags are those of inputs that are alike, and text, comments and the
bodies of raw blocks end where they did. A template without faults is a row of such items, so that
it is read respaced as a whole. The main statement is `Template.parse_respaced`.
-/

namespace Stencil

open Stencil.Parser (Respaces)

variable {s s' rest rest' : Input}

/-! ## Openers -/

/-- Whether two inputs begin with an opener and are related behind it. -/
def Behind (opener : List Char) (after : Input → Input → Prop) (s s' : Input) : Prop :=
  ∃ y y', s = opener ++ y ∧ s' = opener ++ y' ∧ after y y'

/-- What begins with an opener begins with a token of its kind. -/
theorem Behind.kind {opener : List Char} {k : TokenKind} {after : Input → Input → Prop}
    (h : Behind opener after s s') (hopener : (opener, k) ∈ Token.openerTexts) :
    (Token.scanText s').kind = k := by
  obtain ⟨_, y', -, rfl, -⟩ := h
  rw [Token.scanText_of_opener hopener]

/-- An opener is respaced as itself, whatever relates the inputs behind it. -/
theorem Terminal.read_opener_respaces {t : Terminal} {opener : List Char} {k : TokenKind}
    (hmode : t.mode = .text) (hpattern : t.pattern = .kind k) (hkind : t.kind ≠ .operator)
    (hopener : (opener, k) ∈ Token.openerTexts) (after : Input → Input → Prop) :
    t.read.Respaces (Behind opener after) after .tree := by
  intro s leaf rest h leaf' hleaf
  obtain ⟨next, taken, hscan, htake, rfl, rfl⟩ := exists_of_read h
  rw [hmode] at hscan
  cases hscan
  obtain ⟨hk, rfl⟩ := Pattern.kind_of_take? (hpattern ▸ htake)
  obtain ⟨y, rfl⟩ := Token.exists_of_opener hopener hk
  rw [Token.scanText_of_opener hopener] at hleaf ⊢
  obtain rfl := Tree.Respaced.eq_of_leaf hleaf hkind
  have hplain : ∀ o ∈ Token.openerTexts, o.1.all isPlain = true := by decide
  refine ⟨.of_plain (List.all_eq_true.1 (hplain _ hopener)), fun rest' hrest => ?_⟩
  refine ⟨⟨y, rest', rfl, rfl, hrest⟩, ?_⟩
  have hscan' : Token.scan t.mode (opener ++ rest') = .ok ⟨k, [], opener, rest'⟩ := by
    rw [hmode, Token.scan, Token.scanText_of_opener hopener]
  exact Terminal.read_of_scan hscan' (by rw [hpattern]; exact if_pos rfl)

/-- Inputs that begin with an opener of two characters follow an item alike, unless the opener is
that of a statement. -/
theorem Follows.of_behind {c d : Char} {after : Input → Input → Prop}
    (h : Behind [c, d] after s s') (hopener : c = '{' → d ≠ '%') : Follows s s' := by
  obtain ⟨y, y', rfl, rfl, -⟩ := h
  have hno : ∀ y, Token.atEndRaw ([c, d] ++ y) = false := by
    intro y
    unfold Token.atEndRaw
    split
    · simp_all
    · rfl
  exact ⟨rfl, (hno y').trans (hno y).symm⟩

/-- Inputs that begin a statement and are alike behind its opener follow an item alike. -/
theorem Follows.of_statement (h : Behind ['{', '%'] (Alike Closes) s s') : Follows s s' := by
  obtain ⟨y, y', rfl, rfl, hy⟩ := h
  exact ⟨rfl, Token.atEndRaw_alike hy⟩

/-! ## Values and statements -/

/-- The tokens that end a value or a statement may be respaced, whatever follows. -/
theorem Terminal.read_close_respaces {t : Terminal} {k : TokenKind} (hmode : t.mode = .code)
    (hpattern : t.pattern = .kind k) (hkind : t.kind ≠ .operator)
    (hk : k = .valueClose ∨ k = .statementClose) :
    t.read.Respaces (Alike Closes) (fun _ _ => True) .tree := by
  have hmem : t.mode ∈ Token.codeModes := hmode ▸ by decide
  refine Terminal.read_closed closes_mono guides_code hmem hkind
    (fun {s next taken} hscan htake => ?_)
    fun _ _ rest rest' h hend hend' _ => .of_ends h hend hend' rest rest'
  rw [hmode] at hscan
  obtain ⟨hsame, rfl⟩ := Pattern.kind_of_take? (hpattern ▸ htake)
  exact Token.closes_text hscan (hsame ▸ hk)

namespace Part

variable (depth : Nat)

/-- What stands between the delimiters of a value, with the closing one, may be respaced whatever
follows. -/
theorem valueRest_respaces :
    (readAll (expression depth) [expr .expression,
      .token ⟨some .closeDelimiter, .delimiter, .code, .kind .valueClose, "`\x7d\x7d`"⟩]).Respaces
        (Alike Closes) (fun _ _ => True) .row :=
  readAll_concat_respaces frames_closes (expression_lossless depth)
    (expression_respaces frames_closes depth)
    (read_token_respaces (Terminal.read_close_respaces rfl rfl (by decide) (.inl rfl)))
    [expr .expression] rfl

/-- A value in text may be respaced, whatever follows. -/
theorem value_respaces (expected : String) :
    ((value none .text expected).read (expression depth)).Respaces
      (Behind ['{', '{'] (Alike Closes)) (fun _ _ => True) .row :=
  read_enclosed_respaces
    (Terminal.read_opener_respaces rfl rfl (by simp) (by decide) (Alike Closes))
    (valueRest_respaces depth)

/-- A statement may be respaced, whatever follows. -/
theorem statement_respaces :
    (statement.read (expression depth)).Respaces (Behind ['{', '%'] (Alike Closes))
      (fun _ _ => True) .row := by
  rw [statement, List.append_cons]
  refine read_enclosed_respaces
    (Terminal.read_opener_respaces rfl rfl (by decide) (by decide) (Alike Closes)) ?_
  refine readAll_concat_respaces frames_closes (expression_lossless depth)
    (expression_respaces frames_closes depth)
    (read_token_respaces (Terminal.read_close_respaces rfl rfl (by decide) (.inr rfl))) _ ?_
  decide +kernel

end Part

namespace Markup

/-- Reading of items that may be respaced: a respaced item is read in front of what may follow it in
place of what did, and it may follow other items where the item did. -/
def Respacing (x : Parser (List Tree)) : Prop :=
  ∀ ⦃s ts rest⦄, x s = .ok (ts, rest) → ∀ ⦃ts'⦄, List.Forall₂ Tree.Respaced ts ts' →
    ∀ ⦃rest'⦄, Follows rest rest' → Follows s (Tree.sources ts' ++ rest') ∧
      x (Tree.sources ts' ++ rest') = .ok (ts', rest')

/-! ## Comments and raw blocks -/

/-- The children of a comment are leaves without blanks before them, and no operators. -/
theorem commentLeaves_eq_leaf (content : List Char) : ∀ t ∈ commentLeaves content,
    ∃ f kind text, t = .leaf f kind [] text ∧ kind ≠ .operator := by
  unfold commentLeaves
  refine List.forall_mem_append.2 ⟨List.forall_mem_cons.2 ⟨⟨_, _, _, rfl, by decide⟩, ?_⟩,
    List.forall_mem_singleton.2 ⟨_, _, _, rfl, by decide⟩⟩
  split
  · exact List.forall_mem_nil _
  · exact List.forall_mem_singleton.2 ⟨_, _, _, rfl, by decide⟩

/-- A comment is respaced as itself, and it is read whatever follows. -/
theorem comment_respaced {t t' : Tree} (hk : (Token.scanText s).kind = .commentOpen)
    (h : comment.parser s = .ok (t, rest)) (ht : t.Respaced t') (rest' : Input) :
    Behind ['{', '#'] (fun _ _ => True) s (t'.source ++ rest') ∧
      comment.parser (t'.source ++ rest') = .ok (t', rest') := by
  obtain ⟨content, rfl, rfl, hread⟩ := comment_eq_ok hk h
  obtain ⟨ts, hts, rfl⟩ := (Layout.keeps_node none .comment).respaced ht
  obtain rfl := Tree.Respaced.eq_of_leaves hts (commentLeaves_eq_leaf content)
  have hsource : (Tree.node none .comment (commentLeaves content)).source ++ rest' =
      ['{', '#'] ++ (content ++ '#' :: '}' :: rest') := by
    rw [Tree.source, sources_commentLeaves]
    simp
  rw [hsource]
  exact ⟨⟨_, _, rfl, rfl, trivial⟩, hread rest'⟩

/-- The body of a raw block is respaced as itself, and it ends where the block does. -/
theorem rawBody_respaced {opener opener' : Input} {ts ts' : List Tree}
    (h : (rawBody opener).parser s = .ok (ts, rest)) (hts : List.Forall₂ Tree.Respaced ts ts')
    (hrest : Follows rest rest') :
    (rawBody opener').parser (Tree.sources ts' ++ rest') = .ok (ts', rest') := by
  simp only [Reading.parser, rawBody] at h ⊢
  cases hscan : (Token.scanRaw s).rest with
  | nil =>
    rw [hscan] at h
    cases h
  | cons c more =>
    rw [hscan] at h
    cases h
    have hleaves : ∀ t ∈ (if (Token.scanRaw s).text = [] then []
        else [(Token.scanRaw s).leaf none .text]), ∃ f kind text,
          t = .leaf f kind [] text ∧ kind ≠ .operator := by
      split
      · simp
      · exact List.forall_mem_singleton.2 ⟨_, _, _, rfl, by decide⟩
    obtain rfl := Tree.Respaced.eq_of_leaves hts hleaves
    have hsource : Tree.sources (if (Token.scanRaw s).text = [] then []
        else [(Token.scanRaw s).leaf none .text]) = (Token.scanRaw s).text := by
      split
      · rename_i hnil
        rw [hnil]
        rfl
      · exact List.append_nil _
    have hreplace := @Token.scanRaw_replace s rest' (by simp [hscan]) (by rw [hrest.raw, hscan])
    rw [hsource, hreplace]
    obtain ⟨d, others, rfl⟩ := List.exists_cons_of_ne_nil fun hnil =>
      List.cons_ne_nil c more ((eq_nil_iff_of_take_two hrest.take).1 hnil)
    rfl

/-- Whether some trees begin a raw block does not depend on their blanks. -/
theorem opensRaw_respaced {ts ts' : List Tree} (h : List.Forall₂ Tree.Respaced ts ts') :
    opensRaw ts' = opensRaw ts := by
  have hany : ∀ {ts ts' : List Tree}, List.Forall₂ Tree.Respaced ts ts' →
      (ts'.any fun body => body.kind = .rawStatement) =
        ts.any fun body => body.kind = .rawStatement := by
    intro ts ts' h
    induction h with
    | nil => rfl
    | cons ht _ ih => rw [List.any_cons, List.any_cons, ht.kind, ih]
  induction h with
  | nil => rfl
  | cons ht _ ih =>
    unfold opensRaw at ih ⊢
    rw [List.any_cons, List.any_cons, ih]
    cases ht with
    | leaf => rfl
    | node hts => rw [Tree.children, Tree.children, hany hts]

/-- A statement, with the body of the raw block that it may begin, may be respaced. -/
theorem statement_respaced {depth : Nat} {ts ts' : List Tree}
    (h : (statement (expression depth)).parser s = .ok (ts, rest))
    (hts : List.Forall₂ Tree.Respaced ts ts') (hrest : Follows rest rest') :
    Behind ['{', '%'] (Alike Closes) s (Tree.sources ts' ++ rest') ∧
      (statement (expression depth)).parser (Tree.sources ts' ++ rest') = .ok (ts', rest') := by
  obtain ⟨read, s₁, hread, ⟨hraw, rfl, rfl⟩ | ⟨hraw, body, hbody, rfl⟩⟩ := statement_eq_ok.1 h
  · obtain ⟨-, hread'⟩ := Part.statement_respaces depth hread hts
    obtain ⟨hs, hread'⟩ := @hread' rest' trivial
    exact ⟨hs, statement_eq_ok.2 ⟨ts', rest', hread', .inl
      ⟨(opensRaw_respaced hts).trans hraw, rfl, rfl⟩⟩⟩
  · obtain ⟨read', body', rfl, hreads, hbodies⟩ := forall₂_append hts
    obtain ⟨-, hread'⟩ := Part.statement_respaces depth hread hreads
    obtain ⟨hs, hread'⟩ := @hread' (Tree.sources body' ++ rest') trivial
    rw [Tree.sources_append, List.append_assoc]
    exact ⟨hs, statement_eq_ok.2 ⟨read', _, hread', .inr
      ⟨(opensRaw_respaced hreads).trans hraw, body', rawBody_respaced hbody hbodies hrest, rfl⟩⟩⟩

/-! ## Tags -/

section Tags

variable (depth : Nat)

/-- A token of a tag may be respaced, if the inputs behind it are alike. -/
theorem read_tagToken_respaces {t : Terminal} (hmode : t.mode = .tag) :
    ((Part.token t).read (expression depth)).Respaces (Alike fun s => '>' ∈ s)
      (Alike fun s => '>' ∈ s) .row :=
  Part.read_token_respaces (Terminal.read_respaces guides_tag (by simp [hmode]))

/-- What is looked at in a tag is found in inputs that are alike. -/
theorem tagLook_steady (k : TokenKind) :
    (Look.next .tag (.kind k)).Steady (Alike fun s => '>' ∈ s) :=
  Look.next_steady guides_tag (List.mem_singleton_self _) (.kind k)

/-- A token that ends a tag may be respaced, whatever follows. -/
theorem read_bracket_respaces {t : Terminal} {k : TokenKind} (hmode : t.mode = .tag)
    (hpattern : t.pattern = .kind k) (hkind : t.kind ≠ .operator)
    (hk : k = .tagClose ∨ k = .selfClose) :
    ((Part.token t).read (expression depth)).Respaces (Alike fun s => '>' ∈ s) (fun _ _ => True)
      .row := by
  have hmem : t.mode ∈ [Mode.tag] := hmode ▸ List.mem_singleton_self _
  refine Part.read_token_respaces
    (Terminal.read_closed bracket_mono guides_tag hmem hkind
      (fun {s next taken} hscan htake => ?_)
      fun _ _ rest rest' h hend hend' _ => .of_ends h hend hend' rest rest')
  rw [hmode] at hscan
  obtain ⟨hsame, rfl⟩ := Pattern.kind_of_take? (hpattern ▸ htake)
  exact bracket_mem_text hscan (hsame ▸ hk)

/-- An attribute may be respaced, if the inputs behind it are alike. -/
theorem attributePart_respaces :
    (attributePart.read (expression depth)).Respaces (Alike fun s => '>' ∈ s)
      (Alike fun s => '>' ∈ s) .row := by
  have hvalue : ((Part.value (some .value) .tag "quoted attribute value or `\x7b\x7b`").read
      (expression depth)).Respaces (Alike fun s => '>' ∈ s) (Alike fun s => '>' ∈ s) .row :=
    Part.read_enclosed_respaces (Terminal.read_respaces guides_tag (List.mem_singleton_self _))
      ((Part.valueRest_respaces depth).carry bracket_mono
        (Part.readAll_lossless (expression_lossless depth) _))
  refine Respaces.map (Layout.keeps_singleton.comp (Layout.keeps_node none .tagAttribute)) ?_
  refine Part.readAll_cons_respaces (read_tagToken_respaces depth rfl)
    (Part.readAll_singleton_respaces ?_)
  -- The sign of assignment goes before a string or a value, and nothing does without it.
  refine Part.read_choice_respaces (tagLook_steady .assign) ?_ Part.readAll_nil_respaces
  refine Part.readAll_cons_respaces (read_tagToken_respaces depth rfl)
    (Part.readAll_singleton_respaces ?_)
  refine Part.read_choice_respaces (tagLook_steady .quoted) ?_ ?_
  · exact Part.readAll_singleton_respaces (read_tagToken_respaces depth rfl)
  · exact Part.readAll_singleton_respaces hvalue

/-- The name and the attributes of a tag may be respaced, if the inputs behind them are alike. -/
theorem header_respaces :
    (Part.readAll (expression depth) header).Respaces (Alike fun s => '>' ∈ s)
      (Alike fun s => '>' ∈ s) .row :=
  Part.readAll_cons_respaces (read_tagToken_respaces depth rfl)
    (Part.readAll_singleton_respaces (Part.read_repeated_respaces (expression_lossless depth)
      (tagLook_steady .word) (Part.readAll_singleton_respaces (attributePart_respaces depth))))

/-- The end of an opening tag may be respaced, whatever follows. -/
theorem headerEnd_respaces :
    (Part.readAll (expression depth) headerEnd).Respaces (Alike fun s => '>' ∈ s)
      (fun _ _ => True) .row :=
  Part.readAll_singleton_respaces (Part.read_choice_respaces (tagLook_steady .selfClose)
    (Part.readAll_singleton_respaces (read_bracket_respaces depth rfl rfl (by decide) (.inr rfl)))
    (Part.readAll_singleton_respaces (read_bracket_respaces depth rfl rfl (by decide) (.inl rfl))))

/-- A closing tag may be respaced, whatever follows. -/
theorem footer_respaces :
    (Part.readAll (expression depth) footer).Respaces
      (Behind ['<', '/'] (Alike fun s => '>' ∈ s)) (fun _ _ => True) .row :=
  Part.readAll_cons_respaces
    (Part.read_token_respaces (Terminal.read_opener_respaces rfl rfl (by decide) (by decide) _))
    (Part.readAll_cons_respaces (read_tagToken_respaces depth rfl)
      (Part.readAll_singleton_respaces
        (read_bracket_respaces depth rfl rfl (by decide) (.inl rfl))))

end Tags

/-! ## Elements -/

/-- A word of a tag begins with a letter. -/
theorem exists_of_tagWord {t : Token} (h : Token.scan .tag s = .ok t) (hk : t.kind = .word) :
    ∃ c more, t.text = c :: more ∧ c.isAlpha = true := by
  obtain ⟨next, hnext, hsame, htext⟩ := Token.exists_scan_of_afterBlanks h
  rw [htext]
  rw [hsame] at hk
  unfold Token.scanTag at hnext
  repeat' split at hnext
  all_goals cases hnext
  case h_1 => cases hk
  case h_1 hquote _ _ hscan =>
    obtain ⟨_, -, rfl⟩ := Option.map_eq_some_iff.1 hscan
    cases hk
  case h_6.isFalse.isTrue.refl hname => exact ⟨_, _, rfl, hname⟩
  all_goals cases hk

/-- The name of a tag touches its bracket and begins with a letter. -/
theorem exists_of_header {operand : Extent → Parser Tree} {tag : List Tree}
    (h : Part.readAll operand header s = .ok (tag, rest)) :
    ∃ c name attributes, c.isAlpha = true ∧
      tag = .leaf (some .name) .tagName [] (c :: name) :: attributes := by
  obtain ⟨first, s₁, hfirst, h⟩ := Parser.bind_eq_ok.1 h
  obtain ⟨attributes, s₂, -, h⟩ := Parser.bind_eq_ok.1 h
  obtain ⟨rfl, rfl⟩ := Parser.pure_eq_ok.1 h
  rw [Part.read] at hfirst
  obtain ⟨leaf, s₃, hleaf, hfirst⟩ := Parser.bind_eq_ok.1 hfirst
  obtain ⟨rfl, rfl⟩ := Parser.pure_eq_ok.1 hfirst
  obtain ⟨next, taken, hscan, htake, rfl, -⟩ := Terminal.exists_of_read hleaf
  simp only [Pattern.take?] at htake
  split at htake
  · rename_i hgap
    split at htake
    · rename_i hk
      cases htake
      obtain ⟨c, name, htext, hc⟩ := exists_of_tagWord hscan hk
      exact ⟨c, name, attributes, hc, by simp [Token.leaf, hgap, htext]⟩
    · cases htake
  · cases htake

/-- What ends an opening tag is one leaf. -/
theorem exists_of_headerEnd {operand : Extent → Parser Tree} {stop : List Tree}
    (h : Part.readAll operand headerEnd s = .ok (stop, rest)) :
    ∃ gap text, stop = [.leaf none .punctuation gap text] := by
  have hyields : Part.YieldsAll (fun _ _ => True) headerEnd stop :=
    Part.readAll_yields (fun _ => trivial) headerEnd h
  obtain ⟨_, _, hleaf | hleaf, rfl, rfl⟩ := hyields
  all_goals
    obtain ⟨_, _, ⟨leaf, hleaf, rfl⟩, rfl, rfl⟩ := hleaf
    obtain ⟨gap, text, rfl⟩ := hleaf.eq
    exact ⟨gap, text, rfl⟩

/-- Two inputs that begin with the same tag bracket and letter. -/
def BeginTag (s s' : Input) : Prop :=
  ∃ c y y', c.isAlpha = true ∧ s = '<' :: c :: y ∧ s' = '<' :: c :: y'

variable {depth : Nat} {item : Reading (List Tree)}

/-- The opening tag of an element may be respaced, whatever follows, and closes itself if it did. -/
theorem openingTag_respaced {s₁ s₂ s₃ : Input} {first : Tree} {tag stop row : List Tree}
    (hfirst : opener.read s = .ok (first, s₁))
    (htag : Part.readAll (expression depth) header s₁ = .ok (tag, s₂))
    (hstop : Part.readAll (expression depth) headerEnd s₂ = .ok (stop, s₃))
    (hrow : List.Forall₂ Tree.Respaced (first :: tag ++ stop) row) (rest' : Input) :
    ∃ tag' stop' s₁' s₂', row = first :: tag' ++ stop' ∧
      opener.read (Tree.sources row ++ rest') = .ok (first, s₁') ∧
      Part.readAll (expression depth) header s₁' = .ok (tag', s₂') ∧
      Part.readAll (expression depth) headerEnd s₂' = .ok (stop', rest') ∧
      BeginTag s (Tree.sources row ++ rest') ∧
      stop'.map Tree.text = stop.map Tree.text := by
  obtain ⟨rfl, rfl⟩ := opener_eq_ok hfirst
  obtain ⟨c, name, attributes, hc, rfl⟩ := exists_of_header htag
  obtain ⟨gap, text, rfl⟩ := exists_of_headerEnd hstop
  obtain ⟨front, stop', rfl, hfront, hstop'⟩ := forall₂_append hrow
  obtain ⟨bracket, tag', hbracket, htag', rfl⟩ := List.forall₂_cons_left_iff.1 hfront
  obtain rfl := hbracket.eq_of_leaf (by decide)
  -- The inputs are alike up to the bracket that ends the tag.
  obtain ⟨-, hreadStop⟩ := headerEnd_respaces depth hstop hstop'
  obtain ⟨hs₂, hreadStop⟩ := @hreadStop rest' trivial
  obtain ⟨-, hreadTag⟩ := header_respaces depth htag htag'
  obtain ⟨-, hreadTag⟩ := hreadTag hs₂
  -- The name of the tag is the same.
  have hsource := Part.readAll_lossless (expression_lossless depth) header htag
  obtain ⟨first', attributes', hname, -, rfl⟩ := List.forall₂_cons_left_iff.1 htag'
  obtain rfl := hname.eq_of_leaf (by decide)
  simp only [Layout.row, Tree.sources, Tree.source, List.nil_append, List.cons_append,
    List.append_assoc, Tree.sources_append] at hsource hreadStop hreadTag ⊢
  refine ⟨_, stop', _, _, rfl, read_opener_of_isAlpha hc _, hreadTag, hreadStop,
    ⟨c, _, _, hc, by rw [← hsource], rfl⟩, ?_⟩
  obtain ⟨last, rfl, hlast⟩ := forall₂_singleton hstop'
  cases hlast with
  | leaf hgap htext =>
    obtain rfl := htext.resolve_right fun hwords => absurd hwords.1 (by decide)
    simp [Tree.text, Tree.source, Tree.gap]

/-- An element may be respaced, if its body may. -/
theorem element_respaced {t t' : Tree}
    (hbody : ∀ {s ts rest}, (body item).parser s = .ok (ts, rest) →
      ∀ {ts'}, List.Forall₂ Tree.Respaced ts ts' → ∀ {rest'}, Follows rest rest' →
        (body item).parser (Tree.sources ts' ++ rest') = .ok (ts', rest'))
    (h : (element (expression depth) item).parser s = .ok (t, rest)) (ht : t.Respaced t')
    (rest' : Input) :
    BeginTag s (t'.source ++ rest') ∧
      (element (expression depth) item).parser (t'.source ++ rest') = .ok (t', rest') := by
  obtain ⟨first, s₁, tag, s₂, stop, s₃, hfirst, htag, hstop, hkind⟩ := element_eq_ok h
  have closes : ∀ {stop stop' : List Tree}, stop'.map Tree.text = stop.map Tree.text →
      ((∃ last ∈ stop', last.text = ['/', '>']) ↔ ∃ last ∈ stop, last.text = ['/', '>']) := by
    intro stop stop' htexts
    have hmem := fun ts : List Tree => @List.mem_map _ _ ['/', '>'] Tree.text ts
    rw [← hmem, ← hmem, htexts]
  rcases hkind with ⟨hself, rfl, rfl⟩ | ⟨hopen, items, s₄, closing, hitems, hclosing, rfl⟩
  · obtain ⟨row, hrow, rfl⟩ := (Layout.keeps_node none .element).respaced ht
    obtain ⟨tag', stop', s₁', s₂', rfl, hfirst', htag', hstop', hbegin, htexts⟩ :=
      openingTag_respaced hfirst htag hstop hrow rest'
    exact ⟨hbegin, element_of_selfClosing hfirst' htag' hstop' ((closes htexts).2 hself)⟩
  · obtain ⟨row, hrow, rfl⟩ := (Layout.keeps_node none .element).respaced ht
    obtain ⟨row, closing', rfl, hrow, hclosing'⟩ := forall₂_append hrow
    obtain ⟨front, items', rfl, hfront, hitems'⟩ := forall₂_append hrow
    obtain ⟨-, hreadClosing⟩ := footer_respaces depth hclosing hclosing'
    obtain ⟨hs₄, hreadClosing⟩ := @hreadClosing rest' trivial
    have hfollows := Follows.of_behind hs₄ (by decide)
    have hreadItems := hbody hitems hitems' hfollows
    obtain ⟨tag', stop', s₁', s₂', rfl, hfirst', htag', hstop', hbegin, htexts⟩ :=
      openingTag_respaced hfirst htag hstop hfront
        (Tree.sources items' ++ (Tree.sources closing' ++ rest'))
    rw [Tree.source, Tree.sources_append, Tree.sources_append, List.append_assoc, List.append_assoc]
    refine ⟨hbegin, element_of_body hfirst' htag' hstop' (fun last hlast hself => ?_) hreadItems
      hreadClosing⟩
    obtain ⟨last, hlast, hself⟩ := (closes htexts).1 ⟨last, hlast, hself⟩
    exact hopen last hlast hself

/-! ## Items -/

/-- Inputs that begin the same tag follow an item alike. -/
theorem follows_of_beginTag (h : BeginTag s s') : Follows s s' := by
  obtain ⟨c, y, y', -, rfl, rfl⟩ := h
  exact ⟨rfl, rfl⟩

/-- Text is respaced as itself, where what follows looks the same. -/
theorem text_respaced {ts : List Tree} (hk : (Token.scanText s).kind = .text)
    (hts : List.Forall₂ Tree.Respaced [(Token.scanText s).leaf none .text] ts)
    (hrest : Follows (Token.scanText s).rest rest') :
    ts = [(Token.scanText s).leaf none .text] ∧ Follows s (Tree.sources ts ++ rest') ∧
      Token.scanText (Tree.sources ts ++ rest') = { Token.scanText s with rest := rest' } := by
  have hgap := Token.scanText_gap s
  have hleaf : (Token.scanText s).leaf none .text =
      .leaf none .text [] (Token.scanText s).text := by
    rw [Token.leaf, hgap]
  rw [hleaf] at hts ⊢
  obtain rfl := Tree.Respaced.eq_of_leaves hts
    (List.forall_mem_singleton.2 ⟨_, _, _, rfl, by decide⟩)
  have hsource : Tree.sources [Tree.leaf none .text [] (Token.scanText s).text] =
      (Token.scanText s).text := List.append_nil _
  rw [hsource]
  refine ⟨rfl, ?_, Token.scanText_replace hk hrest.take⟩
  have htake : ((Token.scanText s).text ++ rest').take 2 = s.take 2 := by
    have hstart : (Token.scanText s).text ++ (Token.scanText s).rest = s := by
      simpa [Token.start, hgap] using Token.scanText_start s
    rw [take_two_append hrest.take, hstart]
  -- Where text begins no raw block ends.
  have hopener := (Token.not_atOpener_of_scanText hk).2
  refine ⟨htake, ?_⟩
  rw [Token.not_atEndRaw_of_not_atOpener hopener,
    Token.not_atEndRaw_of_not_atOpener ((atOpener_of_take_two htake).trans hopener)]

/-- An item may be respaced, if an element may be. -/
theorem itemOf_respacing {depth : Nat} {element : Reading Tree}
    (helement : ∀ {s t rest}, element.parser s = .ok (t, rest) → ∀ {t'}, t.Respaced t' →
      ∀ rest', BeginTag s (t'.source ++ rest') ∧
        element.parser (t'.source ++ rest') = .ok (t', rest')) :
    Respacing (itemOf (expression depth) element).parser := by
  intro s ts rest h ts' hts rest' hrest
  simp only [Reading.parser, itemOf_eq] at h ⊢
  split at h
  case h_1 hk =>
    cases h
    obtain ⟨rfl, hfollows, hscan⟩ := text_respaced hk hts hrest
    refine ⟨hfollows, ?_⟩
    rw [hscan]
    simp only [hk]
    rfl
  case h_2 hk =>
    obtain ⟨-, hread⟩ := Part.value_respaces depth _ h hts
    obtain ⟨hs, hread⟩ := @hread rest' trivial
    refine ⟨.of_behind hs (by decide), ?_⟩
    change Behind _ _ s (Tree.sources ts' ++ rest') at hs
    rw [hs.kind (k := .valueOpen) (by decide)]
    exact hread
  case h_3 hk =>
    obtain ⟨hs, hread⟩ := statement_respaced h hts hrest
    rw [hs.kind (k := .statementOpen) (by decide)]
    exact ⟨.of_statement hs, hread⟩
  case h_4 hk =>
    obtain ⟨t, ht, rfl⟩ := Reading.parser_single_eq_ok.1 h
    obtain ⟨t', rfl, ht'⟩ := forall₂_singleton hts
    obtain ⟨hs, hread⟩ := comment_respaced hk ht ht' rest'
    have hsource : Tree.sources [t'] = t'.source := List.append_nil _
    rw [hsource, hs.kind (k := .commentOpen) (by decide)]
    exact ⟨.of_behind hs (by decide), Reading.parser_single_eq_ok.2 ⟨t', hread, rfl⟩⟩
  case h_5 hk =>
    obtain ⟨t, ht, rfl⟩ := Reading.parser_single_eq_ok.1 h
    obtain ⟨t', rfl, ht'⟩ := forall₂_singleton hts
    obtain ⟨hs, hread⟩ := helement ht ht' rest'
    have hsource : Tree.sources [t'] = t'.source := List.append_nil _
    have hkind : (Token.scanText (t'.source ++ rest')).kind = .tagOpen := by
      obtain ⟨c, _, y', hc, -, hs'⟩ := hs
      rw [hs', scanText_of_isAlpha hc]
    rw [hsource, hkind]
    exact ⟨follows_of_beginTag hs, Reading.parser_single_eq_ok.2 ⟨t', hread, rfl⟩⟩
  case h_6 => cases h

/-- A row of items may be respaced, if an item may be. -/
theorem Row.respaced (hitem : Respacing item.parser) {ts ts' : List Tree} (h : Row item s ts rest)
    (hts : List.Forall₂ Tree.Respaced ts ts') (hrest : Follows rest rest') :
    Follows s (Tree.sources ts' ++ rest') ∧ Row item (Tree.sources ts' ++ rest') ts' rest' := by
  induction h generalizing ts' with
  | nil =>
    cases hts
    exact ⟨hrest, .nil rest'⟩
  | cons hs h hmore ih =>
    obtain ⟨first, others, rfl, hfirst, hothers⟩ := forall₂_append hts
    obtain ⟨hfollows, hrow⟩ := ih hothers hrest
    obtain ⟨hs', hread⟩ := hitem h hfirst hfollows
    rw [Tree.sources_append, List.append_assoc]
    exact ⟨hs', .cons (fun hnil => hs ((eq_nil_iff_of_take_two hs'.take).1 hnil)) hread hrow⟩

/-- A closing tag begins where one input follows in place of another that begins one. -/
theorem atFooter_of_follows (h : Follows s s') (hfooter : atFooter s = true) :
    atFooter s' = true := by
  unfold atFooter at hfooter
  split at hfooter
  · have htake : s'.take 2 = ['<', '/'] := h.take
    rcases s' with _ | ⟨c, _ | ⟨d, s'⟩⟩
    all_goals cases htake
    rfl
  · cases hfooter

/-- The body of an element may be respaced, if an item may be. -/
theorem body_respaced (hbounded : Bounded item) (hitem : Respacing item.parser)
    {ts ts' : List Tree} (h : (body item).parser s = .ok (ts, rest))
    (hts : List.Forall₂ Tree.Respaced ts ts') (hrest : Follows rest rest') :
    (body item).parser (Tree.sources ts' ++ rest') = .ok (ts', rest') := by
  obtain ⟨hrow, hfooter⟩ := row_of_body hbounded.reads h
  exact (hrow.respaced hitem hts hrest).2.body hbounded (atFooter_of_follows hrest hfooter)

/-- An item of a strict reader may be respaced. -/
theorem item_respacing (depth : Nat) : Respacing (Markup.item false depth).parser := by
  induction depth with
  | zero => exact itemOf_respacing fun h => absurd h tooDeep_ne_ok
  | succ depth ih =>
    exact itemOf_respacing fun h => element_respaced
      (fun h _ hts _ hrest => body_respaced (item_bounded depth) ih h hts hrest) h

end Markup

/-! ## Templates -/

namespace Template

/-- The leaves of a template are written one after another in its source. -/
theorem sources_leaves (options : Options) (source : Input) :
    Tree.sources (parse options source).tree.leaves = source := by
  obtain ⟨items, htree, -, hsource⟩ := parse_items options source
  rw [htree, Tree.sources_leaves, Tree.source, hsource]

/-- A template without faults is read without faults where other blanks stand between its tokens,
and between the words of its operators `not in`: its leaves are then the same but for these blanks,
and its tree is written the same. -/
theorem parse_respaced (options : Options) (source : Input) (leaves : List Tree)
    (hclean : (parse options source).errors = [])
    (hleaves : List.Forall₂ Tree.Respaced (parse options source).tree.leaves leaves) :
    let respaced := parse options (Tree.sources leaves)
    Tree.sources (parse options source).tree.leaves = source ∧ respaced.errors = [] ∧
      respaced.tree.sexp = (parse options source).tree.sexp ∧ respaced.tree.leaves = leaves := by
  intro respaced
  have hrow := row_of_errors_nil hclean
  -- The leaves are those of a respaced row of items.
  obtain ⟨items, hitems, rfl⟩ := Tree.exists_respaced_of_all hleaves
  have hrespaced := (hrow.respaced (Markup.item_respacing _) hitems ⟨rfl, rfl⟩).2
  rw [List.append_nil, ← Tree.sources_leavesOfAll] at hrespaced
  obtain ⟨hnone, htree⟩ := parse_of_whole_row hrespaced
  refine ⟨sources_leaves options source, hnone, ?_, ?_⟩
  · rw [htree]
    exact (Tree.Respaced.node hitems).sexp_eq
  · rw [htree]
    rfl

/-- A value with the operator `not in`, between whose words a line break stands. -/
theorem parse_respaced_notIn :
    let options : Options := ⟨false, 2, by decide⟩
    let source : Input :=
      ['{', '{', ' ', 'a', ' ', 'n', 'o', 't', ' ', 'i', 'n', ' ', 'b', '}', '}']
    let leaves : List Tree := [.leaf (some .openDelimiter) .delimiter [] ['{', '{'],
      .leaf (some .left) .identifier ['\t', ' '] ['a'],
      .leaf (some .operator) .operator ['\n'] ['n', 'o', 't', ' ', '\r', '\n', ' ', 'i', 'n'],
      .leaf (some .right) .identifier ['\x0c'] ['b'],
      .leaf (some .closeDelimiter) .delimiter [] ['}', '}']]
    let respaced := parse options ['{', '{', '\t', ' ', 'a', '\n', 'n', 'o', 't', ' ', '\r', '\n',
      ' ', 'i', 'n', '\x0c', 'b', '}', '}']
    (parse options source).errors = [] ∧
      List.Forall₂ Tree.Respaced (parse options source).tree.leaves leaves ∧
      respaced.errors = [] ∧ respaced.tree.sexp = (parse options source).tree.sexp ∧
      respaced.tree.leaves = leaves := by
  intro options source leaves respaced
  have hclean : (parse options source).errors = [] := by
    unfold parse ofSteps
    dsimp only
    cbv
  have htree : (parse options source).tree = .node none .sourceFile
      [.node none .value
        [.leaf (some .openDelimiter) .delimiter [] ['{', '{'],
          .node (some .expression) .comparison
            [.leaf (some .left) .identifier [' '] ['a'],
              .leaf (some .operator) .operator [' '] ['n', 'o', 't', ' ', 'i', 'n'],
              .leaf (some .right) .identifier [' '] ['b']],
          .leaf (some .closeDelimiter) .delimiter [] ['}', '}']]] := by
    unfold parse ofSteps
    dsimp only
    cbv
  have hgap : ∀ c b, (c :: b).all isBlank = true → RespacedGap [' '] (c :: b) :=
    fun _ _ hblank => ⟨List.all_eq_true.1 hblank, by simp⟩
  have hnone : RespacedGap [] [] := ⟨List.forall_mem_nil _, Iff.rfl⟩
  have hwords : ∀ c b, (c :: b).all isBlank = true →
      Token.IsNotIn ("not".toList ++ (c :: b ++ "in".toList)) :=
    fun c b hblank => ⟨c :: b, ⟨List.cons_ne_nil c b, List.all_eq_true.1 hblank⟩, rfl⟩
  have hleaves : List.Forall₂ Tree.Respaced (parse options source).tree.leaves leaves := by
    rw [htree]
    exact .cons (.leaf hnone (.inl rfl))
      (.cons (.leaf (hgap '\t' [' '] rfl) (.inl rfl))
        (.cons (.leaf (hgap '\n' [] rfl)
            (.inr ⟨rfl, hwords ' ' [] rfl, hwords ' ' ['\r', '\n', ' '] rfl⟩))
          (.cons (.leaf (hgap '\x0c' [] rfl) (.inl rfl)) (.cons (.leaf hnone (.inl rfl)) .nil))))
  obtain ⟨-, herrors, hsexp, hsame⟩ := parse_respaced options source leaves hclean hleaves
  exact ⟨hclean, hleaves, herrors, hsexp, hsame⟩

end Template

end Stencil
