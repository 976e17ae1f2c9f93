import Mathlib
import Stencil.Proofs.Accounting
import Stencil.Proofs.RawTags
import Stencil.Proofs.Views

/-!
# Raw blocks

What stands behind a statement that begins a raw block is text up to the first place where the
statement that ends the block begins, and then what is read there: that statement if it is there as
a whole, and otherwise an error (`Node.Block`, `Template.exists_block`). So in a template without
faults every raw block is text up to the statement that ends it (`Template.parse_raw_closed`). Where
the block ends is decided by the beginning of that statement: the block goes up to a place where the
statement is there as a whole if and only if the statement does not begin before that place
(`Template.parse_raw_whole_iff`).
-/

namespace Stencil

variable {s rest : Input} {text : List Char}

/-! ## The first place that satisfies a test -/

section FirstPlace

variable {stop : Input → Bool}

/-- The test fails before the place where text ends. -/
theorem stop_eq_false_of_splitBefore (h : splitBefore stop s = (text, rest)) {p : List Char}
    (hne : p ≠ []) (hp : p <:+ text) : stop (p ++ rest) = false := by
  induction s generalizing text with
  | nil =>
    cases h
    exact absurd (List.suffix_nil.1 hp) hne
  | cons c s ih =>
    rw [splitBefore] at h
    split at h
    · cases h
      exact absurd (List.suffix_nil.1 hp) hne
    · rename_i hc
      cases h
      rcases List.suffix_cons_iff.1 hp with rfl | hp
      · rw [List.cons_append, splitBefore_append]
        exact Bool.eq_false_iff.2 hc
      · exact ih rfl hp

/-- Text ends at the first place that satisfies the test. -/
theorem splitBefore_of_first (hne : rest ≠ []) (hrest : stop rest = true)
    (h : ∀ p, p ≠ [] → p <:+ text → stop (p ++ rest) = false) :
    splitBefore stop (text ++ rest) = (text, rest) := by
  induction text with
  | nil =>
    obtain ⟨c, more, rfl⟩ := List.exists_cons_of_ne_nil hne
    exact if_pos hrest
  | cons c text ih =>
    have hc := h (c :: text) (List.cons_ne_nil c text) (List.suffix_refl _)
    have hmore := ih fun p hp hsuffix => h p hp (hsuffix.trans (List.suffix_cons c text))
    rw [List.cons_append] at hc ⊢
    rw [splitBefore, if_neg (by simp [hc]), hmore]

end FirstPlace

/-- Whether `text` goes up to the first place where the statement that ends a raw block begins. -/
structure EndsBefore (text : List Char) (rest : Input) : Prop where
  begins : BeginsEndRaw rest
  first : ∀ a b, text = a ++ b → b ≠ [] → ¬BeginsEndRaw (b ++ rest)

/-- The body of a raw block goes up to the first place where the statement that ends it begins. -/
theorem endsBefore_iff : EndsBefore text rest ↔
    rest ≠ [] ∧ splitBefore Token.atEndRaw (text ++ rest) = (text, rest) := by
  constructor
  · rintro ⟨hbegins, hfirst⟩
    have hrest := Token.atEndRaw_iff_begins.2 hbegins
    have hne : rest ≠ [] := by
      rintro rfl
      cases hrest
    refine ⟨hne, splitBefore_of_first hne hrest ?_⟩
    rintro p hp ⟨a, rfl⟩
    exact Bool.eq_false_iff.2 fun h => hfirst a p rfl hp (Token.atEndRaw_iff_begins.1 h)
  · rintro ⟨hne, hsplit⟩
    have hstops : Token.atEndRaw (splitBefore Token.atEndRaw (text ++ rest)).2 = true :=
      splitBefore_stops (by rw [hsplit]; exact hne)
    rw [hsplit] at hstops
    refine ⟨Token.atEndRaw_iff_begins.1 hstops, ?_⟩
    rintro a b rfl hb hbegins
    have hstop := stop_eq_false_of_splitBefore hsplit hb (List.suffix_append a b)
    rw [Token.atEndRaw_iff_begins.2 hbegins] at hstop
    cases hstop

/-- There is one such place. -/
theorem EndsBefore.unique {text' rest' : List Char} (h : EndsBefore text rest)
    (h' : EndsBefore text' rest') (heq : text ++ rest = text' ++ rest') :
    text = text' ∧ rest = rest' := by
  have hsplit := (endsBefore_iff.1 h).2
  rw [heq, (endsBefore_iff.1 h').2] at hsplit
  obtain ⟨rfl, rfl⟩ := Prod.mk.inj hsplit
  exact ⟨rfl, rfl⟩

/-! ## Rows -/

namespace Markup

variable {recover : Bool} {depth : Nat} {t : Tree} {ts before after : List Tree}

/-- What is read where a raw block ends: the statement that ends it if it is there as a whole, and
otherwise an error. -/
inductive Ending (s : Input) : Tree → Prop
  | whole (tag : EndTag) (rest : Input) (h : s = tag.text ++ rest) : Ending s tag.tree
  | broken (skipped : List Char) (h : ∀ (tag : EndTag) (rest : Input), s ≠ tag.text ++ rest) :
    Ending s (.leaf none .error [] skipped)

/-- Where the statement that ends a raw block begins it is read, or an error is. -/
theorem ending_of_settling (hs : BeginsEndRaw s)
    (h : ((item recover depth).settling recover).parser s = .ok (ts, rest)) :
    ∃ t, ts = [t] ∧ Ending s t := by
  rcases exists_of_settling h with hread | ⟨⟨e, herror⟩, skipped, rfl⟩
  · obtain ⟨tag, rfl, rfl⟩ := EndTag.exists_of_read hs hread
    exact ⟨_, rfl, .whole tag rest rfl⟩
  · refine ⟨_, rfl, .broken skipped ?_⟩
    rintro tag rest rfl
    rw [tag.read recover depth rest] at herror
    cases herror

/-- What is read of an element is one. -/
theorem kind_of_elementAt (h : (elementAt recover depth).parser s = .ok (t, rest)) :
    t.kind = .element := by
  cases depth with
  | zero => exact absurd h tooDeep_ne_ok
  | succ depth =>
    obtain ⟨_, _, _, _, _, _, -, -, -, ⟨-, rfl, -⟩ | ⟨-, _, _, _, -, -, rfl⟩⟩ := element_eq_ok h
    · rfl
    · rfl

/-- An item that holds a statement is one. -/
theorem statement_of_item (h : (item recover depth).parser s = .ok (ts, rest)) (ht : t ∈ ts)
    (hkind : t.kind = .statement) : (statement (expression depth)).parser s = .ok (ts, rest) := by
  rw [item_eq] at h
  rcases itemOf_forms h with ⟨u, rfl, -, hne⟩ | h | ⟨u, hu, rfl⟩
  · obtain rfl := List.mem_singleton.1 ht
    exact absurd hkind hne
  · exact h
  · obtain rfl := List.mem_singleton.1 ht
    rw [kind_of_elementAt hu] at hkind
    cases hkind

/-- The body of a raw block is the text up to the first place where the statement that ends the
block begins. -/
theorem endsBefore_of_rawBody {opener : Input} (h : (rawBody opener).parser s = .ok (ts, rest)) :
    ∃ text, text ++ rest = s ∧ EndsBefore text rest ∧ ts = textOf text := by
  obtain ⟨text, hsplit, hne, rfl⟩ := exists_of_rawBody h
  have htext := splitBefore_append Token.atEndRaw s
  rw [hsplit] at htext
  exact ⟨text, htext, endsBefore_iff.2 ⟨hne, by rw [htext, hsplit]⟩, rfl⟩

/-- Behind a statement that begins a raw block an item holds the text up to the first place where
the statement that ends the block begins. -/
theorem raw_of_item (h : (item recover depth).parser s = .ok (before ++ t :: after, rest))
    (hkind : t.kind = .statement) (hraw : opensRaw [t] = true) :
    ∃ front text, t.source = front ++ "%\x7d".toList ∧ after = textOf text ∧
      EndsBefore text rest := by
  obtain ⟨u, s', hread, -, hforms⟩ := exists_of_statement (statement_of_item h (by simp) hkind)
  obtain ⟨front, hfront⟩ := Part.exists_of_read_statement hread
  rcases hforms with ⟨hnot, heq, -⟩ | ⟨-, body, hbody, heq⟩
  · have hmem : t ∈ [u] := heq ▸ by simp
    rw [List.mem_singleton.1 hmem, hnot] at hraw
    cases hraw
  · obtain ⟨text, -, hends, rfl⟩ := endsBefore_of_rawBody hbody
    cases before with
    | nil =>
      obtain ⟨rfl, rfl⟩ := List.cons_eq_cons.1 heq
      exact ⟨front, text, by simpa [Tree.sources] using hfront, rfl, hends⟩
    | cons p before =>
      -- Only literal text stands behind the first of the trees.
      have hmem : t ∈ textOf text := (List.cons_eq_cons.1 heq).2 ▸ by simp
      rw [kind_of_mem_textOf hmem] at hkind
      cases hkind

/-- What stands in a row behind a statement that begins a raw block: the text up to the first place
where the statement that ends the block begins, and what is read there. -/
theorem Row.raw (h : Row ((item recover depth).settling recover) s (before ++ t :: after) rest)
    (hrest : ¬BeginsEndRaw rest) (hkind : t.kind = .statement) (hraw : opensRaw [t] = true) :
    ∃ front text s' next more, t.source = front ++ "%\x7d".toList ∧
      after = textOf text ++ next :: more ∧ Tree.sources after ++ rest = text ++ s' ∧
      EndsBefore text s' ∧ Ending s' next := by
  have hreads := settling_readsItems recover (item_readsItems recover depth)
  obtain ⟨_, _, as, bs, more, s', rfl, rfl, -, -, hitem, hmore⟩ := h.exists_item
  rcases exists_of_settling hitem with hread | ⟨-, skipped, heq⟩
  · obtain ⟨front, text, hfront, rfl, hends⟩ := raw_of_item hread hkind hraw
    have hsource : Tree.sources (textOf text ++ more) ++ rest = text ++ s' := by
      rw [Tree.sources_append, sources_textOf, List.append_assoc, hmore.source hreads]
    -- What ends the block is the next item.
    cases hmore with
    | nil => exact absurd hends.begins hrest
    | cons _ hnext _ =>
      obtain ⟨next, rfl, hending⟩ := ending_of_settling hends.begins hnext
      exact ⟨front, text, s', next, _, hfront, rfl, hsource, hends, hending⟩
  · have hmem : t ∈ [Tree.leaf none .error [] skipped] := heq ▸ by simp
    rw [List.mem_singleton.1 hmem] at hkind
    cases hkind

end Markup

/-! ## Trees -/

/-- What stands between others that it is not among stands in the middle. -/
theorem exists_middle {α : Type} {opening items closing before after : List α} {t : α}
    (h : opening ++ items ++ closing = before ++ t :: after) (hopening : t ∉ opening)
    (hclosing : t ∉ closing) : ∃ b a, items = b ++ t :: a ∧ after = a ++ closing := by
  rcases List.append_eq_append_iff.1 h with ⟨as, -, rfl⟩ | ⟨as, hfront, hafter⟩
  · exact absurd (by simp) hclosing
  · cases as with
    | nil =>
      obtain rfl : t :: after = closing := hafter
      exact absurd List.mem_cons_self hclosing
    | cons u as =>
      obtain ⟨rfl, rfl⟩ := List.cons_eq_cons.1 hafter
      rcases List.append_eq_append_iff.1 hfront with ⟨bs, -, rfl⟩ | ⟨bs, rfl, hitems⟩
      · exact ⟨bs, as, rfl, rfl⟩
      · cases bs with
        | nil => exact ⟨[], as, hitems.symm, rfl⟩
        | cons v bs =>
          obtain ⟨rfl, -⟩ := List.cons_eq_cons.1 hitems
          exact absurd (by simp) hopening

/-- A child of a tree that stands in rows only stands in the row of the tree's items. -/
theorem Tree.RowAt.exists_row {recover : Bool} {u t : Tree} {before after : List Tree}
    (h : u.RowAt recover rest) (hchildren : u.children = before ++ t :: after)
    (ht : t.kind.standsInRow = true) :
    ∃ depth opening b a closing, before = opening ++ b ∧ after = a ++ closing ∧
      (∀ u ∈ opening, u.kind.standsInRow = false) ∧
      (sources closing ++ rest = [] ∨ Markup.atFooter (sources closing ++ rest) = true) ∧
      Markup.Row ((Markup.item recover depth).settling recover)
        (sources (b ++ t :: a) ++ (sources closing ++ rest)) (b ++ t :: a)
        (sources closing ++ rest) := by
  obtain ⟨depth, opening, items, closing, hrow, hothers, hend, h⟩ := h
  have hstands : t ∉ opening ++ closing := fun hmem =>
    Bool.false_ne_true ((hothers t hmem).symm.trans ht)
  rw [List.mem_append, not_or] at hstands
  have hsplit := hrow.symm.trans hchildren
  obtain ⟨b, a, rfl, rfl⟩ := exists_middle hsplit hstands.1 hstands.2
  have hbefore : before = opening ++ b := by
    have happend : before ++ t :: (a ++ closing) = opening ++ b ++ t :: (a ++ closing) := by
      simpa using hsplit.symm
    exact List.append_cancel_right happend
  exact ⟨depth, opening, b, a, closing, hbefore, rfl,
    fun u hu => hothers u (List.mem_append_left _ hu), hend (by simp), h⟩

/-- What stands in a tree behind a statement that begins a raw block: the text up to the first place
where the statement that ends the block begins, and what is read there. -/
theorem Tree.RowAt.raw {recover : Bool} {u t : Tree} (h : u.RowAt recover rest)
    {before after : List Tree} (hchildren : u.children = before ++ t :: after)
    (hkind : t.kind = .statement) (hraw : Markup.opensRaw [t] = true) :
    ∃ front text s next more, t.source = front ++ "%\x7d".toList ∧
      after = Markup.textOf text ++ next :: more ∧ sources after ++ rest = text ++ s ∧
      EndsBefore text s ∧ Markup.Ending s next := by
  obtain ⟨depth, _, b, a, closing, -, rfl, -, hend, h⟩ := h.exists_row hchildren (hkind ▸ rfl)
  have hclosing : ¬BeginsEndRaw (sources closing ++ rest) := by
    rw [← Token.atEndRaw_iff_begins, Bool.not_eq_true]
    rcases hend with hnil | hfooter
    · rw [hnil]
      rfl
    · exact Markup.not_atEndRaw_of_atFooter hfooter
  obtain ⟨front, text, s, next, more, hfront, rfl, hsource, hends, hending⟩ :=
    h.raw hclosing hkind hraw
  refine ⟨front, text, s, next, more ++ closing, hfront, by simp, ?_, hends, hending⟩
  rw [sources_append, List.append_assoc, hsource]

/-! ## Nodes -/

namespace Node

/-- Whether the node is a statement that begins a raw block. -/
def BeginsRaw (n : Node) : Prop :=
  ∃ body leading trailing, n.view? = some (.statement (some body) leading trailing) ∧
    body.view? = some .rawStatement

/-- Whether the node is a statement that ends a raw block. -/
def EndsRaw (n : Node) : Prop :=
  ∃ body leading trailing, n.view? = some (.statement (some body) leading trailing) ∧
    body.view? = some (.endStatement "endraw".toList)

/-- Whether some nodes are a text that begins at a byte: no node if there are no characters in it,
and otherwise one. -/
def AreText (nodes : List Node) (start : Nat) (text : List Char) : Prop :=
  nodes = [] ∧ text = [] ∨ text ≠ [] ∧ ∃ n, nodes = [n] ∧ n.kind = .text ∧ n.text = text ∧
    n.start = start ∧ n.stop = start + byteLength text

/-- A statement that begins a raw block is one by its tree. -/
theorem BeginsRaw.opensRaw {t : Tree} {id pos : Nat} (h : (t.place id pos).BeginsRaw) :
    t.kind = .statement ∧ Markup.opensRaw [t] = true := by
  obtain ⟨body, leading, trailing, hview, hbody⟩ := h
  have hkind : t.kind = .statement := (kind_place t id pos).symm.trans (kind_of_view? hview)
  refine ⟨hkind, ?_⟩
  have hmem : body.tree ∈ t.children := by
    simp only [view?, kind_place, hkind, Option.some.injEq, View.statement.injEq] at hview
    have hchild := List.mem_map_of_mem (f := Node.tree) (List.mem_of_find?_eq_some hview.1)
    rwa [Tree.place_children, Tree.placeAll_tree] at hchild
  have hraw : body.tree.kind = .rawStatement := kind_of_view? hbody
  simpa [Markup.opensRaw] using ⟨body.tree, hmem, hraw⟩

/-- The tree of a statement that ends a raw block is seen as one. -/
theorem endsRaw_place (tag : EndTag) (id pos : Nat) : (tag.tree.place id pos).EndsRaw := by
  obtain ⟨leading, before, after, trailing, hbefore, hafter⟩ := tag
  have hword : ∀ id pos, ((EndTag.body before).place id pos).view? =
      some (.endStatement "endraw".toList) := by
    intro id pos
    simp [view?, EndTag.body, childOfKind?, Tree.place_children, Tree.placeAll_cons, Tree.kind,
      Tree.children, text, Tree.text, Tree.source, Tree.gap]
  cases leading with
  | false => exact ⟨(EndTag.body before).place (id + 1) (pos + 2), false, trailing,
      by cases trailing <;> rfl, hword _ _⟩
  | true => exact ⟨(EndTag.body before).place (id + 2) (pos + 3), true, trailing,
      by cases trailing <;> rfl, hword _ _⟩

end Node

/-- The children of a node that is placed are the children of its tree, each placed behind those
before it. -/
theorem Tree.exists_place_of_children {u : Tree} {id pos : Nat} {before after : List Node}
    {n : Node} (h : (u.place id pos).children = before ++ n :: after) :
    ∃ as t bs i j, as = before.map Node.tree ∧ u.children = as ++ t :: bs ∧
      n = t.place i (pos + byteLength (sources as)) ∧ after = placeAll j n.stop bs := by
  rw [place_children] at h
  have htrees := congrArg (List.map Node.tree) h
  rw [placeAll_tree, List.map_append, List.map_cons] at htrees
  have hplaced := h
  rw [htrees, placeAll_append, placeAll_cons] at hplaced
  have hlength : (placeAll id pos (before.map Node.tree)).length = before.length := by
    have hmap := congrArg List.length (placeAll_tree id pos (before.map Node.tree))
    rwa [List.length_map, List.length_map] at hmap
  obtain ⟨-, hnodes⟩ := List.append_inj hplaced hlength
  obtain ⟨hn, hafter⟩ := List.cons_eq_cons.1 hnodes
  have hstop : n.stop = pos + byteLength (sources (before.map Node.tree)) +
      byteLength n.tree.source := by
    rw [← hn, place_stop, hn]
  rw [← hstop] at hafter
  exact ⟨_, n.tree, _, _, _, rfl, htrees, hn.symm, hafter.symm⟩

/-- A tree holds what its children hold. -/
theorem Tree.source_of_children {u t : Tree} {as bs : List Tree} (h : u.children = as ++ t :: bs) :
    u.source = sources as ++ (t.source ++ sources bs) := by
  cases u with
  | leaf => simp [children] at h
  | node f k ts =>
    obtain rfl : ts = _ := h
    rw [source, sources_append, sources]

/-- Literal text is placed where its characters stand. -/
theorem Node.areText_placeAll (id pos : Nat) (text : List Char) :
    AreText (Tree.placeAll id pos (Markup.textOf text)) pos text := by
  by_cases h : text = []
  · exact .inl ⟨by rw [Markup.textOf, if_pos h, Tree.placeAll_nil], h⟩
  · refine .inr ⟨h, (Tree.leaf none .text [] text).place id pos, ?_, rfl, rfl, rfl, rfl⟩
    rw [Markup.textOf, if_neg h, Tree.placeAll_cons, Tree.placeAll_nil]

/-- Some nodes begin with one text, if what comes behind it is none. -/
theorem Node.AreText.unique {body body' more more' : List Node} {close close' : Node} {start : Nat}
    {text text' : List Char} (h : AreText body start text) (h' : AreText body' start text')
    (heq : body ++ close :: more = body' ++ close' :: more') (hclose : close.kind ≠ .text)
    (hclose' : close'.kind ≠ .text) : text = text' ∧ close = close' := by
  rcases h with ⟨rfl, rfl⟩ | ⟨-, m, rfl, hm, rfl, -⟩ <;>
    rcases h' with ⟨rfl, rfl⟩ | ⟨-, m', rfl, hm', rfl, -⟩
  · exact ⟨rfl, (List.cons_eq_cons.1 heq).1⟩
  · exact absurd ((List.cons_eq_cons.1 heq).1 ▸ hm') hclose
  · exact absurd ((List.cons_eq_cons.1 heq).1 ▸ hm) hclose'
  · obtain ⟨rfl, hmore⟩ := List.cons_eq_cons.1 heq
    exact ⟨rfl, (List.cons_eq_cons.1 hmore).1⟩

/-- What stands behind a statement that begins a raw block: `text` up to the first place where the
statement that ends the block begins, and the node that is read there. -/
structure Node.Block (source : Input) (n : Node) (after : List Node) (text : List Char)
    (rest : Input) (close : Node) : Prop where
  /-- The text begins behind the delimiter that closes the statement. -/
  source : ∃ front, source = front ++ ("%\x7d".toList ++ (text ++ rest)) ∧
    byteLength (front ++ "%\x7d".toList) = n.stop
  ends : EndsBefore text rest
  /-- The text is one node, if there is some. -/
  nodes : ∃ body more, after = body ++ close :: more ∧ AreText body n.stop text
  /-- The next node begins where the text ends. -/
  close : ∃ t id, close = t.place id (n.stop + byteLength text) ∧ Markup.Ending rest t

namespace Node.Block

variable {source rest : Input} {n close : Node} {after : List Node}

/-- The text stands where the statement ends. -/
theorem text_append (h : n.Block source after text rest close) {front s : Input}
    (hsource : source = front ++ s) (hfront : byteLength front = n.stop) : s = text ++ rest := by
  obtain ⟨front', hsource', hstop⟩ := h.source
  rw [← List.append_assoc] at hsource'
  rw [← dropBytes_append front s, hfront, ← hsource, ← hstop, hsource', dropBytes_append]

/-- No text stands behind the text. -/
theorem close_kind (h : n.Block source after text rest close) : close.kind ≠ .text := by
  obtain ⟨t, id, rfl, ⟨tag, rest, -⟩ | ⟨skipped, -⟩⟩ := h.close
  · rw [kind_place]
    nofun
  · rw [kind_place]
    nofun

end Node.Block

/-- Whether the nodes behind a statement that begins a raw block are a text and then the statement
that ends the block, written as `tag`. -/
def Node.ClosedBy (n : Node) (after : List Node) (text : List Char) (tag : EndTag) : Prop :=
  ∃ body close more, after = body ++ close :: more ∧ AreText body n.stop text ∧ close.EndsRaw ∧
    close.start = n.stop + byteLength text ∧ close.text = tag.text

/-- A raw block is closed by the statement that is read where its text ends. -/
theorem Node.Block.closedBy {source rest : Input} {n : Node} {after : List Node} {tag : EndTag}
    {id : Nat}
    (h : n.Block source after text rest (tag.tree.place id (n.stop + byteLength text))) :
    n.ClosedBy after text tag := by
  obtain ⟨body, more, rfl, hbody⟩ := h.nodes
  have hgap : tag.tree.gap = [] := rfl
  refine ⟨body, _, more, rfl, hbody, endsRaw_place tag _ _, ?_, ?_⟩
  · rw [Tree.place_start, hgap]
    rfl
  · rw [Node.text, Tree.place_tree, Tree.text, hgap, tag.source_tree]
    rfl

/-- A statement that begins a raw block, as it is mostly written. -/
def rawWritten : List Char := ['{', '%', ' ', 'r', 'a', 'w', ' ', '%', '}']

/-- Its tree. -/
def rawTree : Tree :=
  .node none .statement [.leaf (some .openDelimiter) .delimiter [] ['{', '%'],
    .node none .rawStatement [.leaf none .keyword [' '] ['r', 'a', 'w']],
    .leaf (some .closeDelimiter) .delimiter [' '] ['%', '}']]

namespace Template

variable {options : Options} {source : Input} {p n : Node} {before after : List Node}

/-- The tree of a template holds its source. -/
theorem source_tree (options : Options) (source : Input) :
    (parse options source).tree.source = source := by
  obtain ⟨items, htree, -, hitems⟩ := parse_items options source
  rw [htree, Tree.source, hitems]

/-- Behind every statement that begins a raw block there is a text up to the first place where the
statement that ends the block begins. -/
theorem exists_block (hp : p ∈ (parse options source).tree.root.descendants)
    (hchildren : p.children = before ++ n :: after) (hraw : n.BeginsRaw) :
    ∃ text rest close, n.Block source after text rest close := by
  obtain ⟨u, number, pre, post, rfl, hsource, hrow⟩ :=
    Tree.exists_of_mem_descendants (parse_rows options source) hp
  obtain ⟨as, t, bs, i, j, -, htrees, hn, rfl⟩ := Tree.exists_place_of_children hchildren
  rw [hn] at hraw
  obtain ⟨hkind, hopens⟩ := hraw.opensRaw
  -- What stands behind the statement in its row is placed behind it.
  obtain ⟨front, text, rest, next, more, hfront, rfl, hafter, hends, hending⟩ :=
    hrow.raw htrees hkind hopens
  have hu := Tree.source_of_children htrees
  have hplaced := Tree.placeAll_append j n.stop (Markup.textOf text) (next :: more)
  rw [Tree.placeAll_cons, Markup.sources_textOf] at hplaced
  refine ⟨text, rest, _, ⟨pre ++ (Tree.sources as ++ front), ?_, ?_⟩, hends,
    ⟨_, _, hplaced, Node.areText_placeAll j n.stop text⟩, ⟨next, _, rfl, hending⟩⟩
  · rw [List.append_nil] at hafter
    rw [← hafter, ← source_tree options source, hsource, hu, hfront]
    simp
  · rw [hn, Tree.place_stop, hfront]
    simp only [byteLength_append]
    omega

/-- In a template without faults every raw block is a text up to the statement that ends it, and
this statement begins nowhere in the text. -/
theorem parse_raw_closed (options : Options) (source : Input)
    (hclean : (parse options source).errors = []) {p n : Node} {before after : List Node}
    (hp : p ∈ (parse options source).tree.root.descendants)
    (hchildren : p.children = before ++ n :: after) (hraw : n.BeginsRaw) :
    ∃ front text rest tag, source = front ++ ("%\x7d".toList ++ (text ++ (tag.text ++ rest))) ∧
      byteLength (front ++ "%\x7d".toList) = n.stop ∧ n.ClosedBy after text tag ∧
      ∀ a b, text = a ++ b → b ≠ [] → ¬BeginsEndRaw (b ++ (tag.text ++ rest)) := by
  obtain ⟨text, s, close, hblock⟩ := exists_block hp hchildren hraw
  obtain ⟨front, hsource, hfront⟩ := hblock.source
  obtain ⟨t, id, rfl, hending⟩ := hblock.close
  cases hending with
  | whole tag rest hs =>
    subst hs
    exact ⟨front, text, rest, tag, hsource, hfront, hblock.closedBy, hblock.ends.first⟩
  | broken skipped hs =>
    -- An error would stand where the text ends.
    obtain ⟨body, more, rfl, -⟩ := hblock.nodes
    have herror : (Tree.leaf none .error [] skipped).place id (n.stop + byteLength text) ∈
        (parse options source).tree.root.errors :=
      List.mem_filter.2 ⟨Node.mem_descendants_of_child hp (by simp [hchildren]), rfl⟩
    rw [(accounted options source).clean.1 hclean] at herror
    cases herror

/-- The braces in a raw block open nothing. -/
theorem parse_raw_closed_braces :
    let options : Options := ⟨false, 2, by decide⟩
    let source := rawWritten ++ (['{', '{'] ++ EndTag.spaced.text)
    let n : Node := rawTree.place 0 0
    (parse options source).errors = [] ∧ n.BeginsRaw ∧
      ∃ after, (parse options source).tree.root.children = [] ++ n :: after ∧
        ∃ front text rest tag, source = front ++ ("%\x7d".toList ++ (text ++ (tag.text ++ rest))) ∧
          byteLength (front ++ "%\x7d".toList) = n.stop ∧ n.ClosedBy after text tag ∧
          ∀ a b, text = a ++ b → b ≠ [] → ¬BeginsEndRaw (b ++ (tag.text ++ rest)) := by
  intro options source n
  have hne : source ≠ [] := List.cons_ne_nil _ _
  have hfirst : (Markup.item false 2).parser source =
      .ok ([rawTree, .leaf none .text [] ['{', '{']], EndTag.spaced.text) := rfl
  have hlast : (Markup.item false 2).parser EndTag.spaced.text = .ok ([EndTag.spaced.tree], []) :=
    EndTag.spaced.read false 2 []
  obtain ⟨hclean, htree⟩ := @parse_of_whole_row options _ _
    (.cons hne hfirst (.cons (List.cons_ne_nil _ _) hlast (.nil [])))
  have hchildren : (parse options source).tree.root.children = [] ++ n :: Tree.placeAll 5 9
      [.leaf none .text [] ['{', '{'], EndTag.spaced.tree] := by
    rw [htree]
    rfl
  have hraw : n.BeginsRaw := ⟨_, _, _, rfl, rfl⟩
  exact ⟨hclean, hraw, _, hchildren, parse_raw_closed options source hclean
    (Node.mem_descendants_self _) hchildren hraw⟩

/-- A raw block goes up to a place where the statement that ends it is there as a whole if and only
if that statement does not begin before that place. -/
theorem parse_raw_whole_iff (options : Options) (source : Input) {p n : Node}
    {before after : List Node} (hp : p ∈ (parse options source).tree.root.descendants)
    (hchildren : p.children = before ++ n :: after) (hraw : n.BeginsRaw) {front text rest : Input}
    {tag : EndTag} (hsource : source = front ++ (text ++ (tag.text ++ rest)))
    (hfront : byteLength front = n.stop) :
    n.ClosedBy after text tag ↔
      ∀ a b, text = a ++ b → b ≠ [] → ¬BeginsEndRaw (b ++ (tag.text ++ rest)) := by
  obtain ⟨text', s, close, hblock⟩ := exists_block hp hchildren hraw
  have hsplit := hblock.text_append hsource hfront
  constructor
  · -- The nodes behind the statement begin with one text, which ends at the first place.
    rintro ⟨body, close', more, hafter, hbody, ⟨_, _, _, hview, -⟩, -⟩
    obtain ⟨body', more', hafter', hbody'⟩ := hblock.nodes
    have hkind : close'.kind ≠ .text := by
      rw [Node.kind_of_view? hview]
      nofun
    obtain ⟨rfl, -⟩ := hbody.unique hbody' (hafter.symm.trans hafter') hkind hblock.close_kind
    rw [List.append_cancel_left hsplit]
    exact hblock.ends.first
  · -- The place is the first one, and what is read there is the statement.
    intro hfirst
    have hends : EndsBefore text (tag.text ++ rest) := ⟨tag.begins rest, hfirst⟩
    obtain ⟨rfl, rfl⟩ := hends.unique hblock.ends hsplit
    obtain ⟨t, id, rfl, hending⟩ := hblock.close
    generalize hs : tag.text ++ rest = s at hending
    cases hending with
    | whole tag' rest' h =>
      obtain ⟨body, close, more, hafter, hbody, hclose, hstart, htext⟩ := hblock.closedBy
      obtain ⟨heq, -⟩ := EndTag.text_inj (hs.trans h)
      exact ⟨body, close, more, hafter, hbody, hclose, hstart, htext.trans heq.symm⟩
    | broken skipped h => exact absurd hs.symm (h tag rest)

/-- A statement that does not end a raw block may stand in one. -/
theorem parse_raw_whole_iff_end :
    let options : Options := ⟨false, 2, by decide⟩
    let text : List Char := ['{', '%', 'e', 'n', 'd', '%', '}']
    let tag := EndTag.spaced
    let n : Node := rawTree.place 0 0
    n.BeginsRaw ∧ byteLength rawWritten = n.stop ∧
      ∃ after, (parse options (rawWritten ++ (text ++ (tag.text ++ [])))).tree.root.children =
        [] ++ n :: after ∧ n.ClosedBy after text tag := by
  intro options text tag n
  have hne : rawWritten ++ (text ++ (tag.text ++ [])) ≠ [] := List.cons_ne_nil _ _
  have hfirst : (Markup.item false 2).parser (rawWritten ++ (text ++ (tag.text ++ []))) =
      .ok ([rawTree, .leaf none .text [] text], tag.text) := rfl
  have hlast : (Markup.item false 2).parser tag.text = .ok ([tag.tree], []) := tag.read false 2 []
  obtain ⟨-, htree⟩ := @parse_of_whole_row options _ _
    (.cons hne hfirst (.cons (List.cons_ne_nil _ _) hlast (.nil [])))
  have hchildren : (parse options (rawWritten ++ (text ++ (tag.text ++ [])))).tree.root.children =
      [] ++ n :: Tree.placeAll 5 9 [.leaf none .text [] text, tag.tree] := by
    rw [htree]
    rfl
  have hraw : n.BeginsRaw := ⟨_, _, _, rfl, rfl⟩
  have hnone : ∀ b ∈ text.tails, b ≠ [] → Token.atEndRaw (b ++ (tag.text ++ [])) = false := by
    decide
  refine ⟨hraw, rfl, _, hchildren, (parse_raw_whole_iff options _
    (Node.mem_descendants_self _) hchildren hraw rfl rfl).2 ?_⟩
  intro a b hab hb
  have hfalse := hnone b ((List.mem_tails _ _).2 ⟨a, hab.symm⟩) hb
  rw [← Token.atEndRaw_iff_begins, hfalse]
  nofun

/-- A raw block does not go up to the first place where the statement that ends it is there as a
whole, if the statement begins before that place. -/
theorem parse_raw_cut_short :
    let options : Options := ⟨false, 256, by decide⟩
    let text : List Char := ['{', '%', ' ', 'e', 'n', 'd', 'r', 'a', 'w', ' ', 'x', ' ', '%', '}']
    let tag := EndTag.spaced
    let n : Node := rawTree.place 0 0
    n.BeginsRaw ∧ byteLength rawWritten = n.stop ∧
      (∀ (a b : List Char) (tag' : EndTag) (rest : Input), text = a ++ b → b ≠ [] →
        b ++ tag.text ≠ tag'.text ++ rest) ∧
      ∃ after, (parse options (rawWritten ++ (text ++ tag.text))).tree.root.children =
        n :: after ∧ ¬n.ClosedBy after text tag := by
  intro options text tag n
  have hsteps : steps options (rawWritten ++ (text ++ tag.text)) =
      [step options (rawWritten ++ (text ++ tag.text)), step options (text ++ tag.text)] := by
    have hfirst : (step options (rawWritten ++ (text ++ tag.text))).rest = text ++ tag.text := rfl
    have hlast : (step options (text ++ tag.text)).rest = [] := rfl
    rw [@steps_eq_cons options (rawWritten ++ (text ++ tag.text)) (List.cons_ne_nil _ _), hfirst,
      @steps_eq_cons options (text ++ tag.text) (List.cons_ne_nil _ _), hlast, steps_nil]
  have hchildren : (parse options (rawWritten ++ (text ++ tag.text))).tree.root.children =
      n :: Tree.placeAll 5 9 [.leaf none .error [] (text ++ tag.text)] := by
    rw [parse_children, hsteps]
    rfl
  refine ⟨⟨_, _, _, rfl, rfl⟩, rfl, ?_, _, hchildren, ?_⟩
  · -- Only all of the text begins as a statement does, and no item is read of it.
    intro a b tag' rest hab hb heq
    have hwhole : ∀ b ∈ text.tails, b ≠ [] → b.head? = some '{' → b = text := by decide
    have hhead : b.head? = some '{' := by
      rw [← List.head?_append_of_ne_nil b hb, heq]
      rfl
    obtain rfl := hwhole b ((List.mem_tails _ _).2 ⟨a, hab.symm⟩) hb hhead
    have hread := tag'.read false 256 rest
    have hfails : ((Markup.item false 256).parser (text ++ tag.text)).toOption = none := rfl
    rw [heq, hread] at hfails
    cases hfails
  · rintro ⟨body, close, more, hafter, -, ⟨_, _, _, hview, -⟩, -⟩
    have hclose : close ∈ Tree.placeAll 5 9 [.leaf none .error [] (text ++ tag.text)] := by
      rw [hafter]
      simp
    obtain rfl := List.mem_singleton.1 hclose
    cases Node.kind_of_view? hview

end Template

end Stencil
