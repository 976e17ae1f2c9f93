import Stencil.Proofs.Fillings
import Stencil.Proofs.Siblings

/-!
# Statements that end a raw block

A raw block goes on up to the place where the statement that ends it begins (`BeginsEndRaw`): of
that statement only the word `endraw` and what stands before it is looked at. Where it begins, it is
read if it is there as a whole (`EndTag.read`), and otherwise no item is
(`EndTag.exists_of_read`).
-/

namespace Stencil

variable {s rest : Input} {b : List Char}

/-- A hyphen, if there is one. -/
def hyphen (present : Bool) : List Char := if present then ['-'] else []

/-- Whether the statement that ends a raw block begins here: the delimiter of a statement, perhaps a
hyphen, blanks, and the word `endraw`. -/
def BeginsEndRaw (s : Input) : Prop :=
  ∃ (leading : Bool) (b more : List Char), (∀ c ∈ b, isBlank c = true) ∧
    (∀ c ∈ more.head?, isWordChar c = false) ∧
    s = "\x7b%".toList ++ (hyphen leading ++ (b ++ ("endraw".toList ++ more)))

/-- A statement that ends a raw block, as it is written: hyphens may touch its delimiters, and there
may be blanks around its word. -/
structure EndTag where
  /-- Whether a hyphen touches the delimiter that opens it. -/
  leading : Bool
  /-- The blanks before its word. -/
  before : List Char
  /-- The blanks behind its word. -/
  after : List Char
  /-- Whether a hyphen touches the delimiter that closes it. -/
  trailing : Bool
  isBlank_before : ∀ c ∈ before, isBlank c = true
  isBlank_after : ∀ c ∈ after, isBlank c = true

namespace EndTag

/-- What is written behind the word. -/
def ending (after : List Char) (trailing : Bool) : List Char :=
  after ++ (hyphen trailing ++ "%\x7d".toList)

/-- What is written. -/
def text (tag : EndTag) : List Char :=
  "\x7b%".toList ++ (hyphen tag.leading ++ (tag.before ++ ("endraw".toList ++
    ending tag.after tag.trailing)))

/-- The hyphen that touches the delimiter that opens a statement, if there is one. -/
def opening (leading : Bool) : List Tree :=
  if leading then [.leaf (some .leadingTrim) .trimMarker [] ['-']] else []

/-- The word of the statement, with the blanks before it. -/
def body (before : List Char) : Tree :=
  .node none .endStatement [.leaf none .keyword before "endraw".toList]

/-- What closes a statement behind blanks, with the hyphen that touches it if there is one. -/
def closing (after : List Char) (trailing : Bool) : List Tree :=
  if trailing then
    [.leaf (some .trailingTrim) .trimMarker after ['-'],
      .leaf (some .closeDelimiter) .delimiter [] ['%', '}']]
  else [.leaf (some .closeDelimiter) .delimiter after ['%', '}']]

/-- The tree of the statement. -/
def tree (tag : EndTag) : Tree :=
  .node none .statement (.leaf (some .openDelimiter) .delimiter [] ['{', '%'] ::
    (opening tag.leading ++ [body tag.before] ++ closing tag.after tag.trailing))

/-- The statement as it is mostly written. -/
def spaced : EndTag := ⟨false, [' '], [' '], false, by simp [isBlank], by simp [isBlank]⟩

/-- The tree of the statement holds what is written. -/
theorem source_tree (tag : EndTag) : tag.tree.source = tag.text := by
  rcases tag with ⟨_ | _, before, after, _ | _, _, _⟩ <;>
    simp [tree, text, opening, body, closing, ending, hyphen, Tree.source, Tree.sources]

end EndTag

/-! ## Where the statement begins -/

namespace Token

/-- The word `endraw` behind blanks is the next token. -/
theorem scan_endraw (hb : ∀ c ∈ b, isBlank c = true)
    (hrest : ∀ c ∈ rest.head?, isWordChar c = false) :
    scan .code (b ++ ("endraw".toList ++ rest)) = .ok ⟨.word, b, "endraw".toList, rest⟩ := by
  have hhead : rest.head?.any isWordChar = false := by
    rw [Option.any_eq_false]
    simpa using hrest
  exact afterBlanks_gap hb (scanCode_endraw hhead)

/-- What blanks and the word `endraw` begin does not begin with a hyphen or the end of a
statement. -/
theorem exists_head_endraw (hb : ∀ c ∈ b, isBlank c = true) (rest : Input) :
    ∃ c more, b ++ ("endraw".toList ++ rest) = c :: more ∧ c ≠ '-' ∧ c ≠ '%' := by
  cases b with
  | nil => exact ⟨'e', _, rfl, by decide, by decide⟩
  | cons c b =>
    have hc := hb c List.mem_cons_self
    exact ⟨c, _, rfl, ne_of_isBlank hc rfl, ne_of_isBlank hc rfl⟩

/-- There may be a hyphen before what has none. -/
theorem exists_hyphen (s : Input) : ∃ present, s = hyphen present ++ withoutHyphen s := by
  unfold withoutHyphen
  split
  · rename_i hhead
    obtain ⟨more, rfl⟩ := List.head?_eq_some_iff.1 hhead
    exact ⟨true, rfl⟩
  · exact ⟨false, rfl⟩

/-- A raw block ends where the statement that ends it begins. -/
theorem atEndRaw_iff_begins : atEndRaw s = true ↔ BeginsEndRaw s := by
  constructor
  · intro h
    obtain ⟨s, rfl⟩ : ∃ s', s = '{' :: '%' :: s' := by
      unfold atEndRaw at h
      split at h
      · exact ⟨_, rfl⟩
      · cases h
    obtain ⟨t, ht, hword⟩ := atEndRaw_iff.1 h
    obtain ⟨hkind, htext⟩ := isWord_iff.1 hword
    have hsource : t.gap ++ ("endraw".toList ++ t.rest) = withoutHyphen s := by
      rw [← htext]
      exact @gap_append_start .code _ _ ht
    obtain ⟨leading, hs⟩ := exists_hyphen s
    rw [← hsource] at hs
    exact ⟨leading, t.gap, t.rest, @isBlank_of_mem_gap .code _ _ ht, head_rest_of_word ht hkind,
      congrArg (fun s => '{' :: '%' :: s) hs⟩
  · rintro ⟨leading, b, more, hb, hmore, rfl⟩
    refine atEndRaw_iff.2 ⟨⟨.word, b, "endraw".toList, more⟩, ?_, rfl⟩
    obtain ⟨c, others, hhead, hc, -⟩ := exists_head_endraw hb more
    have hwithout : withoutHyphen (hyphen leading ++ (b ++ ("endraw".toList ++ more))) =
        b ++ ("endraw".toList ++ more) := by
      cases leading with
      | true => rfl
      | false =>
        show withoutHyphen (b ++ ("endraw".toList ++ more)) = _
        rw [hhead, withoutHyphen, if_neg (by simpa using hc)]
    show afterBlanks _ (withoutHyphen (hyphen leading ++ _)) = _
    rw [hwithout]
    exact scan_endraw hb hmore

/-- A hyphen in front of the end of a statement is a token of its own. -/
theorem exists_of_trim {operand : Bool} {t : Token} (h : afterBlanks (scanCode operand) s = .ok t)
    (hkind : t.kind = .trim) : t.text = ['-'] ∧ ∃ rest, t.rest = '%' :: '}' :: rest := by
  have hcode : ∀ {s : Input} {t : Token}, scanCode operand s = .ok t → t.kind = .trim →
      t.text = ['-'] ∧ ∃ rest, t.rest = '%' :: '}' :: rest := by
    intro s t h hkind
    cases codeToken_of_scanCode h with
    | trim => exact ⟨rfl, _, rfl⟩
    | atEnd | quoted | word => cases hkind
    | number hscan =>
      have hnumber := Numeral.scan?_kind hscan
      simp [hkind] at hnumber
    | symbol hmem =>
      have hsymbols : ∀ symbol ∈ symbols, symbol.2 ≠ .trim := by decide
      exact absurd hkind (hsymbols _ hmem)
  obtain ⟨next, hnext, rfl⟩ := afterBlanks_eq_ok.1 h
  exact @hcode _ next hnext hkind

/-- A hyphen that touches what stands before it is one. -/
theorem text_of_touching_hyphen {next taken : Token} (hscan : scan .code s = .ok next)
    (htake : (Pattern.touching .hyphen).take? next = some taken) :
    taken.gap = [] ∧ taken.text = ['-'] := by
  have hsymbols : ∀ symbol ∈ symbols, symbol.2 = .minus → symbol.1 = ['-'] := by decide
  simp only [Pattern.take?] at htake
  split at htake
  · rename_i hgap
    split at htake
    · rename_i hkind
      cases htake
      refine ⟨hgap, ?_⟩
      rcases hkind with hkind | hkind
      · have hmem := (afterBlanks_written hscan).mem_symbols (by rw [hkind]; decide)
        exact hsymbols _ hmem hkind
      · exact (exists_of_trim hscan hkind).1
    · cases htake
  · cases htake

/-- A hyphen that comes next is a sign, or it touches the end of a statement. -/
theorem exists_scan_hyphen (s : Input) :
    ∃ t, scan .code ('-' :: s) = .ok t ∧ t.gap = [] ∧ (t.kind = .minus ∨ t.kind = .trim) := by
  obtain ⟨t, hscan, hkind⟩ : ∃ t, scanCode false ('-' :: s) = .ok t ∧
      (t.kind = .minus ∨ t.kind = .trim) := by
    unfold scanCode
    split
    · rename_i heq
      cases heq
    · exact ⟨_, rfl, .inr rfl⟩
    · rename_i heq
      cases heq
      exact ⟨_, rfl, .inl rfl⟩
  exact ⟨{ t with gap := [] }, @afterBlanks_gap _ _ [] _ nofun hscan, rfl, hkind⟩

/-- A hyphen in front of anything but the end of a statement is a sign. -/
theorem scan_hyphen {c : Char} (hc : c ≠ '%') (s : Input) :
    scan .code ('-' :: c :: s) = .ok ⟨.minus, [], ['-'], c :: s⟩ := by
  have hscan : scanCode false ('-' :: c :: s) = .ok ⟨.minus, [], ['-'], c :: s⟩ := by
    unfold scanCode
    split
    · rename_i heq
      cases heq
    · rename_i heq
      cases heq
      exact absurd rfl hc
    · rename_i heq
      cases heq
      rfl
  exact @afterBlanks_gap _ _ [] _ nofun hscan

end Token

/-! ## Reading -/

namespace Part

variable {operand : Extent → Parser Tree} {ts : List Tree}

/-- What may stand between the delimiter of a statement and its body. -/
def statementStart : List Part :=
  [.choice (.next .code (.touching .hyphen))
    [.token ⟨some .leadingTrim, .trimMarker, .code, .touching .hyphen, "`-`"⟩] []]

/-- What stands behind the body of a statement. -/
def statementEnd : List Part :=
  [.choice (.next .code (.kind .trim))
    [.token ⟨some .trailingTrim, .trimMarker, .code, .kind .trim, "`-`"⟩] [],
  .token ⟨some .closeDelimiter, .delimiter, .code, .kind .statementClose, "`%\x7d`"⟩]

/-- The hyphen that touches the delimiter of the statement is read. -/
theorem read_statementStart (leading : Bool) (hb : ∀ c ∈ b, isBlank c = true)
    (hrest : ∀ c ∈ rest.head?, isWordChar c = false) :
    readAll operand statementStart (hyphen leading ++ (b ++ ("endraw".toList ++ rest))) =
      .ok (EndTag.opening leading, b ++ ("endraw".toList ++ rest)) := by
  cases leading with
  | false =>
    have hscan := Token.scan_endraw hb hrest
    have hlook : (Look.next .code (.touching .hyphen)).holds (b ++ ("endraw".toList ++ rest)) =
        .ok (false, b ++ ("endraw".toList ++ rest)) := by
      rw [Look.holds_of_scan hscan]
      cases b <;> rfl
    exact readAll_singleton (read_choice_no hlook readAll_nil)
  | true =>
    obtain ⟨c, more, hhead, -, hc⟩ := Token.exists_head_endraw hb rest
    rw [hhead]
    have hscan := Token.scan_hyphen hc more
    have hleaf := Terminal.read_of_scan
      (t := ⟨some .leadingTrim, .trimMarker, .code, .touching .hyphen, "`-`"⟩) hscan rfl
    exact readAll_singleton (read_choice_yes (Look.holds_of_scan hscan)
      (readAll_singleton (read_token hleaf)))

/-- The end of a statement is read. -/
theorem read_statementEnd (hb : ∀ c ∈ b, isBlank c = true) (trailing : Bool) (rest : Input) :
    readAll operand statementEnd (EndTag.ending b trailing ++ rest) =
      .ok (EndTag.closing b trailing, rest) := by
  cases trailing with
  | false =>
    have hscan : Token.scan .code (EndTag.ending b false ++ rest) =
        .ok ⟨.statementClose, b, ['%', '}'], rest⟩ := by
      rw [EndTag.ending, List.append_assoc]
      exact Token.afterBlanks_gap (t := ⟨.statementClose, [], ['%', '}'], rest⟩) hb rfl
    have hleaf := Terminal.read_of_scan
      (t := ⟨some .closeDelimiter, .delimiter, .code, .kind .statementClose, "`%\x7d`"⟩) hscan rfl
    exact readAll_cons (read_choice_no (Look.holds_of_scan hscan) readAll_nil)
      (readAll_singleton (read_token hleaf))
  | true =>
    have hscan : Token.scan .code (EndTag.ending b true ++ rest) =
        .ok ⟨.trim, b, ['-'], '%' :: '}' :: rest⟩ := by
      rw [EndTag.ending, List.append_assoc]
      exact Token.afterBlanks_gap (t := ⟨.trim, [], ['-'], '%' :: '}' :: rest⟩) hb rfl
    have hmarker := Terminal.read_of_scan
      (t := ⟨some .trailingTrim, .trimMarker, .code, .kind .trim, "`-`"⟩) hscan rfl
    have hleaf : Terminal.read
        ⟨some .closeDelimiter, .delimiter, .code, .kind .statementClose, "`%\x7d`"⟩
        ('%' :: '}' :: rest) = .ok (.leaf (some .closeDelimiter) .delimiter [] ['%', '}'], rest) :=
      rfl
    exact readAll_cons (read_choice_yes (Look.holds_of_scan hscan)
      (readAll_singleton (read_token hmarker))) (readAll_singleton (read_token hleaf))

/-- What closes a statement is its delimiter, with the blanks before it. -/
theorem exists_of_read_close {leaf : Tree}
    (h : Terminal.read ⟨some .closeDelimiter, .delimiter, .code, .kind .statementClose, "`%\x7d`"⟩
      s = .ok (leaf, rest)) :
    ∃ b, (∀ c ∈ b, isBlank c = true) ∧ s = b ++ ('%' :: '}' :: rest) := by
  obtain ⟨next, taken, hscan, htake, -, rfl⟩ := Terminal.exists_of_read h
  obtain ⟨hkind, rfl⟩ := Pattern.kind_of_take? htake
  have hstart := Token.gap_append_start hscan
  obtain ⟨code, hcode, hsame, htext⟩ := Token.exists_scan_of_afterBlanks hscan
  have hclose : taken.text = ['%', '}'] :=
    htext.trans ((Token.scanCode_text hcode).2.2 (hsame.symm.trans hkind))
  rw [Token.start, hclose] at hstart
  exact ⟨taken.gap, Token.isBlank_of_mem_gap hscan, hstart.symm⟩

/-- Where the end of a statement is read it is written. -/
theorem exists_of_read_statementEnd (h : readAll operand statementEnd s = .ok (ts, rest)) :
    ∃ b trailing, (∀ c ∈ b, isBlank c = true) ∧ s = EndTag.ending b trailing ++ rest ∧
      ts = EndTag.closing b trailing := by
  have hwritten : ∃ b trailing, (∀ c ∈ b, isBlank c = true) ∧
      s = EndTag.ending b trailing ++ rest := by
    obtain ⟨first, s', last, hfirst, hlast, -⟩ :=
      @exists_of_readAll_append _ _ _ _ [_] [_] h
    obtain ⟨leaf, _, hleaf, hlast⟩ := Parser.bind_eq_ok.1 (read_of_readAll_singleton hlast)
    obtain ⟨-, rfl⟩ := Parser.pure_eq_ok.1 hlast
    obtain ⟨b, hb, hclose⟩ := exists_of_read_close hleaf
    obtain ⟨next, hscan, ⟨-, hmarker⟩ | ⟨-, hnone⟩⟩ :=
      exists_of_read_choice (read_of_readAll_singleton hfirst)
    · -- A hyphen comes first, and it touches the delimiter.
      obtain ⟨next', taken, hscan', htake, -, rfl⟩ :=
        exists_of_read_token (read_of_readAll_singleton hmarker)
      obtain ⟨hkind, rfl⟩ := Pattern.kind_of_take? htake
      obtain ⟨htext, more, hmore⟩ := Token.exists_of_trim hscan' hkind
      have hsource : taken.gap ++ (taken.text ++ taken.rest) = s := Token.gap_append_start hscan'
      have hnil : b = [] := by
        cases b with
        | nil => rfl
        | cons c b =>
          rw [hmore] at hclose
          obtain ⟨rfl, -⟩ := List.cons_eq_cons.1 hclose
          cases hb _ List.mem_cons_self
      refine ⟨taken.gap, true, Token.isBlank_of_mem_gap hscan', ?_⟩
      rw [← hsource, htext, hclose, hnil]
      simp [EndTag.ending, hyphen]
    · obtain ⟨-, rfl⟩ := Parser.pure_eq_ok.1 hnone
      refine ⟨b, false, hb, ?_⟩
      rw [hclose]
      simp [EndTag.ending, hyphen]
  obtain ⟨b, trailing, hb, rfl⟩ := hwritten
  obtain rfl : EndTag.closing b trailing = ts := by
    simpa using (read_statementEnd hb trailing rest).symm.trans h
  exact ⟨b, trailing, hb, rfl, rfl⟩

/-- A statement that is read ends with its delimiter. -/
theorem exists_of_read_statement {depth : Nat}
    (h : statement.read (expression depth) s = .ok (ts, rest)) :
    ∃ front, Tree.sources ts = front ++ "%\x7d".toList := by
  have ho := Part.operands_expression depth
  obtain ⟨first, s₁, others, -, hothers, rfl⟩ := exists_of_read_enclosed h
  obtain ⟨as, s₂, bs, -, hend, rfl⟩ :=
    @exists_of_readAll_append _ _ _ _ (statementStart ++ Statement.body) statementEnd hothers
  obtain ⟨b, trailing, -, hsource, -⟩ := exists_of_read_statementEnd hend
  have hbs : Tree.sources bs = EndTag.ending b trailing :=
    List.append_cancel_right ((readAll_append ho.source _ hend).trans hsource)
  refine ⟨first.source ++ (Tree.sources as ++ (b ++ hyphen trailing)), ?_⟩
  simp [Tree.sources, Tree.source, hbs, EndTag.ending]

end Part

namespace EndTag

variable {recover : Bool} {depth : Nat}

/-- No character of a word comes behind the word of the statement. -/
theorem head_ending {after : List Char} (hafter : ∀ c ∈ after, isBlank c = true) (trailing : Bool)
    (rest : Input) : ∀ c ∈ (ending after trailing ++ rest).head?, isWordChar c = false := by
  intro c hc
  cases after with
  | nil =>
    cases trailing with
    | false =>
      obtain rfl : '%' = c := Option.some.inj hc
      rfl
    | true =>
      obtain rfl : '-' = c := Option.some.inj hc
      rfl
  | cons d after =>
    obtain rfl : d = c := Option.some.inj hc
    have hd := hafter d List.mem_cons_self
    rcases eq_of_isBlank hd with rfl | rfl | rfl | rfl | rfl <;> rfl

/-- The statement is read up to its end. -/
theorem read_start {operand : Extent → Parser Tree} (leading : Bool)
    (hb : ∀ c ∈ b, isBlank c = true) (hrest : ∀ c ∈ rest.head?, isWordChar c = false) :
    Part.readAll operand (Part.statementStart ++ Statement.body)
        (hyphen leading ++ (b ++ ("endraw".toList ++ rest))) =
      .ok (opening leading ++ [body b], rest) := by
  have hscan := Token.scan_endraw hb hrest
  have hleaf := Terminal.read_of_scan (t := .keyword "endraw") hscan rfl
  have hword : (Part.node none .endStatement [.token (.keyword "endraw")]).read operand
      (b ++ ("endraw".toList ++ rest)) = .ok ([body b], rest) :=
    Part.read_node (Part.readAll_singleton (Part.read_token hleaf))
  exact Part.readAll_both (Part.read_statementStart leading hb hrest)
    (Part.read_form (List.mem_of_getElem? (i := 18) rfl) hscan rfl hword)

/-- The statement is read, whatever follows it. -/
theorem read (tag : EndTag) (recover : Bool) (depth : Nat) (rest : Input) :
    (Markup.item recover depth).parser (tag.text ++ rest) = .ok ([tag.tree], rest) := by
  have hstart := @read_start _ _ (expression depth) tag.leading tag.isBlank_before
    (head_ending tag.isBlank_after tag.trailing rest)
  have hend := @Part.read_statementEnd _ (expression depth) tag.isBlank_after tag.trailing rest
  have hsource : tag.text ++ rest = '{' :: '%' :: (hyphen tag.leading ++ (tag.before ++
    ("endraw".toList ++ (ending tag.after tag.trailing ++ rest)))) := by simp [text]
  have hopener : Terminal.read
      ⟨some .openDelimiter, .delimiter, .text, .kind .statementOpen, "`\x7b%`"⟩
      (tag.text ++ rest) = .ok (.leaf (some .openDelimiter) .delimiter [] ['{', '%'],
        hyphen tag.leading ++ (tag.before ++
          ("endraw".toList ++ (ending tag.after tag.trailing ++ rest)))) := by
    rw [hsource]
    rfl
  have hread : Part.statement.read (expression depth) (tag.text ++ rest) =
      .ok ([tag.tree], rest) :=
    Part.read_enclosed hopener (Part.readAll_both hstart hend)
  have hraw : Markup.opensRaw [tag.tree] = false := by
    rcases tag with ⟨_ | _, before, after, _ | _, _, _⟩ <;> rfl
  rw [hsource] at hread ⊢
  rw [Markup.item_eq_statement]
  exact Markup.statement_of_read hraw hread

/-- Where the statement begins nothing else is read. -/
theorem exists_of_read {ts : List Tree} (hs : BeginsEndRaw s)
    (h : (Markup.item recover depth).parser s = .ok (ts, rest)) :
    ∃ tag : EndTag, s = tag.text ++ rest ∧ ts = [tag.tree] := by
  obtain ⟨leading, b, more, hb, hmore, rfl⟩ := hs
  -- The statement is read as it is written up to its word, and so the end is read behind the word.
  have hitem := h
  rw [show "\x7b%".toList ++ _ = '{' :: '%' :: _ from rfl, Markup.item_eq_statement] at h
  obtain ⟨t, s', hread, -⟩ := Markup.exists_of_statement h
  obtain ⟨first, s₁, others, hfirst, hothers, -⟩ := Part.exists_of_read_enclosed hread
  cases hfirst
  obtain ⟨_, s₂, last, hstart, hlast, -⟩ := @Part.exists_of_readAll_append _ _ _ _
    (Part.statementStart ++ Statement.body) Part.statementEnd hothers
  obtain ⟨-, rfl⟩ : _ ∧ more = s₂ := by
    simpa using (read_start leading hb hmore).symm.trans hstart
  obtain ⟨after, trailing, hafter, rfl, -⟩ := Part.exists_of_read_statementEnd hlast
  let tag : EndTag := ⟨leading, b, after, trailing, hb, hafter⟩
  have hsource : "\x7b%".toList ++ (hyphen leading ++ (b ++ ("endraw".toList ++
      (ending after trailing ++ s')))) = tag.text ++ s' := by simp [text, tag]
  rw [hsource] at hitem ⊢
  obtain ⟨rfl, rfl⟩ : [tag.tree] = ts ∧ s' = rest := by
    simpa using (tag.read recover depth s').symm.trans hitem
  exact ⟨tag, rfl, rfl⟩

/-- The statement begins where it is written. -/
theorem begins (tag : EndTag) (rest : Input) : BeginsEndRaw (tag.text ++ rest) :=
  ⟨tag.leading, tag.before, ending tag.after tag.trailing ++ rest, tag.isBlank_before,
    head_ending tag.isBlank_after tag.trailing rest, by simp [text]⟩

/-- No two statements that end a raw block are written at one place. -/
theorem text_inj {tag tag' : EndTag} {rest' : Input}
    (h : tag.text ++ rest = tag'.text ++ rest') : tag.text = tag'.text ∧ rest = rest' := by
  have hread := tag.read true 0 rest
  rw [h, tag'.read true 0 rest'] at hread
  obtain rfl : rest' = rest := by simpa using (Prod.mk.inj (Except.ok.inj hread)).2
  exact ⟨List.append_cancel_right h, rfl⟩

end EndTag

end Stencil
