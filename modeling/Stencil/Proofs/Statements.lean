import Stencil.Proofs.RawBlocks

/-!
# Statements as they are read

A statement is its delimiters, the hyphens that may touch them, and between them the form that its
first word begins. `Statement.Reading` keeps all of it, and whatever is read as a statement is read
in this way (`Part.exists_reading`). So is every statement in a template, with what follows it in
the source (`Template.exists_reading`).
-/

namespace Stencil

variable {s rest : Input} {operand : Extent → Parser Tree} {ts : List Tree}

/-! ## Bodies -/

/-- Whether a part is a node of a kind that stands between the delimiters of a statement. -/
def Part.isForm : Part → Bool
  | node none kind _ => kind.isStatementBody
  | _ => false

/-- Every form of a statement is a node. -/
theorem Statement.exists_of_mem_bodies {w : String} {form : Part} (h : (w, form) ∈ bodies) :
    ∃ kind parts, form = .node none kind parts ∧ kind.isStatementBody = true := by
  have hall : bodies.all (fun form => form.2.isForm) = true := by decide +kernel
  have hform : form.isForm = true := List.all_eq_true.1 hall _ h
  unfold Part.isForm at hform
  split at hform
  · exact ⟨_, _, rfl, hform⟩
  · cases hform

namespace Part

/-- What stands between the delimiters of a statement is the form that its first word begins. -/
theorem exists_of_read_body (h : readAll operand Statement.body s = .ok (ts, rest)) :
    ∃ w form next, (w, form) ∈ Statement.bodies ∧ Token.scan .code s = .ok next ∧
      next.isWord w = true ∧ form.read operand s = .ok (ts, rest) := by
  -- The words are looked for one after the other, and without one of them nothing is read.
  have search : ∀ (forms : List (String × Part)) (last : List Part),
      (∀ ts rest, readAll operand last s ≠ .ok (ts, rest)) →
      readAll operand
        (forms.foldr (fun form others => [.choice (atWord form.1) [form.2] others]) last) s =
          .ok (ts, rest) →
      ∃ w form next, (w, form) ∈ forms ∧ Token.scan .code s = .ok next ∧ next.isWord w = true ∧
        form.read operand s = .ok (ts, rest) := by
    intro forms last hlast h
    induction forms with
    | nil => exact absurd h (hlast _ _)
    | cons first forms ih =>
      obtain ⟨w, form⟩ := first
      obtain ⟨next, hscan, ⟨⟨taken, htake⟩, hform⟩ | ⟨-, hothers⟩⟩ :=
        exists_of_read_choice (read_of_readAll_singleton h)
      · have hword : next.isWord w = true := by
          unfold Pattern.take? at htake
          split at htake
          · assumption
          · cases htake
        exact ⟨w, form, next, List.mem_cons_self, hscan, hword, read_of_readAll_singleton hform⟩
      · obtain ⟨w', form', next', hmem, hfound⟩ := ih hothers
        exact ⟨w', form', next', List.mem_cons_of_mem _ hmem, hfound⟩
  refine search Statement.bodies _ (fun ts rest h => ?_) h
  have hrefuse : ∀ cause, readAll operand [refuse cause] s ≠ .ok (ts, rest) := fun cause h => by
    obtain ⟨_, _, -, h⟩ := Parser.bind_eq_ok.1 (read_of_readAll_singleton h)
    cases h
  obtain ⟨_, -, ⟨-, h⟩ | ⟨-, h⟩⟩ := exists_of_read_choice (read_of_readAll_singleton h)
  · exact hrefuse _ h
  · exact hrefuse _ h

/-- What stands between the delimiter of a statement and its body is a hyphen or nothing, and if it
is nothing, no hyphen comes next. -/
theorem exists_of_read_statementStart (h : readAll operand statementStart s = .ok (ts, rest)) :
    ∃ leading, ts = EndTag.opening leading ∧ s = hyphen leading ++ rest ∧
      (leading = false → rest.head? ≠ some '-') := by
  obtain ⟨next, hscan, ⟨-, hyes⟩ | ⟨hnone, hno⟩⟩ :=
    exists_of_read_choice (read_of_readAll_singleton h)
  · obtain ⟨next, taken, hscan, htake, rfl, rfl⟩ :=
      exists_of_read_token (read_of_readAll_singleton hyes)
    obtain ⟨hgap, htext⟩ := Token.text_of_touching_hyphen hscan htake
    have hsource := Token.gap_append_start hscan
    obtain ⟨hsame, hstart⟩ := Pattern.take?_start htake
    rw [← hsame, ← hstart, hgap, Token.start, htext] at hsource
    exact ⟨true, by rw [Token.leaf, hgap, htext]; rfl, hsource.symm, nofun⟩
  · obtain ⟨rfl, rfl⟩ := Parser.pure_eq_ok.1 hno
    refine ⟨false, rfl, rfl, fun _ hhead => ?_⟩
    -- The hyphen would fit.
    obtain ⟨more, rfl⟩ := List.head?_eq_some_iff.1 hhead
    obtain ⟨t, hhyphen, hgap, hkind⟩ := Token.exists_scan_hyphen more
    obtain rfl := Except.ok.inj (hscan.symm.trans hhyphen)
    simp [Pattern.take?, hgap, hkind] at hnone

end Part

/-! ## Readings -/

/-- A statement as it is read: what comes before its body, the form that its first word begins, and
what comes behind that. -/
structure Statement.Reading (operand : Extent → Parser Tree) (s rest : Input) where
  /-- Whether a hyphen touches the delimiter that opens the statement. -/
  leading : Bool
  /-- What is left to read where the body begins. -/
  inside : Input
  /-- The first token of the body. -/
  first : Token
  /-- The word that it is. -/
  word : String
  /-- The kind of the body. -/
  kind : Kind
  /-- What the body is made of. -/
  parts : List Part
  /-- The trees that this is read into. -/
  children : List Tree
  /-- The blanks behind the body. -/
  after : List Char
  /-- Whether a hyphen touches the delimiter that closes the statement. -/
  trailing : Bool
  source : s = "\x7b%".toList ++ (hyphen leading ++ inside)
  head : leading = false → inside.head? ≠ some '-'
  form : (word, .node none kind parts) ∈ Statement.bodies
  isStatementBody : kind.isStatementBody = true
  scan : Token.scan .code inside = .ok first
  isWord : first.isWord word = true
  read : Part.readAll operand parts inside = .ok (children, EndTag.ending after trailing ++ rest)
  isBlank_after : ∀ c ∈ after, isBlank c = true

namespace Statement.Reading

/-- The body of the statement. -/
def body (r : Reading operand s rest) : Tree := .node none r.kind r.children

/-- The tree of the statement. -/
def tree (r : Reading operand s rest) : Tree :=
  .node none .statement (.leaf (some .openDelimiter) .delimiter [] ['{', '%'] ::
    (EndTag.opening r.leading ++ r.body :: EndTag.closing r.after r.trailing))

end Statement.Reading

/-- Whatever is read as a statement is read in this way. -/
theorem Part.exists_reading (h : Part.statement.read operand s = .ok (ts, rest)) :
    ∃ r : Statement.Reading operand s rest, ts = [r.tree] := by
  obtain ⟨opening, s₁, more, hopening, hmore, rfl⟩ := exists_of_read_enclosed h
  obtain ⟨front, s₂, last, hfront, hlast, rfl⟩ :=
    @exists_of_readAll_append _ _ _ _ (statementStart ++ Statement.body) statementEnd hmore
  obtain ⟨start, inside, body, hstart, hbody, rfl⟩ := exists_of_readAll_append hfront
  obtain ⟨after, trailing, hafter, rfl, rfl⟩ := exists_of_read_statementEnd hlast
  obtain ⟨leading, rfl, rfl, hhead⟩ := exists_of_read_statementStart hstart
  obtain ⟨w, form, first, hform, hscan, hword, hread⟩ := exists_of_read_body hbody
  obtain ⟨kind, parts, rfl, hkind⟩ := Statement.exists_of_mem_bodies hform
  obtain ⟨children, _, hchildren, hread⟩ := Parser.bind_eq_ok.1 hread
  obtain ⟨rfl, rfl⟩ := Parser.pure_eq_ok.1 hread
  -- The delimiter is two characters without blanks before them.
  obtain ⟨_, taken, hopener, htake, rfl, hrest⟩ := Terminal.exists_of_read hopening
  obtain ⟨hopenerKind, rfl⟩ := Pattern.kind_of_take? htake
  obtain rfl : Token.scanText s = taken := Except.ok.inj hopener
  have hmem : (['{', '%'], TokenKind.statementOpen) ∈ Token.openerTexts := by decide
  obtain ⟨y, rfl⟩ := Token.exists_of_opener hmem hopenerKind
  rw [Token.scanText_of_opener hmem] at hrest ⊢
  obtain rfl : hyphen leading ++ inside = y := hrest
  exact ⟨⟨leading, inside, first, w, kind, parts, children, after, trailing, rfl, hhead, hform,
    hkind, hscan, hword, hchildren, hafter⟩,
    by simp [Statement.Reading.tree, Statement.Reading.body, Token.leaf]⟩

/-! ## Statements of templates -/

/-- A statement among the children of a tree is read where it stands, up to what follows it. -/
theorem Tree.RowAt.exists_reading {recover : Bool} {u t : Tree} {before after : List Tree}
    (h : u.RowAt recover rest) (hchildren : u.children = before ++ t :: after)
    (hkind : t.kind = .statement) :
    ∃ (depth : Nat) (r : Statement.Reading (expression depth) (t.source ++ (sources after ++ rest))
      (sources after ++ rest)), t = r.tree := by
  obtain ⟨depth, _, b, a, closing, -, rfl, -, -, hrow⟩ := h.exists_row hchildren (hkind ▸ rfl)
  have hreads := Markup.settling_readsItems recover (Markup.item_readsItems recover depth)
  obtain ⟨_, s', as, bs, more, s'', -, rfl, hs', -, hitem, hmore⟩ := hrow.exists_item
  rcases Markup.exists_of_settling hitem with hread | ⟨-, skipped, heq⟩
  · obtain ⟨v, s₁, hstatement, -, hforms⟩ :=
      Markup.exists_of_statement (Markup.statement_of_item hread (by simp) hkind)
    -- The statement is the first tree of its item.
    obtain rfl : as = [] := by
      cases as with
      | nil => rfl
      | cons w as =>
        have htail : ∀ body, as ++ t :: bs ≠ Markup.textOf body := fun body heq => by
          have hmem : t ∈ Markup.textOf body := heq ▸ by simp
          rw [Markup.kind_of_mem_textOf hmem] at hkind
          cases hkind
        rcases hforms with ⟨-, heq, -⟩ | ⟨-, body, hbody, heq⟩
        · simp at heq
        · obtain ⟨text, -, -, rfl⟩ := Markup.endsBefore_of_rawBody hbody
          exact absurd (List.cons_eq_cons.1 heq).2 (htail text)
    obtain rfl : t = v := by
      rcases hforms with ⟨-, heq, -⟩ | ⟨-, body, -, heq⟩
      · exact (List.cons_eq_cons.1 heq).1
      · exact (List.cons_eq_cons.1 heq).1
    have hsource := Part.read_append (Part.operands_expression depth).source _ hstatement
    have hitemSource := (hreads.items hs' hitem).2.2
    have hbehind : sources ((bs ++ more) ++ closing) ++ rest = s₁ := by
      rw [← hmore.source hreads, ← hsource] at hitemSource
      simpa [sources] using hitemSource
    rw [← hsource, ← hbehind, sources, sources, List.append_nil] at hstatement
    obtain ⟨r, hr⟩ := Part.exists_reading hstatement
    exact ⟨depth, r, (List.cons_eq_cons.1 hr).1⟩
  · have hmem : t ∈ [leaf none .error [] skipped] := heq ▸ by simp
    rw [List.mem_singleton.1 hmem] at hkind
    cases hkind

/-- Every statement of a template is read where it stands in the source, up to what follows it. -/
theorem Template.exists_reading (options : Options) (source : Input) {n : Node}
    (hn : n ∈ (parse options source).tree.root.descendants) (hkind : n.kind = .statement) :
    ∃ (depth number : Nat) (before rest s : Input)
      (r : Statement.Reading (expression depth) s rest),
      source = before ++ s ∧ n = r.tree.place number (byteLength before) := by
  rcases Node.exists_parent hn with rfl | ⟨m, hm, hchild⟩
  · cases hkind
  · obtain ⟨as, bs, hchildren⟩ := List.append_of_mem hchild
    obtain ⟨u, number, pre, post, rfl, hsource, hrow⟩ :=
      Tree.exists_of_mem_descendants (parse_rows options source) hm
    obtain ⟨before, t, after, i, j, -, htrees, rfl, -⟩ := Tree.exists_place_of_children hchildren
    obtain ⟨depth, r, hr⟩ := hrow.exists_reading htrees ((Node.kind_place t _ _).symm.trans hkind)
    refine ⟨depth, i, pre ++ Tree.sources before, _, _, r, ?_, ?_⟩
    · rw [← source_tree options source, hsource, Tree.source_of_children htrees]
      simp
    · rw [← hr, byteLength_append, Nat.zero_add]

end Stencil
