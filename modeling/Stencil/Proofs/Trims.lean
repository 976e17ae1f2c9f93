import Mathlib
import Stencil.Proofs.Contexts
import Stencil.Proofs.Numbering
import Stencil.Proofs.Numerals
import Stencil.Proofs.Statements

/-!
# Trim markers

A hyphen in front of the end of a statement is its trim marker, and belongs to no other token unless
a string holds the end as well (`Tree.ClearOfEnd`). No token of a code mode but the marker holds
such a hyphen (`Token.exists_of_hyphen`), so no body of a statement does. So the markers of a
statement are those that stand in its text, and operators keep clear of the ends of statements
wherever they are: that is the main statement, `Template.parse_trims`.
-/

namespace Stencil

variable {s rest : Input} {a b text : List Char}

/-! ## Tokens -/

namespace Numeral

/-- A group of digits does not end with a hyphen. -/
theorem getLast?_of_mem_groups (h : text ∈ optional groups) : text.getLast? ≠ some '-' := by
  intro hlast
  have hdigits := digits_of_mem h (s := []) (by simp [EndsGroup])
  have hchars := digits_chars (text ++ [])
  rw [hdigits] at hchars
  cases hchars _ (List.mem_of_getLast? hlast)

/-- An exponent does not end with a hyphen. -/
theorem getLast?_of_mem_exponents (h : text ∈ optional exponents) : text.getLast? ≠ some '-' := by
  rcases mem_optional.1 h with rfl | ⟨front, -, ds, hds, rfl⟩
  · simp
  · have hlast := getLast?_of_mem_groups (mem_optional.2 (.inr hds))
    obtain ⟨c, hc⟩ := Option.isSome_iff_exists.1 (List.getLast?_isSome.2 (ne_nil_of_mem_groups hds))
    simp_all [List.getLast?_append]

/-- A fraction does not end with a hyphen. -/
theorem getLast?_of_mem_fractions (h : text ∈ optional fractions) : text.getLast? ≠ some '-' := by
  rcases mem_optional.1 h with rfl | ⟨_, rfl, ds, hds, rfl⟩
  · simp
  · have hlast := getLast?_of_mem_groups hds
    rw [List.getLast?_append]
    cases hds' : ds.getLast? <;> simp_all

/-- No number ends with a hyphen. -/
theorem getLast?_text {t : Token} (h : scan? s = some t) : t.text.getLast? ≠ some '-' := by
  obtain ⟨sg, whole, frac, power, hparts, htext, -⟩ := exists_parts h
  have hpower := getLast?_of_mem_exponents hparts.exponent_mem
  have hfrac := getLast?_of_mem_fractions hparts.fraction_mem
  have hwhole := getLast?_of_mem_groups hparts.whole_mem
  -- The last character is that of the last part that is there, and a sign is not the only one.
  rw [htext]
  cases hp : power.getLast? <;> cases hf : frac.getLast? <;> cases hw : whole.getLast? <;>
    simp_all [List.getLast?_append]
  exact absurd hparts.nonempty (by simp)

end Numeral

namespace Token

/-- A hyphen in a token of code touches the end of a statement only if the token is the trim marker,
or a string that holds the end as well. -/
theorem exists_of_hyphen_code {operand : Bool} {t : Token} (h : scanCode operand s = .ok t)
    (htext : t.text = a ++ '-' :: b) (hend : b ++ t.rest = '%' :: '}' :: rest) :
    t.kind = .trim ∨ t.kind = .quoted ∧ 2 < b.length := by
  have hmem : '-' ∈ t.text := htext ▸ by simp
  cases codeToken_of_scanCode h with
  | atEnd => cases hmem
  | trim => exact .inl rfl
  | number hscan =>
    cases b with
    | nil => exact absurd (by simp [htext]) (Numeral.getLast?_text hscan)
    | cons c b =>
      obtain ⟨rfl, -⟩ := List.cons_eq_cons.1 hend
      have hpercent := Numeral.scan?_text hscan '%' (by simp [htext])
      simp [Numeral.IsChar, isWordChar] at hpercent
  | @quoted q _ text _ hq hclose =>
    refine .inr ⟨rfl, ?_⟩
    -- The string ends with its quote, which is no character of the end of a statement.
    obtain ⟨front, rfl⟩ := Quotation.close?_concat hclose
    have hlast : ('-' :: b).getLast? = some q := by
      have hlast := congrArg List.getLast? htext
      simpa [List.getLast?_append, List.getLast?_cons] using hlast.symm
    rcases b with _ | ⟨c, _ | ⟨d, _ | ⟨e, b⟩⟩⟩
    case cons.cons.cons => simp
    all_goals rcases hq with rfl | rfl <;> simp_all
  | word hc =>
    rcases List.mem_cons.1 hmem with rfl | hmem
    · cases hc
    · cases List.all_eq_true.1 List.all_takeWhile _ hmem
  | @symbol kind text rest hsymbol =>
    -- The only symbol with a hyphen is that, and in front of the end of a statement it is none.
    have hsymbols : ∀ symbol ∈ symbols, '-' ∈ symbol.1 → symbol = (['-'], .minus) := by decide
    obtain ⟨rfl, rfl⟩ := Prod.mk.inj (hsymbols _ hsymbol hmem)
    obtain ⟨rfl, rfl⟩ : a = [] ∧ b = [] := by
      simpa [List.singleton_eq_append_iff] using htext
    obtain rfl : rest = _ := hend
    cases h

/-- A hyphen in a token touches the end of a statement only if the token is the trim marker, or a
string that holds the end as well. -/
theorem exists_of_hyphen {mode : Mode} {t : Token} (hmode : mode ∈ codeModes)
    (h : scan mode s = .ok t) (htext : t.text = a ++ '-' :: b)
    (hend : b ++ t.rest = '%' :: '}' :: rest) :
    t.kind = .trim ∨ t.kind = .quoted ∧ 2 < b.length := by
  have hblanks : ∀ {operand : Bool} {s : Input} {t : Token},
      afterBlanks (scanCode operand) s = .ok t → t.text = a ++ '-' :: b →
      b ++ t.rest = '%' :: '}' :: rest → t.kind = .trim ∨ t.kind = .quoted ∧ 2 < b.length := by
    intro operand s t h htext hend
    obtain ⟨next, hnext, rfl⟩ := afterBlanks_eq_ok.1 h
    exact exists_of_hyphen_code (t := next) hnext htext hend
  simp only [codeModes, List.mem_cons, List.not_mem_nil, or_false] at hmode
  rcases hmode with rfl | rfl | rfl
  · exact hblanks h htext hend
  · exact hblanks h htext hend
  · cases scanOperator_eq_ok.1 h with
    | single hsingle => exact hblanks hsingle htext hend
    | notIn hfirst hnot hsecond hin =>
      -- There are two words in the token, and blanks.
      have hmem : '-' ∈ a ++ '-' :: b := by simp
      rw [← htext, (isWord_iff.1 hnot).2, (isWord_iff.1 hin).2] at hmem
      rcases List.mem_append.1 hmem with hmem | hmem
      · simp at hmem
      · rcases List.mem_append.1 hmem with hmem | hmem
        · cases @isBlank_of_mem_gap .code _ _ hsecond _ hmem
        · simp at hmem

end Token

/-! ## Trees -/

/-- No hyphen of a token touches the end of a statement that comes behind it, unless the token is a
string and holds the end as well. -/
def Tree.ClearOfEnd : Tree → Input → Prop
  | leaf _ kind gap text, rest => ∀ a b more, gap ++ text = a ++ '-' :: b →
      b ++ rest = '%' :: '}' :: more → kind = .string ∧ 2 < b.length
  | node .., _ => True

namespace Tree

/-- Whether a token is clear of the end of a statement is not for its field to say. -/
theorem ofTokens_clearOfEnd : OfTokens ClearOfEnd where
  under := by
    rintro (_ | _) rest f h
    · exact h
    · trivial
  node _ _ _ _ := trivial

/-- A token without hyphens is clear of the end of a statement. -/
theorem clearOfEnd_of_not_mem {field : Option Field} {kind : Kind} {gap : List Char}
    (h : '-' ∉ gap ++ text) : (leaf field kind gap text).ClearOfEnd rest := by
  intro a b more hsplit
  exact absurd (by simp [hsplit]) h

mutual

/-- No tree of tokens that are clear of the end of a statement ends with a hyphen that touches
one. -/
theorem EveryAt.ne_hyphen : ∀ {t : Tree} {rest : Input} {a : List Char},
    t.EveryAt ClearOfEnd ('%' :: '}' :: rest) → t.source ≠ a ++ ['-']
  | leaf .., rest, a, h, heq => by
    obtain ⟨-, hlength⟩ := h a [] rest heq rfl
    cases hlength
  | node .., _, _, h, heq => EveryOfAt.ne_hyphen h.2 heq

/-- No trees of tokens that are clear of the end of a statement end with a hyphen that touches
one. -/
theorem EveryOfAt.ne_hyphen : ∀ {ts : List Tree} {rest : Input} {a : List Char},
    EveryOfAt ClearOfEnd ('%' :: '}' :: rest) ts → sources ts ≠ a ++ ['-']
  | [], _, _, _, heq => by simp [sources] at heq
  | t :: ts, rest, a, h, heq => by
    rw [sources] at heq
    rcases List.append_eq_append_iff.1 heq with ⟨as, -, hmore⟩ | ⟨as, hfirst, hlast⟩
    · exact EveryOfAt.ne_hyphen h.2 hmore
    · rcases List.singleton_eq_append_iff.1 hlast with ⟨-, hmore⟩ | ⟨rfl, hnil⟩
      · exact EveryOfAt.ne_hyphen (a := []) h.2 hmore
      · have ht := h.1
        rw [hnil] at ht
        exact EveryAt.ne_hyphen ht hfirst

end

end Tree

/-! ## Productions -/

/-- Whether a token of a production is clear of the ends of statements, by what it has to be. -/
def Terminal.isClear (t : Terminal) : Bool :=
  t.mode ∈ Token.codeModes &&
    match t.pattern with
    | .kind k => k ≠ .trim && (k ≠ .quoted || t.kind = .string)
    | .word _ => true
    | .closer _ => true
    | .hyphen | .touching _ => false

/-- A token of code is clear of the end of a statement, if it is not the trim marker and all strings
are such by their kind. -/
theorem Token.clearOfEnd {mode : Mode} {t : Token} (hmode : mode ∈ codeModes)
    (h : scan mode s = .ok t) (htrim : t.kind ≠ .trim) {kind : Kind}
    (hstring : t.kind = .quoted → kind = .string) (field : Option Field) :
    (t.leaf field kind).ClearOfEnd t.rest := by
  intro a b more hsplit hend
  -- The hyphen is no blank, and so it stands in the text.
  obtain ⟨x, -, htext⟩ : ∃ x, a = t.gap ++ x ∧ t.text = x ++ '-' :: b := by
    rcases List.append_eq_append_iff.1 hsplit with ⟨x, ha, htext⟩ | ⟨x, hgap, hx⟩
    · exact ⟨x, ha, htext⟩
    · cases x with
      | nil => exact ⟨[], by simpa using hgap.symm, hx.symm⟩
      | cons c x =>
        obtain ⟨rfl, -⟩ := List.cons_eq_cons.1 hx
        cases isBlank_of_mem_gap h '-' (by simp [hgap])
  rcases exists_of_hyphen hmode h htext hend with hkind | ⟨hkind, hlength⟩
  · exact absurd hkind htrim
  · exact ⟨hstring hkind, hlength⟩

/-- A token that is clear of the ends of statements by what it has to be is so where it is read. -/
theorem Terminal.satisfies_clearOfEnd {t : Terminal} (ht : t.isClear = true) :
    t.Satisfies Tree.ClearOfEnd := by
  intro s leaf rest h
  obtain ⟨next, taken, hscan, htake, rfl, rfl⟩ := exists_of_read h
  obtain ⟨field, kind, mode, pattern, expected⟩ := t
  obtain ⟨hmode, hpattern⟩ := Bool.and_eq_true_iff.1 ht
  replace hmode : mode ∈ Token.codeModes := of_decide_eq_true hmode
  cases pattern with
  | kind k =>
    obtain ⟨hkind, rfl⟩ := Pattern.kind_of_take? htake
    simp only [ne_eq, decide_not, Bool.and_eq_true, Bool.or_eq_true, Bool.not_eq_true',
      decide_eq_false_iff_not, decide_eq_true_eq] at hpattern
    obtain ⟨htrim, hstring⟩ := hpattern
    exact Token.clearOfEnd hmode hscan (hkind ▸ htrim)
      (fun hquoted => hstring.resolve_left (not_not.2 (hkind.symm.trans hquoted))) field
  | word w =>
    obtain ⟨hword, rfl⟩ : next.isWord w = true ∧ next = taken := by
      simpa [Pattern.take?] using htake
    have hkind := (Token.isWord_iff.1 hword).1
    exact Token.clearOfEnd hmode hscan (by simp [hkind]) (by simp [hkind]) field
  | closer b =>
    simp only [Pattern.take?] at htake
    split at htake
    · cases htake
    · split at htake
      · rename_i hcloser
        cases htake
        refine Tree.clearOfEnd_of_not_mem (List.not_mem_append ?_ ?_)
        · exact fun hmem => absurd (Token.isBlank_of_mem_gap hscan _ hmem) (by decide)
        · subst hcloser
          cases b <;> simp [Bracket.closer]
      · cases htake
  | hyphen | touching => cases hpattern

/-! ## Expressions -/

/-- The tokens of expressions are clear of the ends of statements. -/
theorem Tree.ofExpressions_clearOfEnd : OfExpressions ClearOfEnd where
  toOfTokens := ofTokens_clearOfEnd
  leaf := by
    intro s next kind hscan hform
    have hkinds : next.kind ≠ .trim ∧ (next.kind = .quoted → kind = .string) := by
      unfold Primary.of? at hform
      split at hform
      all_goals simp_all
    exact Token.clearOfEnd (by decide) hscan hkinds.1 hkinds.2 none
  primary := by
    intro next kind parts hform t ht
    refine Terminal.satisfies_clearOfEnd ?_
    rcases Primary.of?_eq_node hform with h | h | ⟨h, hkind⟩
    · cases h
      exact List.all_eq_true.1 (by decide : (Part.terminalsOf Part.list).all _ = true) t ht
    · cases h
      exact List.all_eq_true.1 (by decide : (Part.terminalsOf Part.dict).all _ = true) t ht
    · cases h
      obtain rfl := List.mem_singleton.1 ht
      rcases hkind with hkind | hkind | hkind <;> rw [hkind] <;> decide
  tail := by
    intro next form hform t ht
    refine Terminal.satisfies_clearOfEnd ?_
    have hbinary : ∀ kind, next.kind ≠ .trim → next.kind ≠ .quoted →
        t ∈ Part.terminalsOf (Tail.binary kind next).more → t.isClear = true := by
      intro kind htrim hquoted ht
      obtain rfl := List.mem_singleton.1 ht
      simp [Terminal.isClear, Token.codeModes, htrim, hquoted]
    rcases Tail.of?_eq_some hform with ⟨rfl, -⟩ | ⟨rfl, -⟩ | ⟨rfl, -⟩ | ⟨rfl, hkind⟩ | ⟨rfl, hkind⟩
    · exact List.all_eq_true.1 (by decide : (Part.terminalsOf Tail.call.more).all _ = true) t ht
    · exact List.all_eq_true.1 (by decide : (Part.terminalsOf Tail.property.more).all _ = true) t ht
    · exact List.all_eq_true.1
        (by decide : (Part.terminalsOf Tail.subscript.more).all _ = true) t ht
    · rcases hkind with hkind | hword
      · exact hbinary _ (by rintro h; simp [h, Tail.comparisonKinds] at hkind)
          (by rintro h; simp [h, Tail.comparisonKinds] at hkind) ht
      · have hkind := (Token.isWord_iff.1 hword).1
        exact hbinary _ (by simp [hkind]) (by simp [hkind]) ht
    · exact hbinary _ (by rintro h; simp [h, Tail.arithmeticKinds] at hkind)
        (by rintro h; simp [h, Tail.arithmeticKinds] at hkind) ht

/-- Operators are clear of the ends of statements. -/
theorem Tree.ofOperators_clearOfEnd :
    OfOperators fun t rest => t.kind = .operator → t.ClearOfEnd rest where
  under := fun h hkind => ofTokens_clearOfEnd.under (h ((kind_under _ _).symm.trans hkind))
  node := fun _ _ _ _ _ => trivial
  leaf := fun hscan hform _ => ofExpressions_clearOfEnd.leaf hscan hform
  primary := fun hform t ht _ _ _ h _ => ofExpressions_clearOfEnd.primary hform t ht h
  tail := fun hform t ht _ _ _ h _ => ofExpressions_clearOfEnd.tail hform t ht h
  other := fun hkind h => absurd h hkind

/-! ## Statements -/

/-- The tokens of the body of a statement are clear of its end. -/
theorem Statement.satisfies_of_mem_bodies {w : String} {kind : Kind} {parts : List Part}
    (h : (w, .node none kind parts) ∈ bodies) :
    ∀ t ∈ Part.terminalsOf parts, t.Satisfies Tree.ClearOfEnd := by
  have hall : bodies.all (fun form => form.2.terminals.all Terminal.isClear) = true := by
    decide +kernel
  intro t ht
  exact Terminal.satisfies_clearOfEnd (List.all_eq_true.1 (List.all_eq_true.1 hall _ h) t ht)

namespace Statement.Reading

variable {depth : Nat} (r : Reading (expression depth) s rest)

/-- What is read as the body, and what comes behind it, is what is left where the body begins. -/
theorem source_children :
    Tree.sources r.children ++ (EndTag.ending r.after r.trailing ++ rest) = r.inside :=
  Part.readAll_append (Part.operands_expression depth).source _ r.read

/-- All of the statement in front of its end. -/
def front : List Tree :=
  .leaf (some .openDelimiter) .delimiter [] ['{', '%'] :: (EndTag.opening r.leading ++ [r.body])

/-- A statement is what stands in front of its end, and its end. -/
theorem tree_eq :
    r.tree = .node none .statement (r.front ++ EndTag.closing r.after r.trailing) := by
  simp [tree, front]

/-- What stands in front of the end of a statement is clear of it. -/
theorem everyOfAt_front :
    Tree.EveryOfAt Tree.ClearOfEnd (EndTag.ending r.after r.trailing ++ rest) r.front := by
  have hbody : r.body.EveryAt Tree.ClearOfEnd (EndTag.ending r.after r.trailing ++ rest) :=
    ⟨trivial, Part.readAll_everyAt Tree.ofTokens_clearOfEnd (Part.operands_expression depth)
      (expression_everyAt Tree.ofExpressions_clearOfEnd depth) _ (satisfies_of_mem_bodies r.form)
      r.read⟩
  have hopening : Tree.EveryOfAt Tree.ClearOfEnd r.inside (EndTag.opening r.leading) := by
    unfold EndTag.opening
    split
    · refine ⟨fun a b more hsplit hend => ?_, trivial⟩
      -- The body begins with a word.
      obtain ⟨rfl, rfl⟩ : a = [] ∧ b = [] := by
        simpa [List.singleton_eq_append_iff] using hsplit
      have hscan := r.scan
      rw [show r.inside = '%' :: '}' :: more from hend] at hscan
      have hword := r.isWord
      rw [← Except.ok.inj hscan] at hword
      cases hword
    · trivial
  refine ⟨@Tree.clearOfEnd_of_not_mem _ _ (some .openDelimiter) _ _ (by decide),
    Tree.everyOfAt_append.2 ⟨?_, ?_, trivial⟩⟩
  · rw [← r.source_children] at hopening
    simpa [body, Tree.sources, Tree.source] using hopening
  · exact hbody

/-- What stands in front of the end of a statement is its delimiter, the hyphen that touches it, and
the body. -/
theorem sources_front :
    Tree.sources r.front = "\x7b%".toList ++ (hyphen r.leading ++ r.body.source) := by
  rcases hleading : r.leading <;>
    simp [front, hleading, EndTag.opening, hyphen, Tree.sources, Tree.source]

/-- The end of a statement is written behind its body. -/
theorem source_tree :
    r.tree.source = Tree.sources r.front ++ EndTag.ending r.after r.trailing := by
  rcases htrailing : r.trailing <;>
    simp [tree_eq, htrailing, EndTag.closing, EndTag.ending, hyphen, Tree.source, Tree.sources]

/-- A statement and what follows it are what it was read from. -/
theorem source_tree_append : r.tree.source ++ rest = s := by
  calc r.tree.source ++ rest
      = "\x7b%".toList ++ (hyphen r.leading ++ (Tree.sources r.children ++
          (EndTag.ending r.after r.trailing ++ rest))) := by
        simp [r.source_tree, r.sources_front, body, Tree.source]
    _ = s := by rw [r.source_children, ← r.source]

/-- There are no blanks before a statement. -/
theorem text_tree : r.tree.text = r.tree.source := by
  rw [← Tree.gap_append_text r.tree]
  simp [tree_eq, front, Tree.gap, Tree.gaps]

/-- A hyphen touches the delimiter that opens a statement if one does in the source. -/
theorem leading_iff : r.leading = true ↔ "\x7b%-".toList <+: r.tree.source := by
  rw [r.source_tree, r.sources_front]
  rcases hleading : r.leading
  · refine iff_of_false (by simp) fun hprefix => r.head hleading ?_
    obtain ⟨more, hmore⟩ := hprefix
    have hinside : '-' :: more = Tree.sources r.children ++ EndTag.ending r.after r.trailing := by
      simpa [hyphen, body, Tree.source] using hmore
    rw [← r.source_children, ← List.append_assoc, ← hinside]
    rfl
  · exact iff_of_true rfl ⟨r.body.source ++ EndTag.ending r.after r.trailing, by simp [hyphen]⟩

/-- A hyphen touches the delimiter that closes a statement if one does in the source. -/
theorem trailing_iff : r.trailing = true ↔ "-%\x7d".toList <:+ r.tree.source := by
  rw [r.source_tree]
  rcases htrailing : r.trailing
  · refine iff_of_false (by simp) fun ⟨x, hx⟩ => ?_
    have hsplit : x ++ ['-'] = Tree.sources r.front ++ r.after := by
      have happend : x ++ ['-'] ++ "%\x7d".toList =
          Tree.sources r.front ++ r.after ++ "%\x7d".toList := by
        simpa [EndTag.ending, hyphen] using hx
      exact List.append_cancel_right happend
    -- The hyphen is no blank, so that it would be the last character of the body.
    rcases List.eq_nil_or_concat r.after with hafter | ⟨front, c, hafter⟩
    · have hfront := r.everyOfAt_front
      rw [htrailing, hafter] at hfront
      exact Tree.EveryOfAt.ne_hyphen hfront (by simpa [hafter] using hsplit.symm)
    · rw [hafter, List.concat_eq_append, ← List.append_assoc] at hsplit
      have hblank := r.isBlank_after c (by simp [hafter])
      obtain rfl : '-' = c := by simpa using (List.append_inj' hsplit rfl).2
      cases hblank
  · exact iff_of_true rfl ⟨Tree.sources r.front ++ r.after, by simp [EndTag.ending, hyphen]⟩

/-- The trim markers of a statement are the hyphens that touch its delimiters. -/
theorem view?_place (id pos : Nat) :
    ∃ body, (r.tree.place id pos).view? = some (.statement body r.leading r.trailing) := by
  have hmarker : ∀ f, ((r.tree.place id pos).child? f).isSome =
      (r.tree.children.find? fun c => c.field = some f).isSome := by
    intro f
    rw [← Node.child?_place, Option.isSome_map]
  obtain ⟨hleading, htrailing⟩ : ((r.tree.place id pos).child? .leadingTrim).isSome = r.leading ∧
      ((r.tree.place id pos).child? .trailingTrim).isSome = r.trailing := by
    rw [hmarker, hmarker]
    rcases hl : r.leading <;> rcases ht : r.trailing <;>
      simp [tree, hl, ht, EndTag.opening, EndTag.closing, body, Tree.field, Tree.children]
  refine ⟨(r.tree.place id pos).children.find? fun c => c.kind.isStatementBody, ?_⟩
  rw [← hleading, ← htrailing, Node.view?, Node.kind_place]
  rfl

/-- The marker in front of the end of a statement is found where it stands. -/
theorem child?_trailingTrim (htrailing : r.trailing = true) (id pos : Nat) :
    (r.tree.place id pos).child? .trailingTrim =
      some ((Tree.leaf (some .trailingTrim) .trimMarker r.after ['-']).place
        (id + Tree.sizes r.front) (pos + byteLength (Tree.sources r.front))) := by
  have hfields : ∀ t ∈ r.front, t.field ≠ some .trailingTrim := by
    rcases hleading : r.leading <;> simp [front, hleading, EndTag.opening, body, Tree.field]
  have hfront : (Tree.placeAll id pos r.front).find? (fun c => c.field = some .trailingTrim) =
      none := by
    refine List.find?_eq_none.2 fun c hc => ?_
    have hmem : c.tree ∈ r.front := by
      rw [← Tree.placeAll_tree id pos r.front]
      exact List.mem_map_of_mem hc
    exact fun h => hfields _ hmem (of_decide_eq_true h)
  rw [Node.child?, Tree.place_children, tree_eq, Tree.children, Tree.placeAll_append,
    List.find?_append, hfront, htrailing]
  simp [EndTag.closing, Tree.placeAll_cons, Tree.field]

/-- The marker in front of the end of a statement is behind the one at its beginning. -/
theorem stop_le_start (id pos : Nat) :
    ∀ l ∈ (r.tree.place id pos).child? .leadingTrim,
      ∀ t ∈ (r.tree.place id pos).child? .trailingTrim, l.stop ≤ t.start := by
  rcases hl : r.leading <;> rcases ht : r.trailing <;>
    simp [Node.child?, tree, hl, ht, EndTag.opening, EndTag.closing, body, Tree.place_children,
      Tree.placeAll_cons, Tree.field, Tree.children, Tree.place_start, Tree.place_stop, Tree.source,
      Tree.gap]
  omega

end Statement.Reading

/-! ## Places -/

/-- A hyphen at a byte of a source belongs to the text of a node and touches the end of a
statement. -/
def Node.TouchesEnd (n : Node) (source : Input) (place : Nat) : Prop :=
  ∃ before after, source = before ++ ("-%\x7d".toList ++ after) ∧ byteLength before = place ∧
    n.start ≤ place ∧ place < n.stop

namespace Tree

variable {t : Tree} {before after : List Char} {number place : Nat}

/-- A hyphen that touches the end of a statement and belongs to a tree stands among its
characters. -/
theorem exists_of_touchesEnd
    (h : (t.place number (byteLength before)).TouchesEnd (before ++ (t.source ++ after)) place) :
    ∃ a b more, t.source = a ++ '-' :: b ∧ b ++ after = '%' :: '}' :: more ∧
      (t.place number (byteLength before)).stop = place + 1 + byteLength b := by
  obtain ⟨front, more, hsource, rfl, hstart, hstop⟩ := h
  rw [place_start] at hstart
  rw [place_stop] at hstop ⊢
  have hempty : ∀ {c : List Char}, byteLength c = 0 → c = [] := fun {c} hc =>
    List.length_eq_zero_iff.1 (Nat.le_zero.1 (hc ▸ length_le_byteLength c))
  -- What comes before the hyphen ends inside the tree.
  obtain ⟨a, rfl, hinside⟩ : ∃ a, front = before ++ a ∧
      t.source ++ after = a ++ ('-' :: '%' :: '}' :: more) := by
    rcases List.append_eq_append_iff.1 hsource with ⟨a, ha, hinside⟩ | ⟨c, rfl, hmore⟩
    · exact ⟨a, ha, hinside⟩
    · rw [byteLength_append] at hstart
      obtain rfl := hempty (c := c) (by omega)
      exact ⟨[], by simp, by simpa using hmore.symm⟩
  rw [byteLength_append] at hstop
  rcases List.append_eq_append_iff.1 hinside with ⟨c, rfl, -⟩ | ⟨c, ha, hmore⟩
  · rw [byteLength_append] at hstop
    omega
  · cases c with
    | nil =>
      rw [ha, List.append_nil] at hstop
      omega
    | cons d b =>
      obtain ⟨rfl, hend⟩ := List.cons_eq_cons.1 hmore
      refine ⟨a, b, more, ha, hend.symm, ?_⟩
      rw [ha, byteLength_append, byteLength_append, byteLength]
      simp only [show Char.utf8Size '-' = 1 from rfl]
      omega

/-- If a hyphen of a token that is clear of the end of a statement touches one, the token is a
string and holds it. -/
theorem isString_of_touchesEnd (hclear : t.ClearOfEnd after)
    (hchildren : (t.place number (byteLength before)).children = [])
    (h : (t.place number (byteLength before)).TouchesEnd (before ++ (t.source ++ after)) place) :
    t.kind = .string ∧ place + 3 < (t.place number (byteLength before)).stop := by
  obtain ⟨a, b, more, hsource, hend, hstop⟩ := exists_of_touchesEnd h
  cases t with
  | leaf field kind gap text =>
    obtain ⟨hstring, hlength⟩ := hclear a b more hsource hend
    have hbytes := length_le_byteLength b
    exact ⟨hstring, by omega⟩
  | node field kind ts =>
    have hts := placeAll_tree number (byteLength before) ts
    rw [place_children] at hchildren
    rw [show placeAll number (byteLength before) ts = [] from hchildren] at hts
    obtain rfl : [] = ts := hts
    simp [source, sources] at hsource

/-- If a hyphen of a token among trees that are clear of the end of a statement touches one, the
token is a string and holds it. -/
theorem isString_of_mem_descendantsOfAll {ts : List Tree} {m : Node}
    (hclear : EveryOfAt ClearOfEnd after ts)
    (hm : m ∈ Node.descendantsOfAll (placeAll number (byteLength before) ts))
    (hchildren : m.children = []) (h : m.TouchesEnd (before ++ (sources ts ++ after)) place) :
    m.kind = .string ∧ place + 3 < m.stop := by
  obtain ⟨u, id, a, b, rfl, hts, hu⟩ := exists_of_mem_descendantsOfAll hclear hm
  rw [← byteLength_append] at hchildren h ⊢
  rw [Node.kind_place]
  refine isString_of_touchesEnd hu hchildren ?_
  simpa [hts] using h

end Tree

/-- In a statement a hyphen that touches its end is the trim marker, unless it stands in a string
that goes on behind the end. -/
theorem Statement.Reading.trailing_of_touchesEnd {depth : Nat}
    (r : Reading (expression depth) s rest) {before : List Char} {number place : Nat} {m : Node}
    (hm : m ∈ (r.tree.place number (byteLength before)).descendants) (hchildren : m.children = [])
    (h : m.TouchesEnd (before ++ s) place) :
    (r.tree.place number (byteLength before)).child? .trailingTrim = some m ∨
      m.kind = .string ∧ place + 3 < m.stop := by
  rw [Node.descendants_eq, Tree.place_children, List.mem_cons] at hm
  rcases hm with rfl | hm
  · rw [Tree.place_children, tree_eq] at hchildren
    cases hchildren
  have hs : s = Tree.sources r.front ++ (EndTag.ending r.after r.trailing ++ rest) := by
    rw [← List.append_assoc, ← r.source_tree, r.source_tree_append]
  have hclose : ∀ gap, (∀ c ∈ gap, isBlank c = true) → Tree.EveryOfAt Tree.ClearOfEnd rest
      [.leaf (some .closeDelimiter) .delimiter gap ['%', '}']] := by
    refine fun gap hgap => ⟨@Tree.clearOfEnd_of_not_mem _ _ (some .closeDelimiter) _ _
      (List.not_mem_append ?_ (by decide)), trivial⟩
    exact fun hmem => absurd (hgap _ hmem) (by decide)
  rw [tree_eq, Tree.children, Tree.placeAll_append, Node.descendantsOfAll_append] at hm
  rcases List.mem_append.1 hm with hm | hm
  · exact .inr (Tree.isString_of_mem_descendantsOfAll r.everyOfAt_front hm hchildren (hs ▸ h))
  · rw [hs, ← List.append_assoc] at h
    rw [← byteLength_append] at hm
    rcases htrailing : r.trailing
    · rw [htrailing] at hm h
      refine .inr (Tree.isString_of_mem_descendantsOfAll (hclose _ r.isBlank_after) hm hchildren ?_)
      simpa [EndTag.ending, hyphen, Tree.sources, Tree.source] using h
    · rw [htrailing] at hm h
      rw [EndTag.closing, if_pos rfl, Tree.placeAll_cons] at hm
      rcases List.mem_append.1 hm with hm | hm
      · left
        obtain rfl := List.mem_singleton.1 hm
        rw [r.child?_trailingTrim htrailing, byteLength_append]
        rfl
      · rw [← byteLength_append] at hm
        refine .inr (Tree.isString_of_mem_descendantsOfAll (hclose [] (by simp)) hm hchildren ?_)
        simpa [EndTag.ending, hyphen, Tree.sources, Tree.source] using h

namespace Template

/-- The trim markers of a statement mirror the source: one is there at the beginning exactly if the
text of the statement begins with a delimiter that a hyphen touches, and one at the end exactly if
it ends with such, and the two are not the same hyphen. No other token of the statement holds a
hyphen that touches the end, unless a string holds the end too; and no operator anywhere does. -/
theorem parse_trims (options : Options) (source : Input) :
    let root := (parse options source).tree.root
    (∀ n ∈ root.descendants, n.kind = .statement →
      ∃ body leading trailing, n.view? = some (.statement body leading trailing) ∧
        (leading = true ↔ "\x7b%-".toList <+: n.text) ∧
        (trailing = true ↔ "-%\x7d".toList <:+ n.text) ∧
        (∀ l ∈ n.child? .leadingTrim, ∀ t ∈ n.child? .trailingTrim, l.stop ≤ t.start) ∧
        ∀ m ∈ n.descendants, m.children = [] → ∀ place, m.TouchesEnd source place →
          n.child? .trailingTrim = some m ∨ m.kind = .string ∧ place + 3 < m.stop) ∧
    ∀ m ∈ root.descendants, m.kind = .operator → ∀ place, ¬m.TouchesEnd source place := by
  refine ⟨fun n hn hkind => ?_, fun m hm hkind place h => ?_⟩
  · obtain ⟨depth, number, before, rest, s, r, rfl, rfl⟩ := exists_reading options source hn hkind
    obtain ⟨body, hview⟩ := r.view?_place number (byteLength before)
    have htext : (r.tree.place number (byteLength before)).text = r.tree.source := by
      rw [Node.text, Tree.place_tree, r.text_tree]
    refine ⟨body, r.leading, r.trailing, hview, ?_, ?_, r.stop_le_start _ _,
      fun m hm hchildren place h => r.trailing_of_touchesEnd hm hchildren h⟩
    · rw [htext]
      exact r.leading_iff
    · rw [htext]
      exact r.trailing_iff
  · have hchildren : m.children = [] := by
      rcases (Tree.root_slotted rfl (parse_formed options source)).slots m hm with h | h
      · exact h.2
      · rw [hkind] at h
        cases h with
        | production h => cases h
    obtain ⟨u, number, before, after, rfl, hsplit, hclear⟩ :=
      Tree.exists_of_mem_descendants (parse_everyAt Tree.ofOperators_clearOfEnd options source) hm
    rw [Node.kind_place] at hkind
    rw [Nat.zero_add] at hchildren h
    rw [← source_tree options source, hsplit, ← List.append_nil after] at h
    obtain ⟨hstring, -⟩ := Tree.isString_of_touchesEnd (hclear hkind) hchildren h
    rw [hkind] at hstring
    cases hstring

/-- Hyphens touch both delimiters of a statement, and the minus in front of the last one is an
operator. -/
theorem parse_trims_minus :
    let options : Options := ⟨false, 2, by decide⟩
    let source : Input := ['{', '%', '-', 'i', 'f', ' ', 'a', '-', 'b', '-', '%', '}']
    ∃ n ∈ (parse options source).tree.root.descendants, n.kind = .statement ∧
      (∃ body, n.view? = some (.statement body true true)) ∧
      "\x7b%-".toList <+: n.text ∧ "-%\x7d".toList <:+ n.text := by
  intro options source
  obtain ⟨n, hroot, hkind, htext⟩ : ∃ n, (parse options source).tree.root.children = [n] ∧
      n.kind = .statement ∧ n.text = source := by
    have htree : (parse options source).tree = .node none .sourceFile
        [.node none .statement
          [.leaf (some .openDelimiter) .delimiter [] ['{', '%'],
            .leaf (some .leadingTrim) .trimMarker [] ['-'],
            .node none .ifStatement
              [.leaf none .keyword [] ['i', 'f'],
                .node (some .condition) .binaryOperation
                  [.leaf (some .left) .identifier [' '] ['a'],
                    .leaf (some .operator) .operator [] ['-'],
                    .leaf (some .right) .identifier [] ['b']]],
            .leaf (some .trailingTrim) .trimMarker [] ['-'],
            .leaf (some .closeDelimiter) .delimiter [] ['%', '}']]] := by
      unfold parse ofSteps
      dsimp only
      cbv
    rw [htree]
    exact ⟨_, rfl, rfl, rfl⟩
  have hn := Node.mem_descendants_of_child (Node.mem_descendants_self _)
    (hroot ▸ List.mem_singleton_self n)
  obtain ⟨body, leading, trailing, hview, hleading, htrailing, -⟩ :=
    (parse_trims options source).1 n hn hkind
  rw [htext] at hleading htrailing
  obtain rfl := hleading.2 ⟨source.drop 3, rfl⟩
  obtain rfl := htrailing.2 ⟨source.take 9, rfl⟩
  exact ⟨n, hn, hkind, ⟨body, hview⟩, htext ▸ hleading.1 rfl, htext ▸ htrailing.1 rfl⟩

end Template

end Stencil
