import Stencil.Proofs.Literals
import Stencil.Proofs.RoundTrip
import Stencil.Proofs.Substitution

/-!
# Strings read back

A string is written between quotes with a backslash before every quote of its own kind
(`Quotation.write`). Every string in a template is written so, and what is written of a string that
does not end with a backslash is read as the string: where a backslash comes last, it would escape
the closing quote. Reading looks for the closing quote and the value of a string is taken from its
text by itself, and the two agree because both follow what is written
(`Quotation.close?_eq_some_iff`, `Quotation.value_write`). The main statement is
`Template.parse_quoted`.
-/

namespace Stencil

/-- The characters between which a string may stand. -/
def IsQuote (q : Char) : Prop := q = '"' ∨ q = '\''

/-- A backslash is no quote. -/
theorem IsQuote.ne_backslash {q : Char} (h : IsQuote q) : q ≠ '\\' := by
  rintro rfl
  rcases h with h | h <;> cases h

namespace Quotation

variable {q : Char}

/-- What is written of a string between quotes `q`. -/
def write (q : Char) (v : List Char) : List Char := q :: (escape q v ++ [q])

/-- No quote comes first in what is written of some characters: a backslash goes before it. -/
theorem head?_escape_ne (hq : q ≠ '\\') (v : List Char) : (escape q v).head? ≠ some q := by
  cases v with
  | nil => nofun
  | cons c v =>
    by_cases hc : c = q
    · simpa [escape, hc] using hq.symm
    · simp [escape, hc]

/-- The characters before the last one do not make it another. -/
theorem getLast?_ne_of_cons {c d : Char} {v : List Char} (h : (c :: v).getLast? ≠ some d) :
    v.getLast? ≠ some d := by
  cases v with
  | nil => nofun
  | cons e v => rwa [List.getLast?_cons_cons] at h

/-- The quote that closes what is written of a string is found, if no backslash is before it. -/
theorem close?_escape (hq : q ≠ '\\') {v : List Char} (hv : v.getLast? ≠ some '\\')
    (rest : Input) : close? q (escape q v ++ q :: rest) = some (escape q v ++ [q], rest) := by
  induction v with
  | nil =>
    rw [escape, List.nil_append, close?, if_pos rfl]
    · rfl
    · exact fun _ _ hslash => absurd hslash hq
  | cons c v ih =>
    have ih := ih (getLast?_ne_of_cons hv)
    by_cases hc : c = q
    · subst hc
      simp [escape, close?, ih]
    · rw [escape, if_neg hc, List.cons_append, List.cons_append]
      by_cases hslash : c = '\\'
      · -- The backslash stands for itself, because what comes after it is no quote.
        subst hslash
        obtain ⟨d, more, hmore⟩ : ∃ d more, escape q v = d :: more := by
          cases v with
          | nil => exact absurd rfl hv
          | cons d v =>
            by_cases hd : d = q
            · exact ⟨_, _, if_pos hd⟩
            · exact ⟨_, _, if_neg hd⟩
        have hd : d ≠ q := by
          have hhead := head?_escape_ne hq v
          rw [hmore] at hhead
          simpa using hhead
        rw [hmore] at ih ⊢
        rw [List.cons_append] at ih ⊢
        rw [close?, if_neg hd, ih]
        rfl
      · rw [close?, if_neg hc, ih]
        · rfl
        · exact fun _ _ h => absurd h hslash

/-- The text up to the quote that closes a string is what is written of one. -/
theorem exists_escape_of_close? (hq : q ≠ '\\') {s text rest : List Char}
    (h : close? q s = some (text, rest)) :
    ∃ v, v.getLast? ≠ some '\\' ∧ text = escape q v ++ [q] := by
  fun_induction close? q s generalizing text rest with
  | case1 => cases h
  | case2 s ih =>
    obtain ⟨⟨text', rest'⟩, h', he⟩ := Option.map_eq_some_iff.1 h
    cases he
    obtain ⟨v, hv, rfl⟩ := ih h'
    refine ⟨q :: v, ?_, by simp [escape]⟩
    cases v with
    | nil => simpa using hq
    | cons d v => rwa [List.getLast?_cons_cons]
  | case3 c s hc ih =>
    obtain ⟨⟨text', rest'⟩, h', he⟩ := Option.map_eq_some_iff.1 h
    cases he
    obtain ⟨v, hv, rfl⟩ := ih h'
    refine ⟨'\\' :: v, ?_, by simp [escape, hq.symm]⟩
    cases v with
    | nil =>
      -- The next character would be the closing quote.
      have happend := close?_append h'
      exact absurd (List.cons_eq_cons.1 happend).1.symm hc
    | cons d v => rwa [List.getLast?_cons_cons]
  | case4 s =>
    cases h
    exact ⟨[], by simp, rfl⟩
  | case5 c s hslash hc ih =>
    obtain ⟨⟨text', rest'⟩, h', he⟩ := Option.map_eq_some_iff.1 h
    cases he
    obtain ⟨v, hv, rfl⟩ := ih h'
    refine ⟨c :: v, ?_, by simp [escape, hc]⟩
    cases v with
    | nil =>
      -- A backslash before the closing quote would escape it.
      have happend := close?_append h'
      intro hlast
      exact hslash q _ (by simpa using hlast) happend.symm
    | cons d v => rwa [List.getLast?_cons_cons]

/-- A string is closed where what is written of some characters ends, the last of which is no
backslash. -/
theorem close?_eq_some_iff (hq : q ≠ '\\') {s text rest : List Char} :
    close? q s = some (text, rest) ↔
      ∃ v, v.getLast? ≠ some '\\' ∧ text = escape q v ++ [q] ∧ s = text ++ rest := by
  constructor
  · intro h
    obtain ⟨v, hv, htext⟩ := exists_escape_of_close? hq h
    exact ⟨v, hv, htext, (close?_append h).symm⟩
  · rintro ⟨v, hv, rfl, rfl⟩
    rw [List.append_assoc]
    exact close?_escape hq hv rest

/-- The value of what is written of a string is the string. -/
theorem value_write (hq : q ≠ '\\') (v : List Char) : value (write q v) = v := by
  rw [write, value, List.dropLast_concat, unescape_escape hq]

/-- What is written of a string is one token, if the string does not end with a backslash. -/
theorem isWhole_write (hq : IsQuote q) {v : List Char} (hv : v.getLast? ≠ some '\\') :
    Token.IsWhole true .quoted (write q v) := by
  refine ⟨List.cons_ne_nil _ _, ?_⟩
  rw [write, Token.scanCode_quote hq, scan?, close?_escape hq.ne_backslash hv]
  rfl

end Quotation

/-! ## Tokens -/

/-- A token that is a string is what is written of one. -/
theorem Token.Spells.exists_write {text : List Char} (h : Spells .quoted text) :
    ∃ q v, IsQuote q ∧ text = Quotation.write q v := by
  have hwritten : Written .quoted text := by
    rcases h.exists_scan (.inl rfl) with ⟨operand, s, t, hscan, hkind, rfl⟩ | ⟨-, hwritten⟩
    · exact hkind ▸ scanCode_written hscan
    · exact hwritten
  cases hwritten with
  | number hkind => rcases hkind with hkind | hkind <;> cases hkind
  | quoted hq hclose =>
    obtain ⟨v, -, rfl⟩ := Quotation.exists_escape_of_close? (IsQuote.ne_backslash hq) hclose
    exact ⟨_, v, hq, rfl⟩
  | symbol h =>
    have hnone : .quoted ∉ symbols.map Prod.snd := by decide
    exact absurd (List.mem_map_of_mem h) hnone

/-- The view of a string tells what is written in it. -/
theorem Node.view?_string {n : Node} {q : Char} {v : List Char} (hkind : n.kind = .string)
    (hq : IsQuote q) (htext : n.text = Quotation.write q v) : n.view? = some (.string v) := by
  rw [view?, hkind, htext]
  simp [Quotation.value_write hq.ne_backslash]

/-! ## Templates -/

namespace Template

/-- Every string of a template stands where what is written of its value does. What is written of a
string that does not end with a backslash is read without faults, as the one string of a value, and
its value is the string again. -/
theorem parse_quoted :
    (∀ options source, ∀ n ∈ (parse options source).tree.root.descendants, n.kind = .string →
      ∃ q v, IsQuote q ∧ n.view? = some (.string v) ∧
        Between source n.start n.stop (Quotation.write q v)) ∧
    ∀ options q v, IsQuote q → v.getLast? ≠ some '\\' →
      let template := parse options (Hole.value.fill (Quotation.write q v))
      template.errors = [] ∧ ∃ n, template.tree.root.HoldsValue n ∧
        n.view? = some (.string v) ∧
        template.tree.root.descendants.filter (fun m => m.kind = .string) = [n] := by
  refine ⟨fun options source n hn hkind => ?_, fun options q v hq hv => ?_⟩
  · have hliteral : n.kind.literal? = some .quoted := by rw [hkind]; rfl
    obtain ⟨hbetween, hspells⟩ := parse_spelled options source hn hliteral
    obtain ⟨q, v, hq, htext⟩ := hspells.exists_write
    exact ⟨q, v, hq, Node.view?_string hkind hq htext, htext ▸ hbetween⟩
  · intro template
    have hcanonical : Canonical .any (.leaf none .string [' '] (Quotation.write q v)) :=
      .tight (.literal (.string (Quotation.isWhole_write hq hv)))
    have hread := Part.read_value hcanonical options.maxDepth_pos "`\x7b\x7b`"
    have hsource : (Tree.leaf none .string [' '] (Quotation.write q v)).value.source =
        '{' :: '{' :: ' ' :: (Quotation.write q v ++ [' ', '}', '}']) := by
      simp [Tree.value, Tree.source, Tree.sources, Tree.under]
    rw [hsource, ← Markup.item_value false] at hread
    obtain ⟨herrors, htree⟩ : template.errors = [] ∧ template.tree = .node none .sourceFile
        [(Tree.leaf none .string [' '] (Quotation.write q v)).value] :=
      parse_of_item (List.cons_ne_nil _ _) hread
    refine ⟨herrors, ((Tree.leaf (some .expression) .string [' '] (Quotation.write q v)).place 1 2),
      ?_, ?_, ?_⟩
    · rw [htree]
      exact ⟨_, rfl, rfl⟩
    · exact Node.view?_string rfl hq rfl
    · rw [htree]
      rfl

/-- An apostrophe between single quotes is written with a backslash before it. -/
theorem parse_quoted_apostrophe :
    let options : Options := ⟨false, 1, by decide⟩
    let v : List Char := ['i', 't', '\'', 's']
    let template := parse options (Hole.value.fill ['\'', 'i', 't', '\\', '\'', 's', '\''])
    template.errors = [] ∧ ∃ n ∈ template.tree.root.descendants, n.kind = .string ∧
      n.view? = some (.string v) ∧ ∃ q v, IsQuote q ∧ n.view? = some (.string v) ∧
        Between (Hole.value.fill ['\'', 'i', 't', '\\', '\'', 's', '\'']) n.start n.stop
          (Quotation.write q v) := by
  intro options v template
  obtain ⟨hclean, n, -, hview, hone⟩ :=
    parse_quoted.2 options '\'' v (.inr rfl) (by decide)
  have hmem : n ∈ template.tree.root.descendants.filter fun m => m.kind = .string :=
    hone ▸ List.mem_singleton_self n
  obtain ⟨hn, hkind⟩ := List.mem_filter.1 hmem
  have hkind := of_decide_eq_true hkind
  exact ⟨hclean, n, hn, hkind, hview, parse_quoted.1 options _ n hn hkind⟩

end Template

end Stencil
