import Stencil.Proofs.Tiling
import Stencil.Proofs.Views

/-!
# How literals are written

The strings and numbers in a tree are tokens, and what a literal means is told from its text. Which
text that may be follows from how tokens are read (`Token.Spells`). In an expression a literal is
its first token, and outside of expressions only strings stand, so that every literal in a template
is written as a token of its kind (`Template.parse_spelled`).
-/

namespace Stencil

/-- Some input is read into a token of a kind that has some text. -/
def Token.Spells (kind : TokenKind) (text : List Char) : Prop :=
  ∃ mode s t, scan mode s = .ok t ∧ t.kind = kind ∧ t.text = text

/-- A token of a tag that is a literal is a string, and written as in code. -/
theorem Token.scanTag_literal {s : Input} {t : Token} (h : scanTag s = .ok t)
    (hkind : t.kind = .quoted ∨ t.kind = .integer ∨ t.kind = .float) :
    t.kind = .quoted ∧ Written .quoted t.text := by
  unfold scanTag at h
  split at h
  case h_6 c s _ _ _ _ =>
    split at h
    · rename_i hquote
      split at h
      · rename_i hscan
        cases h
        obtain ⟨_, hclose, rfl⟩ := Option.map_eq_some_iff.1 hscan
        exact ⟨rfl, .quoted (by simpa using hquote) (Quotation.close?_text hclose)⟩
      · cases h
    · split at h
      · cases h
        simp at hkind
      · cases h
  all_goals
    cases h
    simp [atEnd] at hkind

/-- A literal is a token of code, or a string in a tag. -/
theorem Token.Spells.exists_scan {k : TokenKind} {text : List Char} (h : Spells k text)
    (hk : k = .quoted ∨ k = .integer ∨ k = .float) :
    (∃ operand s t, scanCode operand s = .ok t ∧ t.kind = k ∧ t.text = text) ∨
      k = .quoted ∧ Written .quoted text := by
  obtain ⟨mode, s, t, hscan, rfl, rfl⟩ := h
  have hcode : ∀ {operand}, afterBlanks (scanCode operand) s = .ok t →
      ∃ operand s next, scanCode operand s = .ok next ∧ next.kind = t.kind ∧
        next.text = t.text := by
    intro operand h
    obtain ⟨next, hnext, hkind, htext⟩ := exists_scan_of_afterBlanks h
    exact ⟨operand, _, next, hnext, hkind.symm, htext.symm⟩
  cases mode with
  | text =>
    cases hscan
    unfold scanText at hk
    split at hk <;> simp [atEnd] at hk
  | comment =>
    cases hscan
    unfold scanComment at hk
    split at hk <;> simp [atEnd] at hk
  | raw =>
    cases hscan
    simp [scanRaw] at hk
  | code | operand => exact .inl (hcode hscan)
  | operator =>
    cases scanOperator_eq_ok.1 hscan with
    | single hfirst => exact .inl (hcode hfirst)
    | notIn => simp at hk
  | tag =>
    obtain ⟨next, hnext, hkind, htext⟩ := exists_scan_of_afterBlanks hscan
    rw [hkind] at hk ⊢
    rw [htext]
    exact .inr (scanTag_literal hnext hk)

/-- What holds of a literal that is a token: it is written as one. -/
def Tree.Spelled : Tree → Prop
  | leaf _ kind _ text => ∀ k, kind.literal? = some k → Token.Spells k text
  | node .. => True

/-- Only expressions have literals that might not be written as tokens. -/
theorem Tree.spelled_ordinary : Ordinary Spelled where
  under {t f} h := by cases t <;> exact h
  leaf hkind _ hliteral := by rw [hkind] at hliteral; cases hliteral
  string {mode s next} _ hscan hquoted _ hliteral := by
    cases hliteral
    exact ⟨mode, s, next, hscan, hquoted, rfl⟩
  node _ := trivial

/-! ## Expressions -/

/-- A token that is a literal by itself is of the kind that such literals are. -/
theorem Primary.kind_of_literal? {t : Token} {kind : Kind} {k : TokenKind}
    (h : of? t = some (.leaf kind)) (hliteral : kind.literal? = some k) : t.kind = k := by
  unfold of? at h
  repeat' split at h
  all_goals cases h
  all_goals cases hliteral
  all_goals assumption

section Expressions

variable {operand : Extent → Parser Tree} {s rest : Input}

/-- The literals in a primary are written as tokens, if those in operands are. -/
theorem Primary.read_spelled {t : Tree}
    (ho : ∀ {extent s t rest}, operand extent s = .ok (t, rest) → t.Every Tree.Spelled)
    (h : read operand s = .ok (t, rest)) : t.Every Tree.Spelled := by
  rcases read_yields (E := fun _ t => t.Every Tree.Spelled) ho h with
    ⟨next, kind, hscan, hform, rfl⟩ | ⟨next, kind, parts, hform, hyields⟩
  · exact fun k hk => ⟨.operand, s, next, hscan, kind_of_literal? hform hk, rfl⟩
  · -- Lists, dictionaries and operators have no tokens that are literals.
    have hterminals : (Part.node none kind parts).terminals.all Terminal.isOrdinary = true := by
      rcases of?_eq_node hform with h | h | ⟨h, -⟩
      · cases h
        decide
      · cases h
        decide
      · cases h
        rfl
    exact (Part.every_of_yields Tree.spelled_ordinary.under (fun h => h) (.node none kind parts)
      (fun t ht _ hleaf => hleaf.ordinary Tree.spelled_ordinary
        (List.all_eq_true.1 hterminals t ht))
      (fun _ _ _ _ => trivial) hyields).1

/-- The literals in an expression that a tail extends are written as tokens, if those in operands
and in the expression are. -/
theorem Tail.attach_spelled {extent : Extent} {tail : Tail Tree} {t : Tree}
    (ho : ∀ {extent s t rest}, operand extent s = .ok (t, rest) → t.Every Tree.Spelled)
    (h : read operand extent s = .ok (some tail, rest)) (ht : t.Every Tree.Spelled) :
    (attach t tail).Every Tree.Spelled := by
  obtain ⟨next, form, -, -, hof, -, -, hyields⟩ :=
    read_yields (E := fun _ t => t.Every Tree.Spelled) ho h
  -- No token behind an operand is a literal.
  have hterminals : (Part.terminalsOf form.more).all Terminal.isOrdinary = true := by
    rcases of?_eq_some hof with ⟨rfl, -⟩ | ⟨rfl, -⟩ | ⟨rfl, -⟩ | ⟨rfl, -⟩ | ⟨rfl, -⟩
    · decide
    · decide
    · decide
    · rfl
    · rfl
  have hmore := Part.everyOf_of_yields Tree.spelled_ordinary.under (fun h => h) form.more
    (fun t ht _ hleaf => hleaf.ordinary Tree.spelled_ordinary
      (List.all_eq_true.1 hterminals t ht))
    (fun _ _ _ _ => trivial) hyields
  exact ⟨trivial, ht.under Tree.spelled_ordinary.under _, hmore⟩

end Expressions

/-! ## Templates -/

/-- The nodes of literals are tokens: no production makes them of parts. -/
theorem Schema.literal?_eq_none {kind : Kind} {ts : List Tree} (h : Schema kind ts) :
    kind.literal? = none := by
  have hnone : ∀ kind ∈ Kind.all, kind.literal? ≠ none → kind.productions.isEmpty = true := by
    decide
  cases h with
  | production hparts =>
    by_contra hliteral
    rw [List.isEmpty_iff.1 (hnone kind kind.mem_all hliteral)] at hparts
    cases hparts
  | _ => rfl

namespace Template

/-- A literal of a template stands where its text does, and this is that of a token of its kind. -/
theorem parse_spelled (options : Options) (source : Input) {n : Node}
    (hn : n ∈ (parse options source).tree.root.descendants) {k : TokenKind}
    (hk : n.kind.literal? = some k) :
    Between source n.start n.stop n.text ∧ Token.Spells k n.text := by
  have hbetween : Between source n.start n.stop n.text := by
    obtain ⟨items, htree, hitems, hsource⟩ := parse_items options source
    rw [htree] at hn
    rw [← hsource]
    exact ((Tree.root_lossless hitems).laid n hn).text
  refine ⟨hbetween, ?_⟩
  obtain ⟨u, number, before, after, rfl, -, hevery⟩ := Tree.mem_descendants_place hn
  have hspelled := (hevery _ (parse_ordinary Tree.spelled_ordinary
    (expression_induction Primary.read_spelled Tail.attach_spelled _) options source)).here
  have hformed := (hevery _ (parse_formed options source)).here
  rw [Node.kind, Tree.place_tree] at hk
  rw [Node.text, Tree.place_tree]
  cases u with
  | leaf f kind gap text =>
    rw [Tree.text, Tree.source, Tree.gap, List.drop_left]
    exact hspelled k hk
  | node f kind ts =>
    rw [Tree.kind, hformed.literal?_eq_none] at hk
    cases hk

end Template

end Stencil
