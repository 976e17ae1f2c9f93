import Stencil.Proofs.Yields
import Stencil.Grammar.Markup

/-!
# Blanks in trees

Where blanks may stand in a tree. Every leaf has text, every node has children, and all that stands
between two tokens is blanks. Some tokens touch: those of a comment, and in an element what follows
the end of the opening tag, up to the bracket of the closing tag. `Tree.Spaced` says this of one
tree; `Part.every_spaced` shows it of every tree in what a production yields, provided that the
production asks for tokens with text and gives every node a child, which is computed.
-/

namespace Stencil

/-- Whether blanks may stand between any two children of a node of a kind. -/
def Kind.isLoose : Kind → Bool
  | comment | element => false
  | _ => true

/-- How the children of an element stand. A tag that closes itself ends the element; otherwise the
items of the body and the bracket of the closing tag follow the end of the opening tag, and there
are no blanks before them. -/
inductive Tree.ElementRow : List Tree → Prop
  | selfClosing (tag : List Tree) (stop : Tree) (hstop : stop.text = ['/', '>']) :
    ElementRow (tag ++ [stop])
  | withBody (tag : List Tree) (stop : Tree) (items : List Tree) (bracket name last : Tree)
    (hstop : stop.text = ['>']) (hitems : ∀ t ∈ items, t.kind.isItem = true ∧ t.gap = [])
    (hbracket : bracket.text = ['<', '/'] ∧ bracket.gap = []) :
    ElementRow (tag ++ stop :: (items ++ [bracket, name, last]))

/-- What holds of the blanks in a tree, apart from those in its children. -/
def Tree.Spaced : Tree → Prop
  | leaf _ kind gap text => kind.isLoose = true ∧ (∀ c ∈ gap, isBlank c) ∧ text ≠ []
  | node _ kind ts =>
    ts ≠ [] ∧ (kind = .comment → ∀ t ∈ ts, t.gap = []) ∧ (kind = .element → ElementRow ts)

/-- The field of a tree says nothing about its blanks. -/
theorem Tree.Spaced.under {t : Tree} {f : Option Field} (h : t.Spaced) : (t.under f).Spaced := by
  cases t <;> exact h

/-- A node that demands nothing of the blanks between its children is spaced, if it has a child. -/
theorem Tree.Spaced.of_isLoose {f : Option Field} {kind : Kind} {ts : List Tree}
    (hkind : kind.isLoose = true) (hts : ts ≠ []) : (node f kind ts).Spaced := by
  refine ⟨hts, ?_, ?_⟩
  · rintro rfl
    cases hkind
  · rintro rfl
    cases hkind

mutual

/-- A tree in which every leaf has text and every node a child has characters. -/
theorem Tree.source_ne_nil : ∀ {t : Tree}, t.Every Spaced → t.source ≠ []
  | leaf _ _ gap text, h => by
    have htext : text ≠ [] := h.2.2
    simp [source, htext]
  | node _ _ ts, h => sources_ne_nil h.1.1 h.2

/-- Trees in a row have characters, if there is one and every leaf has text and every node a
child. -/
theorem Tree.sources_ne_nil : ∀ {ts : List Tree}, ts ≠ [] → EveryOf Spaced ts → sources ts ≠ []
  | [], hne, _ => absurd rfl hne
  | t :: ts, _, h => by
    have ht := source_ne_nil h.1
    simp [sources, ht]

end

/-- Behind trees in a row there is less left than there was. -/
theorem Tree.length_lt_of_sources {ts : List Tree} {s rest : Input} (hne : ts ≠ [])
    (h : EveryOf Spaced ts) (hsource : sources ts ++ rest = s) : rest.length < s.length := by
  have hpos := List.length_pos_iff.2 (sources_ne_nil hne h)
  have hlength := congrArg List.length hsource
  rw [List.length_append] at hlength
  omega

/-! ## Tokens -/

/-- Whether what fits a pattern has text. -/
def Pattern.hasText : Pattern → Bool
  | kind k => k ≠ .endOfInput && k ≠ .rawText
  | word _ | closer _ | hyphen => true
  | touching p => p.hasText

/-- A token has text, unless the input ends or it is the body of a raw block. -/
theorem Token.text_ne_nil {mode : Mode} {s : Input} {t : Token} (h : scan mode s = .ok t)
    (hend : t.kind ≠ .endOfInput) (hraw : t.kind ≠ .rawText) : t.text ≠ [] := by
  have blanks : ∀ {scan : Input → Except Cause Token} {s : Input} {t : Token},
      (∀ {s t}, scan s = .ok t → t.kind ≠ .endOfInput → t.text ≠ []) →
      afterBlanks scan s = .ok t → t.kind ≠ .endOfInput → t.text ≠ [] := by
    intro scan s t hscan h hend
    obtain ⟨next, hnext, rfl⟩ := afterBlanks_eq_ok.1 h
    exact @hscan _ next hnext hend
  cases mode with
  | text =>
    cases h
    refine scanText_text_ne_nil fun hs => hend ?_
    rw [hs]
    rfl
  | comment =>
    cases h
    refine scanComment_text_ne_nil fun hs => hend ?_
    rw [hs]
    rfl
  | raw =>
    cases h
    exact absurd rfl hraw
  | code | operand => exact blanks scanCode_text_ne_nil h hend
  | tag => exact blanks scanTag_text_ne_nil h hend
  | operator =>
    -- The token is the first one of code, or two words of which it is the first.
    cases scanOperator_eq_ok.1 h with
    | single hfirst => exact blanks scanCode_text_ne_nil hfirst hend
    | notIn _ hnot => simp [(isWord_iff.1 hnot).2]

/-- What fits a pattern that asks for text has text. -/
theorem Pattern.take?_ne_nil {mode : Mode} {s : Input} {next taken : Token} {p : Pattern}
    (hscan : Token.scan mode s = .ok next) (hp : p.hasText = true)
    (h : p.take? next = some taken) : taken.text ≠ [] := by
  induction p with
  | kind k =>
    simp only [take?] at h
    split at h
    · rename_i hk
      cases h
      simp only [hasText, Bool.and_eq_true, decide_eq_true_eq] at hp
      exact Token.text_ne_nil hscan (hk ▸ hp.1) (hk ▸ hp.2)
    · cases h
  | word w =>
    simp only [take?] at h
    split at h
    · rename_i hw
      obtain rfl := Option.some.inj h
      have hk : next.kind = .word := by simp_all [Token.isWord]
      exact Token.text_ne_nil hscan (by simp [hk]) (by simp [hk])
    · cases h
  | closer b =>
    simp only [take?] at h
    split at h
    · cases h
    · split at h
      · cases h
        exact List.cons_ne_nil _ _
      · cases h
  | hyphen =>
    simp only [take?] at h
    split at h
    · rename_i hk
      cases h
      rcases hk with hk | hk <;> exact Token.text_ne_nil hscan (by simp [hk]) (by simp [hk])
    · cases h
  | touching p ih =>
    simp only [take?] at h
    split at h
    · exact ih hp h
    · cases h

namespace Terminal

/-- A leaf is spaced, if its terminal asks for text. -/
theorem Leaf.spaced {t : Terminal} {leaf : Tree} (hkind : t.kind.isLoose = true)
    (ht : t.pattern.hasText = true) (h : t.Leaf leaf) : leaf.Spaced := by
  obtain ⟨s, next, taken, hscan, htake, rfl⟩ := h
  refine ⟨hkind, ?_, Pattern.take?_ne_nil hscan ht htake⟩
  rw [(Pattern.take?_start htake).1]
  exact Token.isBlank_of_mem_gap hscan

/-- No blanks stand before a leaf that is read as text. -/
theorem Leaf.gap_eq_nil {t : Terminal} {leaf : Tree} (ht : t.mode = .text) (h : t.Leaf leaf) :
    leaf.gap = [] := by
  obtain ⟨s, next, taken, hscan, htake, rfl⟩ := h
  show taken.gap = []
  rw [(Pattern.take?_start htake).1]
  rw [ht] at hscan
  cases hscan
  exact Token.scanText_gap s

end Terminal

/-! ## Productions -/

namespace Part

mutual

/-- Whether a part stands for one tree at least. -/
def isPresent : Part → Bool
  | token _ | .operand _ _ | callee | node _ _ _ | enclosed _ _ _ _ | refuse _ => true
  | choice _ yes no => anyPresent yes && anyPresent no
  | repeated _ _ => false

/-- Whether a production stands for one tree at least. -/
def anyPresent : List Part → Bool
  | [] => false
  | p :: ps => p.isPresent || anyPresent ps

end

mutual

/-- Whether every token of a part has text and every node has a child. Comments and elements are
not made of parts. -/
def isSolid : Part → Bool
  | token t => t.kind.isLoose && t.pattern.hasText
  | .operand _ _ | callee | refuse _ => true
  | node _ kind parts => kind.isLoose && anyPresent parts && allSolid parts
  | enclosed _ kind opening parts =>
    kind.isLoose && opening.kind.isLoose && opening.pattern.hasText && allSolid parts
  | choice _ yes no => allSolid yes && allSolid no
  | repeated _ parts => allSolid parts

/-- Whether every token of a production has text and every node has a child. -/
def allSolid : List Part → Bool
  | [] => true
  | p :: ps => p.isSolid && allSolid ps

end

variable {E : Extent → Tree → Prop}

mutual

/-- A part that stands for one tree at least yields one. -/
theorem ne_nil_of_isPresent : ∀ (p : Part) {ts : List Tree}, p.isPresent = true → p.Yields E ts →
    ts ≠ []
  | token _, ts, _, ⟨leaf, _, h⟩ => by simp [h]
  | .operand _ _, ts, _, ⟨t, _, h⟩ => by simp [h]
  | callee, ts, _, ⟨t, _, h⟩ => by
    rw [h]
    unfold splitCall
    split <;> exact List.cons_ne_nil _ _
  | node _ _ _, ts, _, ⟨inner, _, h⟩ => by simp [h]
  | enclosed _ _ _ _, ts, _, ⟨first, inner, _, _, h⟩ => by simp [h]
  | choice _ yes no, ts, hp, h => by
    simp only [isPresent, Bool.and_eq_true] at hp
    rcases h with h | h
    · exact ne_nil_of_anyPresent yes hp.1 h
    · exact ne_nil_of_anyPresent no hp.2 h

/-- A production that stands for one tree at least yields one. -/
theorem ne_nil_of_anyPresent : ∀ (ps : List Part) {ts : List Tree}, anyPresent ps = true →
    YieldsAll E ps ts → ts ≠ []
  | p :: ps, ts, hp, ⟨first, more, hfirst, hmore, h⟩ => by
    simp only [anyPresent, Bool.or_eq_true] at hp
    rw [h]
    rcases hp with hp | hp
    · simp [ne_nil_of_isPresent p hp hfirst]
    · simp [ne_nil_of_anyPresent ps hp hmore]

end

/-- What holds of every tree in an expression holds of every tree in what a call statement makes of
it. -/
theorem every_splitCall {P : Tree → Prop} (hP : ∀ {t f}, P t → P (t.under f)) {t : Tree}
    (h : t.Every P) : Tree.EveryOf P (splitCall t) := by
  unfold splitCall
  split
  · obtain ⟨_, hfunction, harguments, _⟩ := h
    exact ⟨hfunction.under hP _, harguments.under hP _, trivial⟩
  · exact ⟨h.under hP _, trivial⟩

mutual

/-- The trees of a solid part are spaced, if operands are. -/
theorem every_spaced (hE : ∀ {extent t}, E extent t → t.Every Tree.Spaced) :
    ∀ (p : Part) {ts : List Tree}, p.isSolid = true → p.Yields E ts → Tree.EveryOf Tree.Spaced ts
  | token t, ts, hp, ⟨leaf, hleaf, h⟩ => by
    subst h
    simp only [isSolid, Bool.and_eq_true] at hp
    have hspaced := hleaf.spaced hp.1 hp.2
    obtain ⟨gap, text, rfl⟩ := hleaf.eq
    exact ⟨hspaced, trivial⟩
  | .operand field _, ts, _, ⟨t, ht, h⟩ => by
    subst h
    exact ⟨(hE ht).under Tree.Spaced.under field, trivial⟩
  | callee, ts, _, ⟨t, ht, h⟩ => by
    subst h
    exact every_splitCall Tree.Spaced.under (hE ht)
  | node _ kind parts, ts, hp, ⟨inner, hinner, h⟩ => by
    subst h
    simp only [isSolid, Bool.and_eq_true] at hp
    obtain ⟨⟨hkind, hpresent⟩, hsolid⟩ := hp
    have hne := ne_nil_of_anyPresent parts hpresent hinner
    have hall := everyOf_spaced hE parts hsolid hinner
    exact ⟨⟨.of_isLoose hkind hne, hall⟩, trivial⟩
  | enclosed _ kind opening parts, ts, hp, ⟨first, inner, hfirst, hinner, h⟩ => by
    subst h
    simp only [isSolid, Bool.and_eq_true] at hp
    obtain ⟨⟨⟨hkind, hloose⟩, htext⟩, hsolid⟩ := hp
    have hspaced := hfirst.spaced hloose htext
    obtain ⟨gap, text, rfl⟩ := hfirst.eq
    have hall := everyOf_spaced hE parts hsolid hinner
    exact ⟨⟨.of_isLoose hkind (List.cons_ne_nil _ _), hspaced, hall⟩, trivial⟩
  | choice _ yes no, ts, hp, h => by
    simp only [isSolid, Bool.and_eq_true] at hp
    rcases h with h | h
    · exact everyOf_spaced hE yes hp.1 h
    · exact everyOf_spaced hE no hp.2 h
  | repeated _ parts, ts, hp, ⟨rounds, hrounds, h⟩ => by
    subst h
    refine Tree.everyOf_iff.2 fun t ht => ?_
    obtain ⟨round, hround, ht⟩ := List.mem_flatten.1 ht
    exact Tree.everyOf_iff.1 (everyOf_spaced hE parts hp (hrounds round hround)) t ht

/-- The trees of a solid production are spaced, if operands are. -/
theorem everyOf_spaced (hE : ∀ {extent t}, E extent t → t.Every Tree.Spaced) :
    ∀ (ps : List Part) {ts : List Tree}, allSolid ps = true → YieldsAll E ps ts →
      Tree.EveryOf Tree.Spaced ts
  | [], ts, _, h => by
    obtain rfl : ts = [] := h
    exact trivial
  | p :: ps, ts, hp, ⟨first, more, hfirst, hmore, h⟩ => by
    subst h
    simp only [allSolid, Bool.and_eq_true] at hp
    exact Tree.everyOf_append.2
      ⟨every_spaced hE p hp.1 hfirst, everyOf_spaced hE ps hp.2 hmore⟩

end

end Part

end Stencil
