import Stencil.Proofs.Endings
import Stencil.Proofs.Grouping

/-!
# Where targets and operands end

The target of a loop and the operand of an operator go on through no word, so that they end before
every word but `not` too (`Edge`). There other tokens may be read than where expressions end: the
word `in` goes on with the words `not` before it. But it does so only where the word is an operator,
and in a target or an operand that stands in brackets alone, so that the bracket comes between
(`Enclosed`). Hence what lies behind a target or an operand may be replaced by what lies behind
another (`expression_replace_edge`).
-/

namespace Stencil

open Stencil.Parser (Respaces)

variable {s s' rest rest' : Input}

/-! ## Places at which targets and operands end -/

/-- Whether targets and operands end here: a blank comes first, and then a word, or another token
that extends no expression. The word is not `not`. -/
structure Edge (s : Input) : Prop where
  breaks : Token.Breaks s
  next : ∃ t, Token.scan .code s = .ok t ∧ (t.kind = .word ∨ Tail.of? t = none) ∧
    t.isWord "not" = false

namespace Edge

/-- Targets and operands end before blanks and a word that is not `not`. -/
theorem of_word {b : List Char} (hb : IsGap b) {t : Token}
    (hscan : Token.scanCode false s = .ok t) (hword : t.kind = .word)
    (hnot : t.isWord "not" = false) : Edge (b ++ s) := by
  obtain ⟨c, more, rfl⟩ := List.exists_cons_of_ne_nil hb.1
  have hc := not_isPlain_of_isBlank (hb.2 c List.mem_cons_self)
  exact ⟨⟨c, more ++ s, rfl, hc⟩, _, Token.afterBlanks_gap hb.2 hscan, .inl hword, hnot⟩

/-- No tail of a target or an operand comes next where they end. -/
theorem next?_none (h : Edge s) {extent : Extent} (he : extent ≠ .whole) :
    ∃ t, Token.scan (Tail.mode extent) s = .ok t ∧ Tail.next? extent t = none := by
  obtain ⟨t, hscan, hend, hnot⟩ := h.next
  have hnone : Tail.next? extent t = none := by
    rcases hend with hword | hnone
    · have hadmits : Tail.admits extent t = false := by
        cases extent with
        | whole => exact absurd rfl he
        | target | operand => simp [Tail.admits, hword]
      simp [Tail.next?, hadmits]
    · rw [Tail.next?, hnone]
      exact ite_self _
  cases extent with
  | whole => exact absurd rfl he
  | target => exact ⟨t, hscan, hnone⟩
  | operand =>
    refine ⟨t, Token.scanOperator_eq_ok.2 (.single hscan fun h => ?_), hnone⟩
    rw [hnot] at h
    cases h

end Edge

/-- Targets and operands end where every expression does. -/
theorem Halts.edge (h : Halts s) : Edge s := by
  obtain ⟨t, hscan, hend⟩ := h.next
  exact ⟨h.breaks, t, hscan, .inr hend.tail, hend.other⟩

/-- Whether two inputs go on to places at which targets and operands end, or are at such places. -/
def Facing (s s' : Input) : Prop := Pending Edge s s' ∨ Edge s ∧ Edge s'

/-- In inputs that go on to places at which targets and operands end the tokens are the same that
are no operators. -/
theorem guides_edge : Guides (Pending Edge) Facing [.code, .operand] where
  spaced mode hmode := by
    have hmodes : ∀ mode ∈ [Mode.code, .operand], mode ∈ Token.spacedModes := by decide
    exact hmodes mode hmode
  nonempty _ _ := Pending.ne_nil fun _ => Edge.breaks
  append _ _ _ _ := Pending.append
  scan mode s s' t hmode hs h := by
    have blanks : ∀ {operand : Bool}, Token.afterBlanks (Token.scanCode operand) s = .ok t →
        ∃ t', Token.afterBlanks (Token.scanCode operand) s' = .ok t' ∧ t.Alike t' := by
      intro operand h
      obtain ⟨t', ht', halike, -⟩ := hs.afterBlanks (fun _ => Edge.breaks) h
      exact ⟨t', ht', halike⟩
    simp only [List.mem_cons, List.not_mem_nil, or_false] at hmode
    rcases hmode with rfl | rfl
    · exact blanks h
    · exact blanks h

/-! ## Between brackets -/

/-- Whether text holds a closing bracket and does not end with a blank. -/
structure HoldsCloser (text : List Char) : Prop where
  mem : ∃ b : Bracket, b.closer ∈ text
  trimmed : Trimmed text

/-- Text holds what its end does. -/
theorem HoldsCloser.mono ⦃rest s : Input⦄ (h : HoldsCloser rest) (hs : rest <:+ s) :
    HoldsCloser s := by
  obtain ⟨⟨b, hb⟩, htrimmed⟩ := h
  obtain ⟨text, rfl⟩ := hs
  exact ⟨⟨b, List.mem_append_right text hb⟩, htrimmed.append_left text⟩

/-- Whether two inputs begin with similar runs that hold a closing bracket, and targets and operands
end behind both. -/
def Enclosed (s s' : Input) : Prop :=
  ∃ u u' y y', s = u ++ y ∧ s' = u' ++ y' ∧ Similar u u' ∧ HoldsCloser u ∧ HoldsCloser u' ∧
    Edge y ∧ Edge y'

/-- The closing bracket of text comes behind the words in it. -/
theorem Bracket.closer_mem_rest {b : Bracket} {u text v : List Char} (hb : b.closer ∈ u)
    (hstart : u.dropWhile isBlank = text ++ v) (htext : ∀ c ∈ text, isWordChar c = true) :
    b.closer ∈ v := by
  have hblank : isBlank b.closer = false := by cases b <;> rfl
  have hmem : b.closer ∈ text ++ v := hstart ▸ mem_dropWhile_of_not hb hblank
  refine (List.mem_append.1 hmem).resolve_left fun hword => ?_
  have hchar := htext _ hword
  cases b <;> cases hchar

/-- In inputs whose brackets are still to be closed the same tokens are read. -/
theorem tracks_enclosed : Tracks Enclosed where
  symm s s' := by
    rintro ⟨u, u', y, y', hu, hu', hsimilar, hcloser, hcloser', hy, hy'⟩
    exact ⟨u', u, y', y, hu', hu, hsimilar.symm, hcloser', hcloser, hy', hy⟩
  afterBlanks operand s s' t := by
    rintro ⟨u, u', y, y', rfl, rfl, hu, ⟨⟨b, hb⟩, htrimmed⟩, ⟨⟨b', hb'⟩, -⟩, hy, hy'⟩ h
    obtain ⟨t', v, v', ht', halike, hrest, hrest', hv, hsuffix, hstart, hstart'⟩ :=
      Token.afterBlanks_trimmed hu htrimmed hy.breaks hy'.breaks h
    refine ⟨t', ht', halike, fun hword => .inl ?_⟩
    have hchars : ∀ c ∈ t.text, isWordChar c = true := by
      obtain ⟨next, hnext, hkind, htext⟩ := Token.exists_scan_of_afterBlanks h
      rw [htext]
      exact (Token.scanCode_text hnext).1 (hkind ▸ hword)
    have hmem := Bracket.closer_mem_rest hb hstart hchars
    have hmem' := Bracket.closer_mem_rest hb' hstart' hchars
    have htrimmed := hsuffix (List.ne_nil_of_mem hmem)
    rw [hrest, hrest']
    exact ⟨v, v', y, y', rfl, rfl, hv, ⟨⟨b, hmem⟩, htrimmed⟩,
      ⟨⟨b', hmem'⟩, hv.trimmed htrimmed⟩, hy, hy'⟩

/-- Inputs whose brackets are still to be closed are so behind an expression too. -/
theorem frames_enclosed : Frames Enclosed Enclosed where
  spaced _ hmode := List.mem_cons_of_mem _ hmode
  nonempty _ _ := by
    rintro ⟨u, u', y, y', rfl, -, -, ⟨-, front, c, rfl, -⟩, -⟩
    simp
  append text text' rest rest' hsimilar _ := by
    rintro ⟨u, u', y, y', rfl, rfl, hu, hcloser, hcloser', hy, hy'⟩
    exact ⟨text ++ u, text' ++ u', y, y', (List.append_assoc ..).symm, (List.append_assoc ..).symm,
      hsimilar.append hu, hcloser.mono ⟨text, rfl⟩, hcloser'.mono ⟨text', rfl⟩, hy, hy'⟩
  scan _ _ _ _ hmode hs h := tracks_enclosed.scan hmode hs h
  outer_of_inner _ _ h := h
  named _ _ hs := tracks_enclosed.atNamed_eq hs
  tail _ _ _ _ hs h hnone := tracks_enclosed.tail hs h hnone

/-- Inputs whose brackets are still to be closed go on to places at which targets and operands
end. -/
theorem Enclosed.pending ⦃s s' : Input⦄ (h : Enclosed s s') : Pending Edge s s' := by
  obtain ⟨u, u', y, y', hs, hs', hu, hcloser, -, hy, hy'⟩ := h
  exact ⟨u, u', y, y', hs, hs', hu, hcloser.trimmed, hy, hy'⟩

/-- A closing bracket comes behind which targets and operands go on or end. -/
theorem Facing.enclosed {text text' : List Char} (h : Similar text text')
    (hcloser : HoldsCloser text) (hcloser' : HoldsCloser text') (hs : Facing rest rest') :
    Enclosed (text ++ rest) (text' ++ rest') := by
  rcases hs with ⟨u, u', y, y', rfl, rfl, hu, htrimmed, hy, hy'⟩ | ⟨hrest, hrest'⟩
  · obtain ⟨⟨b, hb⟩, -⟩ := hcloser
    obtain ⟨⟨b', hb'⟩, -⟩ := hcloser'
    exact ⟨text ++ u, text' ++ u', y, y', (List.append_assoc ..).symm, (List.append_assoc ..).symm,
      h.append hu, ⟨⟨b, List.mem_append_left u hb⟩, htrimmed.append_left text⟩,
      ⟨⟨b', List.mem_append_left u' hb'⟩, (hu.trimmed htrimmed).append_left text'⟩, hy, hy'⟩
  · exact ⟨text, text', rest, rest', rfl, rfl, h, hcloser, hcloser', hrest, hrest'⟩

/-- The leaf of a closing bracket may be respaced, wherever a target or an operand goes on or ends
behind it. -/
theorem Terminal.read_closer_respaces {t : Terminal} (hmode : t.mode = .code)
    (hkind : t.kind ≠ .operator) (htext : ∀ {s next taken}, Token.scan .code s = .ok next →
      t.pattern.take? next = some taken → ∃ b : Bracket, taken.text = [b.closer]) :
    t.read.Respaces Enclosed Facing .tree := by
  refine read_closed HoldsCloser.mono frames_enclosed.toGuides (hmode ▸ List.mem_cons_self) hkind
    (fun {s next taken} hscan htake => ?_) fun _ _ _ _ h hcloser hcloser' hs =>
      hs.enclosed h hcloser hcloser'
  obtain ⟨b, hb⟩ := htext (hmode ▸ hscan) htake
  rw [hb]
  exact ⟨⟨b, List.mem_singleton_self _⟩, [], b.closer, rfl, by cases b <;> rfl⟩

/-- The closing bracket of members may be respaced. -/
theorem Terminal.closer_respaces (b : Bracket) :
    (closer b).read.Respaces Enclosed Facing .tree := by
  refine read_closer_respaces rfl nofun fun {s next taken} _ htake => ⟨b, ?_⟩
  simp only [closer, Pattern.take?] at htake
  split at htake
  · cases htake
  · split at htake
    · rename_i hc
      cases htake
      rw [hc]
    · cases htake

/-- The closing bracket of a subscript may be respaced. -/
theorem Terminal.rightBracket_respaces :
    (mark .rightBracket "`]`").read.Respaces Enclosed Facing .tree := by
  refine read_closer_respaces rfl nofun fun {s next taken} hscan htake => ⟨.square, ?_⟩
  obtain ⟨hkind, rfl⟩ := Pattern.kind_of_take? htake
  have hsymbols : ∀ symbol ∈ Token.symbols, symbol.2 = .rightBracket →
      symbol.1 = [Bracket.square.closer] := by decide
  have hmem := (Token.afterBlanks_written hscan).mem_symbols (by rw [hkind]; decide)
  exact hsymbols _ hmem hkind

/-! ## Tails of targets and operands -/

/-- A token that is no word and not two of them is the same wherever it may stand. -/
theorem Terminal.read_code_iff {t : Terminal} {k : TokenKind} (hmode : t.mode = .operator)
    (hpattern : t.pattern = .kind k) (hk : k ≠ .word ∧ k ≠ .notIn) {leaf : Tree} :
    { t with mode := .code }.read s = .ok (leaf, rest) ↔ t.read s = .ok (leaf, rest) := by
  obtain ⟨hword, hnotIn⟩ := hk
  constructor
  · intro h
    obtain ⟨next, taken, hscan, htake, rfl, rfl⟩ := exists_of_read h
    obtain ⟨hkind, -⟩ := Pattern.kind_of_take? (hpattern ▸ htake)
    have hoperator := Token.scan_operator_of_code hscan (hkind ▸ hword)
    exact read_of_scan (hmode ▸ hoperator) htake
  · intro h
    obtain ⟨next, taken, hscan, htake, rfl, rfl⟩ := exists_of_read h
    obtain ⟨hkind, -⟩ := Pattern.kind_of_take? (hpattern ▸ htake)
    have hcode := Token.scan_code_of_operator (hmode ▸ hscan) (hkind ▸ hnotIn)
    exact read_of_scan (t := { t with mode := .code }) hcode htake

namespace Tail

variable {extent : Extent} {t : Token}

/-- The token with which a target or an operand goes on is no word and not two of them. -/
theorem scan_code_of_next? (he : extent ≠ .whole) (hscan : Token.scan (mode extent) s = .ok t)
    {form : Tail Part} (hnext : next? extent t = some form) :
    Token.scan .code s = .ok t ∧ t.kind ≠ .word ∧ t.kind ≠ .notIn := by
  obtain ⟨hadmits, -⟩ := of?_of_next? hnext
  cases extent with
  | whole => exact absurd rfl he
  | target =>
    have hword : t.kind ≠ .word := by simpa [admits] using hadmits
    exact ⟨hscan, hword, (Token.afterBlanks_written hscan).ne_notIn⟩
  | operand =>
    have hkind : t.kind = .dot ∨ t.kind = .leftBracket := by simpa [admits] using hadmits
    have hother : t.kind ≠ .word ∧ t.kind ≠ .notIn := by rcases hkind with h | h <;> simp [h]
    exact ⟨Token.scan_code_of_operator hscan hother.2, hother⟩

/-- A token of code that is no word is what comes behind an expression. -/
theorem scan_of_code (hscan : Token.scan .code s = .ok t) (hword : t.kind ≠ .word)
    (extent : Extent) : Token.scan (mode extent) s = .ok t := by
  cases extent with
  | target => exact hscan
  | whole | operand => exact Token.scan_operator_of_code hscan hword

/-- Targets and operands go on through the same tails in inputs that go on to places at which they
end. -/
theorem next?_some_edge {form : Tail Part} (he : extent ≠ .whole) (hs : Pending Edge s s')
    (hscan : Token.scan (mode extent) s = .ok t) (hnext : next? extent t = some form) :
    ∃ t', Token.scan (mode extent) s' = .ok t' ∧ next? extent t' = some form := by
  obtain ⟨hcode, hword, -⟩ := scan_code_of_next? he hscan hnext
  obtain ⟨t', hcode', halike⟩ := guides_edge.scan List.mem_cons_self hs hcode
  exact ⟨t', scan_of_code hcode' (halike.kind ▸ hword) extent,
    (next?_alike halike extent).trans hnext⟩

/-- An operand ends before a word, be it one word or the first of two. -/
theorem next?_operand_none {first : Token} (hscan : Token.scan .code s = .ok first)
    (hword : first.kind = .word)
    (hmore : first.isWord "not" = true → ∃ next, Token.scan .code first.rest = .ok next) :
    ∃ t, Token.scan .operator s = .ok t ∧ next? .operand t = none := by
  by_cases hboth : first.isWord "not" = true ∧
      ∃ second, Token.scan .code first.rest = .ok second ∧ second.isWord "in" = true
  · obtain ⟨hnot, second, hsecond, hin⟩ := hboth
    exact ⟨_, Token.scanOperator_eq_ok.2 (.notIn hscan hnot hsecond hin), rfl⟩
  · refine ⟨first, Token.scanOperator_eq_ok.2 (.single hscan fun hnot => ?_), ?_⟩
    · obtain ⟨next, hnext⟩ := hmore hnot
      refine ⟨next, hnext, Bool.eq_false_iff.2 fun hin => hboth ⟨hnot, next, hnext, hin⟩⟩
    · simp [next?, admits, hword]

/-- Targets and operands end in both of two inputs that go on to places at which they end, or in
neither. -/
theorem next?_none_edge (he : extent ≠ .whole) (hs : Facing s s')
    (hscan : Token.scan (mode extent) s = .ok t) (hnone : next? extent t = none) :
    ∃ t', Token.scan (mode extent) s' = .ok t' ∧ next? extent t' = none := by
  rcases hs with hs | ⟨-, hedge⟩
  · have code : ∀ {t : Token}, Token.scan .code s = .ok t → ∃ t', Token.scan .code s' = .ok t' ∧
        t.Alike t' := fun h => guides_edge.scan List.mem_cons_self hs h
    cases extent with
    | whole => exact absurd rfl he
    | target =>
      obtain ⟨t', ht', halike⟩ := code hscan
      exact ⟨t', ht', (next?_alike halike .target).trans hnone⟩
    | operand =>
      -- A word may be the first of two in one of the inputs alone.
      have words : ∀ {first : Token}, Token.scan .code s = .ok first → first.kind = .word →
          (first.isWord "not" = true → ∃ next, Token.scan .code first.rest = .ok next) →
            ∃ t', Token.scan .operator s' = .ok t' ∧ next? .operand t' = none := by
        intro first hfirst hword hmore
        obtain ⟨first', hfirst', halike, hrest⟩ := hs.afterBlanks (fun _ => Edge.breaks) hfirst
        refine next?_operand_none hfirst' (halike.kind.trans hword) fun hnot => ?_
        rw [halike.isWord] at hnot
        obtain ⟨next, hnext⟩ := hmore hnot
        rcases hrest with hrest | ⟨-, hedge⟩
        · obtain ⟨next', hnext', -⟩ := guides_edge.scan List.mem_cons_self hrest hnext
          exact ⟨next', hnext'⟩
        · obtain ⟨next', hnext', -⟩ := hedge.next
          exact ⟨next', hnext'⟩
      cases Token.scanOperator_eq_ok.1 hscan with
      | single hfirst hother =>
        by_cases hword : t.kind = .word
        · exact words hfirst hword fun hnot => (hother hnot).imp fun _ h => h.1
        · obtain ⟨t', ht', halike⟩ := code hfirst
          exact ⟨t', scan_of_code ht' (halike.kind ▸ hword) .operand,
            (next?_alike halike .operand).trans hnone⟩
      | notIn hfirst hnot hsecond _ =>
        exact words hfirst (Token.isWord_iff.1 hnot).1 fun _ => ⟨_, hsecond⟩
  · exact hedge.next?_none he

end Tail

/-! ## Expressions -/

section Expressions

variable {depth : Nat}

/-- Members between brackets may be respaced where a target or an operand goes on or ends behind
them. -/
theorem Part.bracketed_edge {b : Bracket} {mode : Mode} {member : List Part}
    (hcode : areCode (bracketed b mode member) = true) :
    (readAll (expression depth) (bracketed b mode member)).Respaces (Pending Edge) Facing .row :=
  (bracketed_respaces frames_enclosed (expression_lossless depth)
    (expression_respaces frames_enclosed depth) (Terminal.closer_respaces b) hcode).relax
      Enclosed.pending

/-- A sign and the operand behind it may be respaced, if they may so one by one. -/
theorem Part.operation_edge {sign : Terminal} (f : Field)
    (hsign : sign.read.Respaces (Pending Edge) Facing .tree)
    (ho : (expression depth .operand).Respaces (Pending Edge) Facing .tree) :
    (readAll (expression depth) [.token sign, .operand (some f) .operand]).Respaces (Pending Edge)
      Facing .row :=
  readAll_cons_respaces (read_token_respaces (hsign.weaken fun _ _ => .inl))
    (readAll_singleton_respaces (ho.map (Layout.keeps_under (some f))))

/-- A primary may be respaced where a target or an operand goes on or ends, if operands may. -/
theorem Primary.read_edge (ho : (expression depth .operand).Respaces (Pending Edge) Facing .tree) :
    (Primary.read (expression depth)).Respaces (Pending Edge) Facing .tree := by
  refine read_respaces_of guides_edge (by decide) (expression_lossless depth)
    fun {t kind parts} hform => ?_
  have hcode := areCode_of_of? hform
  rcases of?_eq_node hform with heq | heq | ⟨heq, -⟩
  · cases heq
    exact Part.bracketed_edge hcode
  · cases heq
    exact Part.bracketed_edge hcode
  · cases heq
    exact Part.operation_edge .operand (Terminal.read_respaces guides_edge (by simp)) ho

/-- A tail of a target or an operand may be respaced where that goes on or ends, if operands may. -/
theorem Tail.read_edge {extent : Extent} (he : extent ≠ .whole)
    (ho : (expression depth .operand).Respaces (Pending Edge) Facing .tree) :
    (Tail.read (expression depth) extent).Respaces Facing Facing Layout.tail.option := by
  refine read_respaces_of .inl (next?_some_edge he) (next?_none_edge he)
    fun {s t form} hscan hnext => ?_
  obtain ⟨-, hother⟩ := scan_code_of_next? he hscan hnext
  have hbinary : ∀ kind, (Part.readAll (expression depth) (binary kind t).more).Respaces
      (Pending Edge) Facing .row := by
    intro kind
    refine Part.operation_edge .right (fun s leaf rest h leaf' hleaf => ?_) ho
    have hread := (Terminal.read_code_iff rfl rfl hother).2 h
    obtain ⟨hsimilar, hmore⟩ :=
      Terminal.read_respaces guides_edge List.mem_cons_self hread hleaf
    exact ⟨hsimilar, fun rest' hrest =>
      (hmore hrest).imp_right (Terminal.read_code_iff rfl rfl hother).1⟩
  obtain ⟨rfl, -⟩ | ⟨rfl, -⟩ | ⟨rfl, -⟩ | ⟨rfl, -⟩ | ⟨rfl, -⟩ :=
    of?_eq_some (of?_of_next? hnext).2
  · exact Part.readAll_singleton_respaces ((Part.bracketed_edge rfl).map
      (Layout.keeps_singleton.comp (Layout.keeps_node (some .arguments) .argumentList)))
  · have htoken : ∀ terminal : Terminal, terminal.mode = .code →
        ((Part.token terminal).read (expression depth)).Respaces (Pending Edge) Facing .row :=
      fun terminal hmode => Part.read_token_respaces
        (Terminal.read_respaces guides_edge (hmode ▸ List.mem_cons_self))
    exact Part.readAll_cons_respaces ((htoken _ rfl).weaken fun _ _ => .inl)
      (Part.readAll_singleton_respaces (htoken _ rfl))
  · exact (Part.readAll_concat_respaces frames_enclosed (expression_lossless depth)
      (expression_respaces frames_enclosed depth)
      (Part.read_token_respaces Terminal.rightBracket_respaces) [_, _] rfl).relax Enclosed.pending
  · exact hbinary .comparison
  · exact hbinary .binaryOperation

end Expressions

/-- A target or an operand may be respaced where it goes on or ends. -/
theorem expression_respaces_edge (depth : Nat) {extent : Extent} (he : extent ≠ .whole) :
    (expression depth extent).Respaces (Pending Edge) Facing .tree := by
  induction depth generalizing extent with
  | zero => exact fun s t rest h => by cases h
  | succ depth ih =>
    have hoperand : Extent.operand ≠ .whole := by decide
    have ho := ih hoperand
    exact expression_respaces_of (Primary.read_edge ho) (Tail.read_edge he ho)

/-- What a target or an operand is read of is read as the same expression before every place at
which targets and operands end. -/
theorem expression_replace_edge {depth : Nat} {extent : Extent} {t : Tree} {y y' : Input}
    (he : extent ≠ .whole) (h : expression depth extent s = .ok (t, y)) (hy : Edge y)
    (hy' : Edge y') : expression depth extent (t.source ++ y') = .ok (t, y') := by
  have hsame := Tree.Respaced.refl (expression_spaced depth h)
  exact ((expression_respaces_edge depth he h hsame).2 (.inr ⟨hy, hy'⟩)).2

end Stencil
