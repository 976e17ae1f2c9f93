import Stencil.Proofs.Items
import Stencil.Proofs.Lockstep

/-!
# Where expressions end

Every expression ends before a blank behind which a token comes that extends none. What lies behind
such a place may be replaced by what lies behind another (`expression_replace`): up to there the
same tokens are read (`Tracks`), and at these places the expression ends in both (`frames_halts`).
What an expression is read of does not end with a blank (`expression_trimmed`), so that the blanks
behind it are such a place if they stand before the end of the value or the statement.
-/

namespace Stencil

variable {s s' rest rest' : Input}

/-! ## Places at which expressions end -/

/-- A token that extends no expression. It does not begin the words `not in` either, and it names no
argument. -/
structure Token.EndsOperand (t : Token) : Prop where
  tail : Tail.of? t = none
  other : t.isWord "not" = false
  unnamed : t.kind ≠ .assign

/-- An expression does not go on with the word `in` at a token that extends none. -/
theorem Token.EndsOperand.not_in {t : Token} (h : t.EndsOperand) : t.isWord "in" = false := by
  cases hin : t.isWord "in" with
  | false => rfl
  | true =>
    have htail := h.tail
    simp [Tail.of?, (Token.isWord_iff.1 hin).1, hin] at htail

/-- Whether every expression ends here: a blank comes first, and then a token that extends none. -/
structure Halts (s : Input) : Prop where
  blank : ∃ c more, s = c :: more ∧ isBlank c = true
  next : ∃ t, Token.scan .code s = .ok t ∧ t.EndsOperand

namespace Halts

/-- The blanks at which expressions end are a place at which a token does. -/
theorem breaks (h : Halts s) : Token.Breaks s := by
  obtain ⟨c, more, rfl, hc⟩ := h.blank
  exact ⟨c, more, rfl, not_isPlain_of_isBlank hc⟩

/-- Expressions end before blanks and a token that extends none. -/
theorem of_scan {b : List Char} (hb : IsGap b) {t : Token} (hscan : Token.scanCode false s = .ok t)
    (ht : t.EndsOperand) : Halts (b ++ s) := by
  obtain ⟨c, more, rfl⟩ := List.exists_cons_of_ne_nil hb.1
  exact ⟨⟨c, more ++ s, rfl, hb.2 c List.mem_cons_self⟩, _, Token.afterBlanks_gap hb.2 hscan,
    ht.tail, ht.other, ht.unnamed⟩

/-- No tail comes next where expressions end. -/
theorem next?_none (h : Halts s) (extent : Extent) :
    ∃ t, Token.scan (Tail.mode extent) s = .ok t ∧ Tail.next? extent t = none := by
  obtain ⟨t, hscan, ht⟩ := h.next
  have hnone : Tail.next? extent t = none := by
    rw [Tail.next?, ht.tail]
    exact ite_self _
  cases extent with
  | target => exact ⟨t, hscan, hnone⟩
  | whole | operand =>
    -- The token is no word `not`, so that it is read alone.
    refine ⟨t, Token.scanOperator_eq_ok.2 (.single hscan fun hnot => ?_), hnone⟩
    rw [ht.other] at hnot
    cases hnot

end Halts

/-! ## Inputs that go on to such places -/

/-- The same token of code is read of similar runs that do not end with a blank, whatever ends the
tokens behind them. It is one of the runs alone, and what is left of them does not end with a blank
either. -/
theorem Token.afterBlanks_trimmed {operand : Bool} {t : Token} {u u' y y' : Input}
    (hu : Similar u u') (htrimmed : Trimmed u) (hy : Breaks y) (hy' : Breaks y')
    (h : afterBlanks (scanCode operand) (u ++ y) = .ok t) :
    ∃ t' v v', afterBlanks (scanCode operand) (u' ++ y') = .ok t' ∧ t.Alike t' ∧
      t.rest = v ++ y ∧ t'.rest = v' ++ y' ∧ Similar v v' ∧ (v ≠ [] → Trimmed v) ∧
      u.dropWhile isBlank = t.text ++ v ∧ u'.dropWhile isBlank = t.text ++ v' := by
  have hne : u.dropWhile isBlank ≠ [] := by
    obtain ⟨front, c, rfl, hc⟩ := htrimmed
    exact List.ne_nil_of_mem (mem_dropWhile_of_not (by simp) hc)
  obtain ⟨t', ht', hkind, hnonempty, htext, hgap, v, v', hrest, hrest', hv, hstart, hstart'⟩ :=
    afterBlanks_similar (stopping_code operand) hu hne (.inr hy) (.inr hy') h
  refine ⟨t', v, v', ht', ⟨hkind, hgap, hnonempty, .inl htext⟩, hrest, hrest', hv, fun hnil => ?_,
    hstart, hstart'⟩
  rw [← List.takeWhile_append_dropWhile (p := isBlank) (l := u), hstart,
    ← List.append_assoc] at htrimmed
  exact htrimmed.of_append hnil

/-- Whether two inputs begin with similar runs that do not end with a blank, and behind both comes
what satisfies `ends`. -/
def Pending (ends : Input → Prop) (s s' : Input) : Prop :=
  ∃ u u' y y', s = u ++ y ∧ s' = u' ++ y' ∧ Similar u u' ∧ Trimmed u ∧ ends y ∧ ends y'

namespace Pending

variable {ends : Input → Prop}

/-- In inputs that go on to the ends of tokens the same tokens of code are read. Behind them the
inputs go on so, or they are at such ends. -/
theorem afterBlanks (hends : ∀ ⦃y⦄, ends y → Token.Breaks y) {operand : Bool} {t : Token}
    (hs : Pending ends s s') (h : Token.afterBlanks (Token.scanCode operand) s = .ok t) :
    ∃ t', Token.afterBlanks (Token.scanCode operand) s' = .ok t' ∧ t.Alike t' ∧
      (Pending ends t.rest t'.rest ∨ ends t.rest ∧ ends t'.rest) := by
  obtain ⟨u, u', y, y', rfl, rfl, hu, htrimmed, hy, hy'⟩ := hs
  obtain ⟨t', v, v', ht', halike, hrest, hrest', hv, hsuffix, -⟩ :=
    Token.afterBlanks_trimmed hu htrimmed (hends hy) (hends hy') h
  refine ⟨t', ht', halike, ?_⟩
  rw [hrest, hrest']
  by_cases hnil : v = []
  · obtain rfl := hv.eq_nil_iff.1 hnil
    exact .inr ⟨hnil ▸ hy, hy'⟩
  · exact .inl ⟨v, v', y, y', rfl, rfl, hv, hsuffix hnil, hy, hy'⟩

/-- Going on to such ends is symmetric. -/
theorem symm (hs : Pending ends s s') : Pending ends s' s := by
  obtain ⟨u, u', y, y', hu, hu', hsimilar, htrimmed, hy, hy'⟩ := hs
  exact ⟨u', u, y', y, hu', hu, hsimilar.symm, hsimilar.trimmed htrimmed, hy', hy⟩

/-- Inputs go on so behind similar runs that do not end with a blank. -/
theorem append {text text' : List Char} (h : Similar text text') (htrimmed : Trimmed text)
    (hs : Pending ends rest rest' ∨ ends rest ∧ ends rest') :
    Pending ends (text ++ rest) (text' ++ rest') := by
  rcases hs with ⟨u, u', y, y', rfl, rfl, hu, htrimmed', hy, hy'⟩ | ⟨hrest, hrest'⟩
  · exact ⟨text ++ u, text' ++ u', y, y', (List.append_assoc ..).symm, (List.append_assoc ..).symm,
      h.append hu, htrimmed'.append_left text, hy, hy'⟩
  · exact ⟨text, text', rest, rest', rfl, rfl, h, htrimmed, hrest, hrest'⟩

/-- There is something to read where inputs go on so, or at ends that are not empty. -/
theorem ne_nil (hends : ∀ ⦃y⦄, ends y → Token.Breaks y)
    (hs : Pending ends s s' ∨ ends s ∧ ends s') : s ≠ [] := by
  rcases hs with ⟨u, u', y, y', rfl, -, -, ⟨front, c, rfl, -⟩, -⟩ | ⟨hend, -⟩
  · simp
  · obtain ⟨c, more, rfl, -⟩ := hends hend
    exact List.cons_ne_nil c more

end Pending

/-- Two relations of inputs in which the same tokens of code are read. Behind a word the inputs are
related again, or they are at places at which expressions end. -/
structure Tracks (related : Input → Input → Prop) : Prop where
  symm : ∀ ⦃s s'⦄, related s s' → related s' s
  afterBlanks : ∀ ⦃operand s s' t⦄, related s s' →
    Token.afterBlanks (Token.scanCode operand) s = .ok t →
      ∃ t', Token.afterBlanks (Token.scanCode operand) s' = .ok t' ∧ t.Alike t' ∧
        (t.kind = .word → related t.rest t'.rest ∨ Halts t.rest ∧ Halts t'.rest)

namespace Tracks

variable {related : Input → Input → Prop}

/-- Where an operator may stand, the same token is read of related inputs. -/
theorem scanOperator (hrelated : Tracks related) {t : Token} (hs : related s s')
    (h : Token.scanOperator s = .ok t) : ∃ t', Token.scanOperator s' = .ok t' ∧ t.Alike t' := by
  cases Token.scanOperator_eq_ok.1 h with
  | single hfirst hother =>
    obtain ⟨t', ht', halike, hrest⟩ := hrelated.afterBlanks hs hfirst
    refine ⟨t', Token.scanOperator_eq_ok.2 (.single ht' fun hnot => ?_), halike⟩
    rw [halike.isWord] at hnot
    obtain ⟨next, hnext, hin⟩ := hother hnot
    rcases hrest (Token.isWord_iff.1 hnot).1 with hrest | ⟨-, hhalts⟩
    · obtain ⟨next', hnext', hsame, -⟩ := hrelated.afterBlanks hrest hnext
      exact ⟨next', hnext', (hsame.isWord "in").trans hin⟩
    · obtain ⟨next', hnext', hend⟩ := hhalts.next
      exact ⟨next', hnext', hend.not_in⟩
  | @notIn first second hfirst hnot hsecond hin =>
    obtain ⟨first', hfirst', halike, hrest⟩ := hrelated.afterBlanks hs hfirst
    rcases hrest (Token.isWord_iff.1 hnot).1 with hrest | ⟨hhalts, -⟩
    · obtain ⟨second', hsecond', hsame, -⟩ := hrelated.afterBlanks hrest hsecond
      have hread := Token.scanOperator_eq_ok.2 (.notIn hfirst' ((halike.isWord "not").trans hnot)
        hsecond' ((hsame.isWord "in").trans hin))
      have hwords := Token.isNotIn_of_scanOperator h rfl
      exact ⟨_, hread, rfl, halike.gap, hwords.ne_nil,
        .inr ⟨rfl, hwords, Token.isNotIn_of_scanOperator hread rfl⟩⟩
    · -- The word `in` would extend an expression.
      obtain ⟨next, hnext, hend⟩ := hhalts.next
      obtain rfl : next = second := Except.ok.inj (hnext.symm.trans hsecond)
      rw [hend.not_in] at hin
      cases hin

/-- In a value or a statement the same token is read of related inputs. -/
theorem scan (hrelated : Tracks related) {mode : Mode} {t : Token}
    (hmode : mode ∈ Token.codeModes) (hs : related s s') (h : Token.scan mode s = .ok t) :
    ∃ t', Token.scan mode s' = .ok t' ∧ t.Alike t' := by
  simp only [Token.codeModes, List.mem_cons, List.not_mem_nil, or_false] at hmode
  rcases hmode with rfl | rfl | rfl
  · obtain ⟨t', ht', halike, -⟩ := hrelated.afterBlanks hs h
    exact ⟨t', ht', halike⟩
  · obtain ⟨t', ht', halike, -⟩ := hrelated.afterBlanks hs h
    exact ⟨t', ht', halike⟩
  · exact hrelated.scanOperator hs h

/-- Whether a named argument begins is the same in related inputs. -/
theorem atNamed_eq (hrelated : Tracks related) (hs : related s s') : atNamed s' = atNamed s := by
  have named : ∀ {s s' : Input}, related s s' → atNamed s = true → atNamed s' = true := by
    intro s s' hs h
    unfold atNamed at h
    split at h
    · rename_i key hkey
      obtain ⟨key', hkey', halike, hrest⟩ := hrelated.afterBlanks hs hkey
      have hkey' : Token.scan .code s' = .ok key' := hkey'
      simp only [Bool.and_eq_true, decide_eq_true_eq] at h
      obtain ⟨hword, h⟩ := h
      split at h
      · rename_i sign hsign
        simp only [decide_eq_true_eq] at h
        rcases hrest hword with hrest | ⟨hhalts, -⟩
        · obtain ⟨sign', hsign', hsame, -⟩ := hrelated.afterBlanks hrest hsign
          have hsign' : Token.scan .code key'.rest = .ok sign' := hsign'
          simp [atNamed, hkey', hsign', halike.kind, hsame.kind, hword, h]
        · -- A sign of assignment is no token at which expressions end.
          obtain ⟨next, hnext, hend⟩ := hhalts.next
          obtain rfl : next = sign := Except.ok.inj (hnext.symm.trans hsign)
          exact absurd h hend.unnamed
      · cases h
    · cases h
  rw [Bool.eq_iff_iff]
  exact ⟨named (hrelated.symm hs), named hs⟩

/-- No tail comes next in either of two related inputs, if it does so in neither. -/
theorem tail (hrelated : Tracks related) {extent : Extent} {t : Token} (hs : related s s')
    (h : Token.scan (Tail.mode extent) s = .ok t) (hnone : Tail.next? extent t = none) :
    ∃ t', Token.scan (Tail.mode extent) s' = .ok t' ∧ Tail.next? extent t' = none := by
  obtain ⟨t', ht', halike⟩ := hrelated.scan (Tail.mode_mem extent) hs h
  exact ⟨t', ht', (Tail.next?_alike halike extent).trans hnone⟩

end Tracks

/-- Inputs that go on to places at which expressions end are related so. -/
theorem tracks_halts : Tracks (Pending Halts) where
  symm _ _ := Pending.symm
  afterBlanks _ _ _ _ hs h :=
    have ⟨t', ht', halike, hrest⟩ := hs.afterBlanks (fun _ => Halts.breaks) h
    ⟨t', ht', halike, fun _ => hrest⟩

/-- Behind an expression inputs go on to places at which expressions end, or they are at such
places, and then it ends in both. -/
theorem frames_halts :
    Frames (Pending Halts) (fun s s' => Pending Halts s s' ∨ Halts s ∧ Halts s') where
  spaced _ hmode := List.mem_cons_of_mem _ hmode
  nonempty _ _ := Pending.ne_nil fun _ => Halts.breaks
  append _ _ _ _ := Pending.append
  scan _ _ _ _ hmode hs h := tracks_halts.scan hmode hs h
  outer_of_inner _ _ := .inl
  named _ _ hs := tracks_halts.atNamed_eq hs
  tail extent s s' t hs hscan hnone := by
    rcases hs with hpending | ⟨-, hhalts⟩
    · exact tracks_halts.tail hpending hscan hnone
    · exact hhalts.next?_none extent

/-! ## Expressions -/

mutual

/-- A tree whose gaps are blanks is respaced as itself. -/
theorem Tree.Respaced.refl : ∀ {t : Tree}, t.Every Tree.Spaced → t.Respaced t
  | .leaf .., h => .leaf ⟨h.2.1, Iff.rfl⟩ (.inl rfl)
  | .node .., h => .node (refl_all h.2)

/-- Trees whose gaps are blanks are respaced as themselves. -/
theorem Tree.Respaced.refl_all : ∀ {ts : List Tree}, Tree.EveryOf Tree.Spaced ts →
    List.Forall₂ Tree.Respaced ts ts
  | [], _ => .nil
  | _ :: _, h => .cons (refl h.1) (refl_all h.2)

end

section Expressions

variable {depth : Nat} {extent : Extent} {t : Tree} {y y' : Input}

/-- What an expression is read of is read as the same expression before every place at which
expressions end. -/
theorem expression_replace (h : expression depth extent s = .ok (t, y)) (hy : Halts y)
    (hy' : Halts y') : expression depth extent (t.source ++ y') = .ok (t, y') := by
  have hsame := Tree.Respaced.refl (expression_spaced depth h)
  exact ((expression_respaces frames_halts depth extent h hsame).2 (.inr ⟨hy, hy'⟩)).2

/-- Inputs that are alike up to the end of a value or a statement, with something before a place in
the first that does not end with a blank. -/
theorem frames_trimmed (y : Input) :
    Frames (fun s s' => Alike Closes s s' ∧ ∃ u, s = u ++ y ∧ Trimmed u)
      (fun s s' => Alike Closes s s' ∧ ∃ u, s = u ++ y ∧ (u = [] ∨ Trimmed u)) where
  spaced _ hmode := List.mem_cons_of_mem _ hmode
  nonempty _ _ h := guides_code.nonempty h.1
  append text _ _ _ hsimilar htrimmed h := by
    obtain ⟨halike, u, rfl, hu⟩ := h
    refine ⟨guides_code.append hsimilar htrimmed halike, text ++ u, (List.append_assoc ..).symm, ?_⟩
    rcases hu with rfl | hu
    · rwa [List.append_nil]
    · exact hu.append_left text
  scan _ _ _ _ hmode hs h := guides_code.scan hmode hs.1 h
  outer_of_inner _ _ h := ⟨h.1, h.2.imp fun _ hu => ⟨hu.1, .inr hu.2⟩⟩
  named _ _ h := atNamed_alike h.1
  tail _ _ _ _ h := Tail.next?_none_alike h.1

/-- What an expression is read of does not end with a blank, if the end of the value or the
statement comes behind it. -/
theorem expression_trimmed (h : expression depth extent s = .ok (t, y)) (hy : Alike Closes y y) :
    Trimmed t.source := by
  have hsource : t.source ++ y = s := expression_append depth h
  have hsame := Tree.Respaced.refl (expression_spaced depth h)
  obtain ⟨⟨-, u, hu, htrimmed⟩, -⟩ := (expression_respaces (frames_trimmed y) depth extent h
    hsame).2 ⟨hy, [], rfl, .inl rfl⟩
  rw [← hsource] at hu
  exact List.append_cancel_right hu ▸ htrimmed

end Expressions

end Stencil
