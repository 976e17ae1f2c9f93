import Stencil.Proofs.TokenText

/-!
# Inputs that differ in blanks

Two runs of characters are similar (`Similar`) if they are the same up to the blanks between tokens:
strings are the same, runs of blanks stand where runs of blanks stand, and every other character
stands in both. Where two inputs begin with similar runs that hold the end of what is read
(`Alike`), the same token is read of both, up to the blanks before it and, in the operator `not in`,
inside it. The main statements are `Token.scan_alike` for values and statements and
`Token.scanTag_alike` for tags.
-/

namespace Stencil

variable {s s' x x' : List Char}

/-- A run of blanks, one at least. -/
def IsGap (b : List Char) : Prop := b ≠ [] ∧ ∀ c ∈ b, isBlank c = true

/-- Whether two runs of characters are the same up to the blanks between tokens. -/
inductive Similar : List Char → List Char → Prop
  | nil : Similar [] []
  | plain {c : Char} {s s' : List Char} (hc : isPlain c = true) (h : Similar s s') :
    Similar (c :: s) (c :: s')
  /-- Blanks in a string are no gap. -/
  | quoted {q : Char} {text s s' : List Char} (hq : q = '"' ∨ q = '\'')
    (htext : Quotation.close? q text = some (text, [])) (h : Similar s s') :
    Similar (q :: (text ++ s)) (q :: (text ++ s'))
  | gap {b b' s s' : List Char} (hb : IsGap b) (hb' : IsGap b') (h : Similar s s') :
    Similar (b ++ s) (b' ++ s')

namespace Similar

/-- Similarity is symmetric. -/
theorem symm (h : Similar s s') : Similar s' s := by
  induction h with
  | nil => exact .nil
  | plain hc _ ih => exact .plain hc ih
  | quoted hq htext _ ih => exact .quoted hq htext ih
  | gap hb hb' _ ih => exact .gap hb' hb ih

/-- Similar runs may be put in a row. -/
theorem append (h : Similar s s') (hx : Similar x x') : Similar (s ++ x) (s' ++ x') := by
  induction h with
  | nil => exact hx
  | plain hc _ ih => exact .plain hc ih
  | quoted hq htext _ ih =>
    rw [List.cons_append, List.cons_append, List.append_assoc, List.append_assoc]
    exact .quoted hq htext ih
  | gap hb hb' _ ih =>
    rw [List.append_assoc, List.append_assoc]
    exact .gap hb hb' ih

/-- Plain characters are similar to themselves. -/
theorem of_plain (h : ∀ c ∈ s, isPlain c = true) : Similar s s := by
  induction s with
  | nil => exact .nil
  | cons c s ih =>
    obtain ⟨hc, hs⟩ := List.forall_mem_cons.1 h
    exact .plain hc (ih hs)

/-- Runs of blanks are similar. -/
theorem of_gap (h : IsGap s) (h' : IsGap s') : Similar s s' := by
  have hgap := gap h h' .nil
  rwa [List.append_nil, List.append_nil] at hgap

/-- What is similar to nothing is nothing. -/
theorem eq_nil_iff (h : Similar s s') : s = [] ↔ s' = [] := by
  cases h with
  | nil => rfl
  | plain | quoted => simp
  | gap hb hb' => simp [hb.1, hb'.1]

/-- The blanks before similar runs do not matter, as long as both have some or neither has. -/
theorem dropBlanks (h : Similar s s') :
    Similar (s.dropWhile isBlank) (s'.dropWhile isBlank) ∧
      (s.takeWhile isBlank = [] ↔ s'.takeWhile isBlank = []) := by
  induction h with
  | nil => exact ⟨.nil, Iff.rfl⟩
  | @plain c s s' hc h =>
    have hblank : ¬isBlank c = true := by
      intro hblank
      rw [not_isPlain_of_isBlank hblank] at hc
      cases hc
    rw [List.dropWhile_cons_of_neg hblank, List.dropWhile_cons_of_neg hblank,
      List.takeWhile_cons_of_neg hblank, List.takeWhile_cons_of_neg hblank]
    exact ⟨.plain hc h, Iff.rfl⟩
  | @quoted q text s s' hq htext h =>
    have hblank : ¬isBlank q = true := by rcases hq with rfl | rfl <;> decide
    rw [List.dropWhile_cons_of_neg hblank, List.dropWhile_cons_of_neg hblank,
      List.takeWhile_cons_of_neg hblank, List.takeWhile_cons_of_neg hblank]
    exact ⟨.quoted hq htext h, Iff.rfl⟩
  | gap hb hb' _ ih =>
    rw [List.dropWhile_append_of_pos hb.2, List.dropWhile_append_of_pos hb'.2,
      List.takeWhile_append_of_pos hb.2, List.takeWhile_append_of_pos hb'.2]
    exact ⟨ih.1, by simp [hb.1, hb'.1]⟩

/-- A run that is similar to one that does not end with a blank does not do so either. -/
theorem trimmed (h : Similar s s') (ht : Trimmed s) : Trimmed s' := by
  -- What comes last of both runs is the same, or nothing comes behind it in either.
  have last : ∀ {x x' s s' : List Char}, Similar s s' → (Trimmed s → Trimmed s') →
      (Trimmed x → Trimmed x') → Trimmed (x ++ s) → Trimmed (x' ++ s') := by
    intro x x' s s' h hs hx ht
    by_cases hnil : s = []
    · rw [h.eq_nil_iff.1 hnil, List.append_nil]
      rw [hnil, List.append_nil] at ht
      exact hx ht
    · exact (hs (ht.of_append hnil)).append_left x'
  induction h with
  | nil => exact ht
  | @plain c s s' _ h ih => exact @last [c] [c] s s' h ih id ht
  | @quoted q text s s' _ _ h ih => exact @last (q :: text) (q :: text) s s' h ih id ht
  | gap hb _ h ih =>
    refine last h ih (fun hblank => ?_) ht
    obtain ⟨front, c, rfl, hc⟩ := hblank
    have hgap := hb.2 c (by simp)
    rw [hc] at hgap
    cases hgap

/-- Similar runs begin with the same plain characters, after which both end or neither goes on with
a plain character. -/
theorem exists_front (h : Similar s s') :
    ∃ w v v', s = w ++ v ∧ s' = w ++ v' ∧ (∀ c ∈ w, isPlain c = true) ∧ Similar v v' ∧
      (v = [] ∧ v' = [] ∨ Token.Breaks v ∧ Token.Breaks v') := by
  have breaks : ∀ {b more : List Char}, IsGap b → Token.Breaks (b ++ more) := by
    intro b more hb
    obtain ⟨c, b, rfl⟩ := List.exists_cons_of_ne_nil hb.1
    exact ⟨c, b ++ more, rfl, not_isPlain_of_isBlank (hb.2 c List.mem_cons_self)⟩
  induction h with
  | nil => exact ⟨[], [], [], rfl, rfl, nofun, .nil, .inl ⟨rfl, rfl⟩⟩
  | plain hc h ih =>
    obtain ⟨w, v, v', rfl, rfl, hw, hv, hend⟩ := ih
    exact ⟨_ :: w, v, v', rfl, rfl, List.forall_mem_cons.2 ⟨hc, hw⟩, hv, hend⟩
  | @quoted q text s s' hq htext h =>
    have hplain : isPlain q = false := by rcases hq with rfl | rfl <;> rfl
    exact ⟨[], _, _, rfl, rfl, nofun, .quoted hq htext h,
      .inr ⟨⟨q, text ++ s, rfl, hplain⟩, ⟨q, text ++ s', rfl, hplain⟩⟩⟩
  | gap hb hb' h _ =>
    exact ⟨[], _, _, rfl, rfl, nofun, .gap hb hb' h, .inr ⟨breaks hb, breaks hb'⟩⟩

end Similar

/-- Whether two inputs begin with similar runs that satisfy `ends`, whatever comes behind them. -/
def Alike (ends : Input → Prop) (s s' : Input) : Prop :=
  ∃ u u' r r', s = u ++ r ∧ s' = u' ++ r' ∧ Similar u u' ∧ ends u ∧ ends u'

namespace Alike

variable {ends : Input → Prop}

/-- Being alike is symmetric. -/
theorem symm (h : Alike ends s s') : Alike ends s' s := by
  obtain ⟨u, u', r, r', hs, hs', hu, hend, hend'⟩ := h
  exact ⟨u', u, r', r, hs', hs, hu.symm, hend', hend⟩

/-- Inputs that are alike are so behind similar runs. -/
theorem append (hmono : ∀ ⦃rest s⦄, ends rest → rest <:+ s → ends s) (hx : Similar x x')
    (h : Alike ends s s') : Alike ends (x ++ s) (x' ++ s') := by
  obtain ⟨u, u', r, r', rfl, rfl, hu, hend, hend'⟩ := h
  exact ⟨x ++ u, x' ++ u', r, r', (List.append_assoc ..).symm, (List.append_assoc ..).symm,
    hx.append hu, hmono hend ⟨x, rfl⟩, hmono hend' ⟨x', rfl⟩⟩

/-- Inputs are alike that begin with similar runs, if the runs satisfy `ends`. -/
theorem of_ends (hx : Similar x x') (hend : ends x) (hend' : ends x') (r r' : Input) :
    Alike ends (x ++ r) (x' ++ r') :=
  ⟨x, x', r, r', rfl, rfl, hx, hend, hend'⟩

end Alike

namespace Token

/-! ## One token -/

/-- What is asked of a reader of tokens that stand before what satisfies `ends`. -/
structure Stopping (ends : Input → Prop) (scan : Input → Except Cause Token) : Prop where
  start : ∀ ⦃s t⦄, scan s = .ok t → t.start = s
  text : ∀ ⦃s t⦄, scan s = .ok t → s ≠ [] → t.text ≠ []
  /-- A token that is no string ends before blanks and quotes, and before what satisfies `ends`. -/
  stop : ∀ ⦃d s x⦄, isPlain d = true → ends (d :: s) ∨ Breaks x →
    scan (d :: s ++ x) = (scan (d :: s)).map fun t => t.append x
  quote : ∀ ⦃q text⦄, (q = '"' ∨ q = '\'') → Quotation.close? q text = some (text, []) →
    ∀ x, scan (q :: (text ++ x)) = .ok ⟨.quoted, [], q :: text, x⟩
  nonempty : ∀ ⦃s⦄, ends s → s ≠ []
  dropBlanks : ∀ ⦃s⦄, ends s → ends (s.dropWhile isBlank)

/-- A plain character is no quote. -/
theorem ne_quote_of_isPlain {d : Char} (hd : isPlain d = true) : d ≠ '"' ∧ d ≠ '\'' := by
  simp only [isPlain, Bool.and_eq_true, decide_eq_true_eq] at hd
  exact ⟨hd.1.2, hd.2⟩

/-- A string is read up to its closing quote. -/
theorem quotation_of_close {q : Char} {text : List Char} (hq : q = '"' ∨ q = '\'')
    (htext : Quotation.close? q text = some (text, [])) (x : Input) :
    Quotation.scan? q (text ++ x) = some ⟨.quoted, [], q :: text, x⟩ := by
  have hslash : q ≠ '\\' := by rcases hq with rfl | rfl <;> decide
  rw [Quotation.scan?, Quotation.close?_append_right hslash htext x]
  rfl

/-- What begins with a plain character is no string. -/
theorem scanCode_ne_unterminated {operand : Bool} {d : Char} (hd : isPlain d = true) (s : Input) :
    scanCode operand (d :: s) ≠ .error .unterminatedStringLiteral := by
  obtain ⟨hdouble, hsingle⟩ := ne_quote_of_isPlain hd
  intro h
  unfold scanCode at h
  repeat' split at h
  all_goals simp_all

/-- Tokens of code end before the end of a value or a statement. -/
theorem stopping_code (operand : Bool) : Stopping Closes (scanCode operand) where
  start _ _ h := scanCode_start h
  text _ _ h := scanCode_text_ne_nil_of_input h
  stop d s x hd hs := by
    rcases hs with hs | ⟨c, more, rfl, hc⟩
    · rcases @scanCode_append (d :: s) operand hs x with heq | ⟨hopen, -⟩
      · exact heq
      · exact absurd hopen (scanCode_ne_unterminated hd s)
    · exact scanCode_stop (ne_quote_of_isPlain hd) hc s
  quote q text hq htext x := by rw [scanCode_quote hq, quotation_of_close hq htext]
  nonempty s hs := by
    rintro rfl
    exact absurd hs.two_le_length (by simp)
  dropBlanks _ hs := (blanks_append hs []).2.2

/-- Tokens of a tag end before its bracket. -/
theorem stopping_tag : Stopping (fun s => '>' ∈ s) scanTag where
  start _ _ h := scanTag_start h
  text _ _ h := scanTag_text_ne_nil_of_input h
  stop _ _ _ hd hs := scanTag_stop (ne_quote_of_isPlain hd) hs
  quote q text hq htext x := by rw [scanTag_quote hq, quotation_of_close hq htext]
  nonempty _ hs := List.ne_nil_of_mem hs
  dropBlanks _ hs := mem_dropWhile_of_not hs rfl

/-- Two tokens that are the same up to the blanks before them, with inputs behind them that begin
with similar runs. Each run satisfies `ends` together with the token before it. -/
structure Twin (ends : Input → Prop) (t t' : Token) : Prop where
  kind : t'.kind = t.kind
  nonempty : t.text ≠ []
  text : t'.text = t.text
  gap : t'.gap = [] ↔ t.gap = []
  rest : ∃ v v' r r', t.rest = v ++ r ∧ t'.rest = v' ++ r' ∧ Similar v v' ∧
    ends (t.text ++ v) ∧ ends (t.text ++ v')

variable {t : Token}

section Scanners

variable {ends : Input → Prop} {scan : Input → Except Cause Token}

/-- A token that is read of plain characters up to where it ends is so in front of anything else
that it ends before. -/
theorem exists_front_token (hscan : Stopping ends scan) {d : Char} {w x : Input}
    (hd : isPlain d = true) (hstop : ends (d :: w) ∨ Breaks x) (h : scan (d :: w ++ x) = .ok t) :
    ∃ front : Token, t = front.append x ∧ front.text ++ front.rest = d :: w ∧ front.text ≠ [] ∧
      ∀ x', ends (d :: w) ∨ Breaks x' → scan (d :: w ++ x') = .ok (front.append x') := by
  rw [hscan.stop hd hstop] at h
  cases hfront : scan (d :: w) with
  | error cause =>
    rw [hfront] at h
    cases h
  | ok front =>
    rw [hfront] at h
    cases h
    refine ⟨front, rfl, hscan.start hfront, hscan.text hfront (List.cons_ne_nil d w), ?_⟩
    intro x' hstop'
    rw [hscan.stop hd hstop', hfront]
    rfl

/-- Where no blanks come first, the same token is read of similar runs, if it ends inside them or
before blanks or quotes that come behind them. -/
theorem scan_twin (hscan : Stopping ends scan) {u u' r r' : Input} (hu : Similar u u')
    (hne : u ≠ []) (hhead : ∀ c ∈ u.head?, isBlank c = false) (hend : ends u ∨ Breaks r)
    (hend' : ends u' ∨ Breaks r') (h : scan (u ++ r) = .ok t) :
    ∃ t', scan (u' ++ r') = .ok t' ∧ t'.kind = t.kind ∧ t.text ≠ [] ∧ t'.text = t.text ∧
      ∃ v v', t.rest = v ++ r ∧ t'.rest = v' ++ r' ∧ Similar v v' ∧ u = t.text ++ v ∧
        u' = t.text ++ v' := by
  cases hu with
  | nil => exact absurd rfl hne
  | plain hd hs =>
    rename_i d s s'
    obtain ⟨w, v, v', rfl, rfl, hw, hv, hbreaks⟩ := hs.exists_front
    have hstop : ends (d :: w) ∨ Breaks (v ++ r) := by
      rcases hbreaks with ⟨rfl, -⟩ | ⟨⟨c, more, rfl, hc⟩, -⟩
      · simpa using hend
      · exact .inr ⟨c, more ++ r, rfl, hc⟩
    have hstop' : ends (d :: w) ∨ Breaks (v' ++ r') := by
      rcases hbreaks with ⟨-, rfl⟩ | ⟨-, c, more, rfl, hc⟩
      · simpa using hend'
      · exact .inr ⟨c, more ++ r', rfl, hc⟩
    -- The token is one of the plain characters in front alone.
    rw [← List.cons_append, List.append_assoc] at h
    obtain ⟨front, rfl, hstart, htext, hread⟩ := exists_front_token hscan hd hstop h
    have hread' := hread (v' ++ r') hstop'
    rw [← List.append_assoc, List.cons_append] at hread'
    have hrest : Similar front.rest front.rest := by
      refine .of_plain fun c hc => ?_
      have hmem : c ∈ d :: w := hstart ▸ List.mem_append_right _ hc
      exact (List.mem_cons.1 hmem).elim (fun heq => heq ▸ hd) (hw c)
    have hsplit : ∀ v, d :: (w ++ v) = front.text ++ (front.rest ++ v) := by
      intro v
      rw [← List.append_assoc, hstart, List.cons_append]
    exact ⟨_, hread', rfl, htext, rfl, front.rest ++ v, front.rest ++ v', by simp, by simp,
      hrest.append hv, hsplit v, hsplit v'⟩
  | quoted hq htext hs =>
    rename_i q text s s'
    have hread := hscan.quote hq htext (s ++ r)
    rw [← List.append_assoc, ← List.cons_append] at hread
    rw [hread] at h
    cases h
    have hread' := hscan.quote hq htext (s' ++ r')
    rw [← List.append_assoc, ← List.cons_append] at hread'
    exact ⟨_, hread', rfl, List.cons_ne_nil _ _, rfl, s, s', rfl, rfl, hs, rfl, rfl⟩
  | gap hb =>
    rename_i b b' s s'
    obtain ⟨c, b, rfl⟩ := List.exists_cons_of_ne_nil hb.1
    have hblank := hhead c rfl
    rw [hb.2 c List.mem_cons_self] at hblank
    cases hblank

/-- Blanks end before what follows, if something else comes first. -/
theorem blanks_append_of_ne_nil {u : Input} (hu : u.dropWhile isBlank ≠ []) (r : Input) :
    (u ++ r).takeWhile isBlank = u.takeWhile isBlank ∧
      (u ++ r).dropWhile isBlank = u.dropWhile isBlank ++ r := by
  obtain ⟨c, more, hmore⟩ := List.exists_cons_of_ne_nil hu
  have hc : isBlank c = false := by
    have hhead := List.head?_dropWhile_not isBlank u
    rwa [hmore] at hhead
  have hmem : c ∈ u := (List.dropWhile_suffix isBlank).subset (hmore ▸ List.mem_cons_self)
  exact takeWhile_append_of_mem hc hmem r

/-- The same token is read of similar runs, up to the blanks before it, if they hold more than
blanks and it ends inside them or before blanks or quotes that come behind them. -/
theorem afterBlanks_similar (hscan : Stopping ends scan) {u u' r r' : Input} (hu : Similar u u')
    (hne : u.dropWhile isBlank ≠ []) (hend : ends (u.dropWhile isBlank) ∨ Breaks r)
    (hend' : ends (u'.dropWhile isBlank) ∨ Breaks r') (h : afterBlanks scan (u ++ r) = .ok t) :
    ∃ t', afterBlanks scan (u' ++ r') = .ok t' ∧ t'.kind = t.kind ∧ t.text ≠ [] ∧
      t'.text = t.text ∧ (t'.gap = [] ↔ t.gap = []) ∧
      ∃ v v', t.rest = v ++ r ∧ t'.rest = v' ++ r' ∧ Similar v v' ∧
        u.dropWhile isBlank = t.text ++ v ∧ u'.dropWhile isBlank = t.text ++ v' := by
  obtain ⟨hmore, hgap⟩ := hu.dropBlanks
  obtain ⟨htake, hdrop⟩ := blanks_append_of_ne_nil hne r
  obtain ⟨htake', hdrop'⟩ := blanks_append_of_ne_nil (fun hnil => hne (hmore.eq_nil_iff.2 hnil)) r'
  have hhead : ∀ c ∈ (u.dropWhile isBlank).head?, isBlank c = false := by
    intro c hc
    have hnot := List.head?_dropWhile_not isBlank u
    rwa [Option.mem_def.1 hc] at hnot
  obtain ⟨next, hnext, rfl⟩ := afterBlanks_eq_ok.1 h
  rw [hdrop] at hnext
  rw [htake]
  obtain ⟨next', hnext', hkind, hne', htext, hrest⟩ :=
    scan_twin hscan hmore hne hhead hend hend' hnext
  refine ⟨{ next' with gap := u'.takeWhile isBlank }, ?_, hkind, hne', htext, hgap.symm, hrest⟩
  exact afterBlanks_eq_ok.2 ⟨next', hdrop' ▸ hnext', by rw [htake']⟩

/-- The same token is read of inputs that are alike, up to the blanks before it. -/
theorem afterBlanks_twin (hscan : Stopping ends scan) (hs : Alike ends s s')
    (h : afterBlanks scan s = .ok t) : ∃ t', afterBlanks scan s' = .ok t' ∧ t.Twin ends t' := by
  obtain ⟨u, u', r, r', rfl, rfl, hu, hend, hend'⟩ := hs
  have hend := hscan.dropBlanks hend
  have hend' := hscan.dropBlanks hend'
  obtain ⟨t', ht', hkind, hne, htext, hgap, v, v', hrest, hrest', hv, hstart, hstart'⟩ :=
    afterBlanks_similar hscan hu (hscan.nonempty hend) (.inl hend) (.inl hend') h
  exact ⟨t', ht', hkind, hne, htext, hgap, v, v', r, r', hrest, hrest', hv, hstart ▸ hend,
    hstart' ▸ hend'⟩

/-- After a word inputs that are alike are so still. -/
theorem Twin.alike_rest {operand : Bool} {t' : Token} (ht : t.Twin Closes t')
    (h : afterBlanks (scanCode operand) s = .ok t) (hword : t.kind = .word) :
    Alike Closes t.rest t'.rest := by
  obtain ⟨v, v', r, r', hrest, hrest', hv, hend, hend'⟩ := ht.rest
  obtain ⟨next, hnext, hkind, htext⟩ := exists_scan_of_afterBlanks h
  have hchars : ∀ c ∈ t.text, c ≠ '}' ∧ c ≠ '%' := by
    intro c hc
    have hchar := (scanCode_text hnext).1 (hkind ▸ hword) c (htext ▸ hc)
    constructor
    · rintro rfl
      cases hchar
    · rintro rfl
      cases hchar
  exact ⟨v, v', r, r', hrest, hrest', hv, hend.of_append hchars, hend'.of_append hchars⟩

end Scanners

/-! ## Tokens in their modes -/

/-- The words `not in`, with blanks between them. -/
def IsNotIn (text : List Char) : Prop :=
  ∃ b, IsGap b ∧ text = "not".toList ++ (b ++ "in".toList)

/-- Two tokens with text that are the same up to the blanks before them and those between the words
`not in`. -/
structure Alike (t t' : Token) : Prop where
  kind : t'.kind = t.kind
  gap : t'.gap = [] ↔ t.gap = []
  nonempty : t.text ≠ []
  text : t'.text = t.text ∨ t.kind = .notIn ∧ IsNotIn t.text ∧ IsNotIn t'.text

/-- Twins are alike. -/
theorem Twin.alike {ends : Input → Prop} {t' : Token} (h : t.Twin ends t') : t.Alike t' :=
  ⟨h.kind, h.gap, h.nonempty, .inl h.text⟩

/-- The words `not in` are text. -/
theorem IsNotIn.ne_nil {text : List Char} (h : IsNotIn text) : text ≠ [] := by
  obtain ⟨b, -, rfl⟩ := h
  simp

/-- Tokens that are alike have text, both of them. -/
theorem Alike.nonempty' {t' : Token} (h : t.Alike t') : t'.text ≠ [] := by
  rcases h.text with htext | ⟨-, -, htext⟩
  · exact htext ▸ h.nonempty
  · exact htext.ne_nil

/-- Being alike is symmetric. -/
theorem Alike.symm {t' : Token} (h : t.Alike t') : t'.Alike t :=
  ⟨h.kind.symm, h.gap.symm, h.nonempty', h.text.imp Eq.symm fun ⟨hkind, htext, htext'⟩ =>
    ⟨h.kind.trans hkind, htext', htext⟩⟩

/-- Tokens that are alike are the same words. -/
theorem Alike.isWord {t' : Token} (h : t.Alike t') (w : String) : t'.isWord w = t.isWord w := by
  rcases h.text with htext | ⟨hkind, -⟩
  · rw [Token.isWord, Token.isWord, h.kind, htext]
  · rw [Token.isWord, Token.isWord, h.kind, hkind]
    rfl

/-- The token of the words `not in` has blanks between them. -/
theorem isNotIn_of_scanOperator (h : scanOperator s = .ok t) (hkind : t.kind = .notIn) :
    IsNotIn t.text := by
  rcases scanOperator_written h with hwritten | ⟨-, gap, hne, hblank, htext⟩
  · exact absurd hkind hwritten.ne_notIn
  · exact ⟨gap, ⟨hne, hblank⟩, htext⟩

/-- Where an operator may stand, the same token is read of inputs that are alike. -/
theorem scanOperator_alike (hs : Stencil.Alike Closes s s') (h : scanOperator s = .ok t) :
    ∃ t', scanOperator s' = .ok t' ∧ t.Alike t' := by
  have hstopping := stopping_code false
  cases scanOperator_eq_ok.1 h with
  | single hfirst hother =>
    obtain ⟨t', ht', htwin⟩ := afterBlanks_twin hstopping hs hfirst
    refine ⟨t', scanOperator_eq_ok.2 (.single ht' fun hnot => ?_), htwin.alike⟩
    rw [htwin.alike.isWord] at hnot
    obtain ⟨next, hnext, hin⟩ := hother hnot
    have hrest := htwin.alike_rest hfirst (isWord_iff.1 hnot).1
    obtain ⟨next', hnext', htwin'⟩ := afterBlanks_twin hstopping hrest hnext
    exact ⟨next', hnext', (htwin'.alike.isWord "in").trans hin⟩
  | notIn hfirst hnot hsecond hin =>
    obtain ⟨first', hfirst', htwin⟩ := afterBlanks_twin hstopping hs hfirst
    have hrest := htwin.alike_rest hfirst (isWord_iff.1 hnot).1
    obtain ⟨second', hsecond', htwin'⟩ := afterBlanks_twin hstopping hrest hsecond
    have hread := scanOperator_eq_ok.2 (.notIn hfirst' ((htwin.alike.isWord "not").trans hnot)
      hsecond' ((htwin'.alike.isWord "in").trans hin))
    have hwords := isNotIn_of_scanOperator h rfl
    exact ⟨_, hread, rfl, htwin.gap, hwords.ne_nil,
      .inr ⟨rfl, hwords, isNotIn_of_scanOperator hread rfl⟩⟩

/-- In a value or a statement the same token is read of inputs that are alike. -/
theorem scan_alike {mode : Mode} (hmode : mode ∈ codeModes) (hs : Stencil.Alike Closes s s')
    (h : scan mode s = .ok t) : ∃ t', scan mode s' = .ok t' ∧ t.Alike t' := by
  have blanks : ∀ {operand : Bool}, afterBlanks (scanCode operand) s = .ok t →
      ∃ t', afterBlanks (scanCode operand) s' = .ok t' ∧ t.Alike t' := by
    intro operand h
    obtain ⟨t', ht', htwin⟩ := afterBlanks_twin (stopping_code operand) hs h
    exact ⟨t', ht', htwin.alike⟩
  simp only [codeModes, List.mem_cons, List.not_mem_nil, or_false] at hmode
  rcases hmode with rfl | rfl | rfl
  · exact blanks h
  · exact blanks h
  · exact scanOperator_alike hs h

/-- In a tag the same token is read of inputs that are alike. -/
theorem scanTag_alike (hs : Stencil.Alike (fun s => '>' ∈ s) s s') (h : scan .tag s = .ok t) :
    ∃ t', scan .tag s' = .ok t' ∧ t.Alike t' := by
  obtain ⟨t', ht', htwin⟩ := afterBlanks_twin stopping_tag hs h
  exact ⟨t', ht', htwin.alike⟩

end Token

/-- Whether a named argument begins is the same in inputs that are alike. -/
theorem atNamed_alike (hs : Alike Closes s s') : atNamed s' = atNamed s := by
  have named : ∀ {s s' : Input}, Alike Closes s s' → atNamed s = true → atNamed s' = true := by
    intro s s' hs h
    unfold atNamed at h
    split at h
    · rename_i key hkey
      obtain ⟨key', hkey', htwin⟩ := Token.afterBlanks_twin (Token.stopping_code false) hs hkey
      have hkey' : Token.scan .code s' = .ok key' := hkey'
      simp only [Bool.and_eq_true, decide_eq_true_eq] at h
      obtain ⟨hword, h⟩ := h
      split at h
      · rename_i sign hsign
        have hrest := htwin.alike_rest hkey hword
        obtain ⟨sign', hsign', htwin'⟩ :=
          Token.afterBlanks_twin (Token.stopping_code false) hrest hsign
        have hsign' : Token.scan .code key'.rest = .ok sign' := hsign'
        simp only [decide_eq_true_eq] at h
        simp [atNamed, hkey', hsign', htwin.kind, htwin'.kind, hword, h]
      · cases h
    · cases h
  rw [Bool.eq_iff_iff]
  exact ⟨named hs.symm, named hs⟩

/-! ## Texts of tokens -/

namespace Token

/-- A character of a word is plain. -/
theorem isPlain_of_isWordChar {c : Char} (hc : isWordChar c = true) : isPlain c = true := by
  cases hplain : isPlain c with
  | true => rfl
  | false =>
    rcases eq_of_not_isPlain hplain with hblank | rfl | rfl
    · rw [isWordChar_of_isBlank hblank] at hc
      cases hc
    · cases hc
    · cases hc

/-- The text of a token of code is similar to itself. -/
theorem Written.similar {kind : TokenKind} {text : List Char} (h : Written kind text) :
    Similar text text := by
  cases h with
  | atEnd => exact .nil
  | trim => exact .plain rfl .nil
  | number _ htext =>
    refine .of_plain fun c hc => ?_
    rcases htext c hc with hword | rfl | rfl | rfl
    · exact isPlain_of_isWordChar hword
    all_goals rfl
  | quoted hq htext => simpa using Similar.quoted hq htext .nil
  | word hc htext =>
    rename_i c text
    have hchar : isWordChar c = true := by
      simp only [isWordStart, isWordChar, Char.isAlphanum, Bool.or_eq_true] at hc ⊢
      exact hc.imp_left .inl
    exact .plain (isPlain_of_isWordChar hchar)
      (.of_plain fun d hd => isPlain_of_isWordChar (htext d hd))
  | symbol hmem =>
    have hsymbols : ∀ symbol ∈ symbols, symbol.1.all isPlain = true := by decide
    exact .of_plain (List.all_eq_true.1 (hsymbols _ hmem))

/-- The words `not in` are similar whatever the blanks between them. -/
theorem IsNotIn.similar {text text' : List Char} (h : IsNotIn text) (h' : IsNotIn text') :
    Similar text text' := by
  obtain ⟨b, hb, rfl⟩ := h
  obtain ⟨b', hb', rfl⟩ := h'
  have hnot : Similar "not".toList "not".toList := .of_plain (List.all_eq_true.1 rfl)
  have hin : Similar "in".toList "in".toList := .of_plain (List.all_eq_true.1 rfl)
  exact hnot.append ((Similar.of_gap hb hb').append hin)

/-- The text of a token of a tag is similar to itself. -/
theorem scanTag_similar (h : scanTag s = .ok t) : Similar t.text t.text := by
  unfold scanTag at h
  split at h
  case h_1 =>
    cases h
    exact .nil
  case h_6 c s _ _ _ _ =>
    split at h
    · rename_i hquote
      split at h
      · rename_i hscan
        cases h
        obtain ⟨_, hclose, rfl⟩ := Option.map_eq_some_iff.1 hscan
        simpa using Similar.quoted (by simpa using hquote) (Quotation.close?_text hclose) .nil
      · cases h
    · split at h
      · rename_i hname
        cases h
        have htag : ∀ d, isTagChar d = true → isPlain d = true := by
          intro d hd
          simp only [isTagChar, Bool.or_eq_true, decide_eq_true_eq] at hd
          rcases hd with hd | rfl
          · exact isPlain_of_isWordChar (by simp [isWordChar, hd])
          · rfl
        exact .plain (htag c (by simp [isTagChar, Char.isAlphanum, hname]))
          (.of_plain fun d hd => htag d (List.all_eq_true.1 List.all_takeWhile d hd))
      · cases h
  all_goals
    cases h
    exact .of_plain (List.all_eq_true.1 rfl)

/-- In a value, a statement or a tag all blanks go before a token. -/
theorem scan_blanks {mode : Mode} (hmode : mode ∈ spacedModes) (h : scan mode s = .ok t) :
    t.gap = s.takeWhile isBlank ∧ t.start = s.dropWhile isBlank := by
  simp only [spacedModes, codeModes, List.mem_cons, List.not_mem_nil, or_false] at hmode
  rcases hmode with rfl | rfl | rfl | rfl
  · exact afterBlanks_start scanTag_start h
  · exact afterBlanks_start scanCode_start h
  · exact afterBlanks_start scanCode_start h
  · exact scanOperator_start h

/-- The text of a token of a value, a statement or a tag is similar to itself. -/
theorem scan_similar {mode : Mode} (hmode : mode ∈ spacedModes)
    (h : scan mode s = .ok t) : Similar t.text t.text := by
  simp only [spacedModes, codeModes, List.mem_cons, List.not_mem_nil, or_false] at hmode
  rcases hmode with rfl | rfl | rfl | rfl
  · obtain ⟨next, hnext, -, htext⟩ := exists_scan_of_afterBlanks h
    exact htext ▸ scanTag_similar hnext
  · exact (afterBlanks_written h).similar
  · exact (afterBlanks_written h).similar
  · rcases scanOperator_written h with hwritten | ⟨hkind, -⟩
    · exact hwritten.similar
    · have hwords := isNotIn_of_scanOperator h hkind
      exact hwords.similar hwords

end Token

end Stencil
