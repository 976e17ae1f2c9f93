import Stencil.Proofs.Lookahead

/-!
# What tokens hold

The text of a token of code says what its kind is, and the kind what the text may be
(`Token.Written`). The words `not in` are one token wherever an operator may stand, and there are
blanks between them (`Token.scanOperator_written`). No token ends with a blank (`Token.trimmed`).
Outside of code the openers of two characters are read whatever follows them
(`Token.scanText_of_opener`).
-/

namespace Stencil

variable {s rest : Input}

/-- Whether characters end with something else than a blank. -/
def Trimmed (text : List Char) : Prop := ∃ front c, text = front ++ [c] ∧ isBlank c = false

namespace Trimmed

/-- What comes before does not matter. -/
theorem append_left {text : List Char} (h : Trimmed text) (x : List Char) :
    Trimmed (x ++ text) := by
  obtain ⟨front, c, rfl, hc⟩ := h
  exact ⟨x ++ front, c, (List.append_assoc ..).symm, hc⟩

/-- What is left of characters that do not end with a blank does not do so either. -/
theorem of_append {x text : List Char} (h : Trimmed (x ++ text)) (hne : text ≠ []) :
    Trimmed text := by
  obtain ⟨front, c, heq, hc⟩ := h
  have hlast := congrArg List.getLast? heq
  rw [List.getLast?_append, List.getLast?_concat, List.getLast?_eq_some_getLast hne,
    Option.some_or] at hlast
  refine ⟨text.dropLast, text.getLast hne, (List.dropLast_concat_getLast hne).symm, ?_⟩
  rw [Option.some.inj hlast, hc]

/-- Characters that are no blanks do not end with one. -/
theorem of_forall {text : List Char} (hne : text ≠ []) (h : ∀ c ∈ text, isBlank c = false) :
    Trimmed text :=
  ⟨text.dropLast, text.getLast hne, (List.dropLast_concat_getLast hne).symm,
    h _ (List.getLast_mem hne)⟩

end Trimmed

/-! ## Numbers -/

namespace Numeral

/-- The characters of numbers: those of words, signs and the point. -/
def IsChar (c : Char) : Prop := isWordChar c = true ∨ c = '+' ∨ c = '-' ∨ c = '.'

/-- Digits are characters of words. -/
theorem isWordChar_of_isDigit {c : Char} (h : c.isDigit = true) : isWordChar c = true := by
  simp [isWordChar, Char.isAlphanum, h]

/-- Further digits of a group are characters of words. -/
theorem moreDigits_chars (s : Input) : ∀ c ∈ (moreDigits s).1, isWordChar c = true := by
  fun_induction moreDigits s with
  | case1 | case3 => nofun
  | case2 d s hd ds rest heq ih =>
    rw [heq] at ih
    refine List.forall_mem_cons.2 ⟨?_, ih⟩
    simp only [Bool.or_eq_true, Bool.and_eq_true, decide_eq_true_eq] at hd
    rcases hd with hdigit | ⟨rfl, -⟩
    · exact isWordChar_of_isDigit hdigit
    · rfl

/-- Digits are characters of words. -/
theorem digits_chars (s : Input) : ∀ c ∈ (digits s).1, isWordChar c = true := by
  unfold digits
  split
  · nofun
  · rename_i d s
    split
    · rename_i hd
      exact List.forall_mem_cons.2 ⟨isWordChar_of_isDigit hd, moreDigits_chars s⟩
    · nofun

/-- A sign is a character of numbers. -/
theorem sign_chars (s : Input) : ∀ c ∈ (sign s).1, IsChar c := by
  unfold sign
  split
  · exact List.forall_mem_singleton.2 (.inr (.inl rfl))
  · exact List.forall_mem_singleton.2 (.inr (.inr (.inl rfl)))
  · nofun

/-- A fraction holds characters of numbers. -/
theorem fraction_chars (whole s : Input) : ∀ c ∈ (fraction whole s).1, IsChar c := by
  unfold fraction
  split
  · rename_i s
    dsimp only
    split
    · nofun
    · exact List.forall_mem_cons.2 ⟨.inr (.inr (.inr rfl)), fun c hc => .inl (digits_chars s c hc)⟩
  · nofun

/-- An exponent holds characters of numbers. -/
theorem exponent_chars {s power rest : Input} (h : exponent s = some (power, rest)) :
    ∀ c ∈ power, IsChar c := by
  unfold exponent at h
  split at h
  · cases h
    nofun
  · rename_i d s
    split at h
    · rename_i hd
      dsimp only at h
      split at h
      · cases h
      · cases h
        refine List.forall_mem_cons.2 ⟨.inl ?_, List.forall_mem_append.2
          ⟨sign_chars s, fun c hc => .inl (digits_chars _ c hc)⟩⟩
        simp only [Bool.or_eq_true, decide_eq_true_eq] at hd
        rcases hd with rfl | rfl <;> rfl
    · cases h
      nofun

/-- A number holds the characters of numbers. -/
theorem scan?_text {t : Token} (h : scan? s = some t) : ∀ c ∈ t.text, IsChar c := by
  unfold scan? at h
  dsimp only at h
  split at h
  · cases h
  · rename_i power rest hpower
    split at h
    · cases h
    · cases h
      exact List.forall_mem_append.2 ⟨sign_chars s, List.forall_mem_append.2
        ⟨fun c hc => .inl (digits_chars _ c hc), List.forall_mem_append.2
          ⟨fraction_chars _ _, exponent_chars hpower⟩⟩⟩

end Numeral

/-! ## Strings -/

/-- The text up to a closing quote is closed by it. -/
theorem Quotation.close?_text {q : Char} {s text rest : List Char}
    (h : close? q s = some (text, rest)) : close? q text = some (text, []) := by
  fun_induction close? q s generalizing text rest with
  | case1 => cases h
  | case2 s ih =>
    obtain ⟨⟨text', rest'⟩, h', he⟩ := Option.map_eq_some_iff.1 h
    cases he
    simp [close?, ih h']
  | case3 c s hc ih =>
    obtain ⟨⟨text', rest'⟩, h', he⟩ := Option.map_eq_some_iff.1 h
    cases he
    have hmore := ih h'
    -- The text goes on with the character after the backslash.
    have hfirst : ∃ more, text' = c :: more := by
      have happend := close?_append h'
      cases text' with
      | nil => cases hmore
      | cons d more =>
        obtain ⟨rfl, -⟩ := List.cons_eq_cons.1 happend
        exact ⟨more, rfl⟩
    obtain ⟨more, rfl⟩ := hfirst
    simp [close?, hc, hmore]
  | case4 s =>
    cases h
    simp [close?]
  | case5 c s hslash hc ih =>
    obtain ⟨⟨text', rest'⟩, h', he⟩ := Option.map_eq_some_iff.1 h
    cases he
    rw [close?, if_neg hc, ih h']
    · rfl
    · intro d s' hback htext
      have happend := close?_append h'
      rw [htext, List.cons_append] at happend
      exact hslash d (s' ++ rest) hback happend.symm

/-- The text up to a closing quote ends with it. -/
theorem Quotation.close?_concat {q : Char} {s text rest : List Char}
    (h : close? q s = some (text, rest)) : ∃ front, text = front ++ [q] := by
  fun_induction close? q s generalizing text rest with
  | case1 => cases h
  | case2 s ih =>
    obtain ⟨⟨text', rest'⟩, h', he⟩ := Option.map_eq_some_iff.1 h
    cases he
    obtain ⟨front, rfl⟩ := ih h'
    exact ⟨'\\' :: q :: front, rfl⟩
  | case3 c s _ ih | case5 c s _ _ ih =>
    obtain ⟨⟨text', rest'⟩, h', he⟩ := Option.map_eq_some_iff.1 h
    cases he
    obtain ⟨front, rfl⟩ := ih h'
    exact ⟨_ :: front, rfl⟩
  | case4 s =>
    cases h
    exact ⟨[], rfl⟩

/-! ## Tokens of code -/

namespace Token

/-- What the text of a token of code is, by its kind. -/
inductive Written : TokenKind → List Char → Prop
  | atEnd : Written .endOfInput []
  | trim : Written .trim ['-']
  | number {kind : TokenKind} {text : List Char} (hkind : kind = .integer ∨ kind = .float)
    (htext : ∀ c ∈ text, Numeral.IsChar c) : Written kind text
  | quoted {q : Char} {text : List Char} (hq : q = '"' ∨ q = '\'')
    (htext : Quotation.close? q text = some (text, [])) : Written .quoted (q :: text)
  | word {c : Char} {text : List Char} (hc : isWordStart c = true)
    (htext : ∀ d ∈ text, isWordChar d = true) : Written .word (c :: text)
  | symbol {kind : TokenKind} {text : List Char} (h : (text, kind) ∈ symbols) : Written kind text

/-- A token of code is written as its kind says. -/
theorem scanCode_written {operand : Bool} {t : Token} (h : scanCode operand s = .ok t) :
    Written t.kind t.text := by
  cases codeToken_of_scanCode h with
  | atEnd => exact .atEnd
  | trim => exact .trim
  | number hscan => exact .number (Numeral.scan?_kind hscan) (Numeral.scan?_text hscan)
  | quoted hq hclose => exact .quoted hq (Quotation.close?_text hclose)
  | word hc => exact .word hc fun d hd => List.all_eq_true.1 List.all_takeWhile d hd
  | symbol hmem => exact .symbol hmem

/-- A token of code with blanks before it is written as its kind says. -/
theorem afterBlanks_written {operand : Bool} {t : Token}
    (h : afterBlanks (scanCode operand) s = .ok t) : Written t.kind t.text := by
  obtain ⟨next, hnext, hkind, htext⟩ := exists_scan_of_afterBlanks h
  rw [hkind, htext]
  exact scanCode_written hnext

/-- No token of code begins with a blank. -/
theorem isBlank_of_scanCode {operand : Bool} {c : Char} {t : Token}
    (h : scanCode operand (c :: s) = .ok t) : isBlank c = false := by
  cases hc : isBlank c with
  | false => rfl
  | true =>
    rcases eq_of_isBlank hc with rfl | rfl | rfl | rfl | rfl
    all_goals
      cases operand <;> cases h

/-- A token of code is read behind blanks too. -/
theorem afterBlanks_gap {operand : Bool} {b : List Char} {t : Token}
    (hb : ∀ c ∈ b, isBlank c = true) (h : scanCode operand s = .ok t) :
    afterBlanks (scanCode operand) (b ++ s) = .ok { t with gap := b } := by
  have hstart : s.takeWhile isBlank = [] ∧ s.dropWhile isBlank = s := by
    cases s with
    | nil => exact ⟨rfl, rfl⟩
    | cons c s =>
      have hc : ¬isBlank c = true := by simp [isBlank_of_scanCode h]
      exact ⟨List.takeWhile_cons_of_neg hc, List.dropWhile_cons_of_neg hc⟩
  rw [afterBlanks, List.dropWhile_append_of_pos hb, List.takeWhile_append_of_pos hb, hstart.1,
    hstart.2, h, List.append_nil]

/-- What is no word, number or string is a symbol. -/
theorem Written.mem_symbols {kind : TokenKind} {text : List Char} (h : Written kind text)
    (hkind : kind ∈ symbols.map Prod.snd) : (text, kind) ∈ symbols := by
  have hsymbols : ∀ k ∈ symbols.map Prod.snd, k ≠ .endOfInput ∧ k ≠ .trim ∧ k ≠ .integer ∧
      k ≠ .float ∧ k ≠ .quoted ∧ k ≠ .word := by decide
  obtain ⟨hend, htrim, hinteger, hfloat, hquoted, hword⟩ := hsymbols kind hkind
  cases h with
  | atEnd => exact absurd rfl hend
  | trim => exact absurd rfl htrim
  | number hnumber => exact absurd hnumber (by simp [hinteger, hfloat])
  | quoted => exact absurd rfl hquoted
  | word => exact absurd rfl hword
  | symbol hmem => exact hmem

/-- The words `not in` are no token of code. -/
theorem Written.ne_notIn {kind : TokenKind} {text : List Char} (h : Written kind text) :
    kind ≠ .notIn := by
  have hsymbols : ∀ symbol ∈ symbols, symbol.2 ≠ .notIn := by decide
  cases h with
  | number hkind => rcases hkind with rfl | rfl <;> nofun
  | symbol hmem => exact hsymbols _ hmem
  | _ => nofun

/-- A string does not end with a blank. -/
theorem trimmed_of_close {q : Char} {text : List Char} (hq : q = '"' ∨ q = '\'')
    (htext : Quotation.close? q text = some (text, [])) : Trimmed (q :: text) := by
  obtain ⟨front, hfront⟩ := Quotation.close?_concat htext
  exact ⟨q :: front, q, by rw [hfront, List.cons_append], by rcases hq with rfl | rfl <;> rfl⟩

/-- The text of a token of code does not end with a blank. -/
theorem Written.trimmed {kind : TokenKind} {text : List Char} (h : Written kind text)
    (hne : text ≠ []) : Trimmed text := by
  have hword : ∀ {c}, isWordChar c = true → isBlank c = false := by
    intro c hc
    cases hblank : isBlank c with
    | false => rfl
    | true =>
      rw [isWordChar_of_isBlank hblank] at hc
      cases hc
  cases h with
  | atEnd => exact absurd rfl hne
  | trim => exact .of_forall hne (List.forall_mem_singleton.2 rfl)
  | number _ htext =>
    refine .of_forall hne fun c hc => ?_
    rcases htext c hc with hchar | rfl | rfl | rfl
    · exact hword hchar
    all_goals rfl
  | quoted hq htext => exact trimmed_of_close hq htext
  | word hc htext =>
    refine .of_forall hne (List.forall_mem_cons.2 ⟨hword ?_, fun d hd => hword (htext d hd)⟩)
    simp only [isWordStart, isWordChar, Char.isAlphanum, Bool.or_eq_true] at hc ⊢
    exact hc.imp_left .inl
  | symbol hmem =>
    have hsymbols : ∀ symbol ∈ symbols, symbol.1.all (fun c => !isBlank c) = true := by decide
    exact .of_forall hne (by simpa using hsymbols _ hmem)

/-- No character of a word follows a word. -/
theorem head_rest_of_word {operand : Bool} {t : Token}
    (h : afterBlanks (scanCode operand) s = .ok t) (hkind : t.kind = .word) :
    ∀ c ∈ t.rest.head?, isWordChar c = false := by
  have hcode : ∀ {s : Input} {t : Token}, scanCode operand s = .ok t → t.kind = .word →
      ∀ c ∈ t.rest.head?, isWordChar c = false := by
    intro s t h hkind
    cases codeToken_of_scanCode h with
    | atEnd | trim | quoted => cases hkind
    | number hscan =>
      have hnumber := Numeral.scan?_kind hscan
      simp [hkind] at hnumber
    | @word c s =>
      intro d hd
      have hnot := List.head?_dropWhile_not isWordChar s
      rwa [Option.mem_def.1 hd] at hnot
    | symbol hmem =>
      have hsymbols : ∀ symbol ∈ symbols, symbol.2 ≠ .word := by decide
      exact absurd hkind (hsymbols _ hmem)
  obtain ⟨next, hnext, rfl⟩ := afterBlanks_eq_ok.1 h
  exact @hcode _ next hnext hkind

/-- A token where an operator may stand is a token of code, or the words `not in` with blanks
between them. -/
theorem scanOperator_written {t : Token} (h : scanOperator s = .ok t) :
    Written t.kind t.text ∨ t.kind = .notIn ∧
      ∃ gap, gap ≠ [] ∧ (∀ c ∈ gap, isBlank c = true) ∧
        t.text = "not".toList ++ (gap ++ "in".toList) := by
  cases scanOperator_eq_ok.1 h with
  | single hfirst => exact .inl (afterBlanks_written hfirst)
  | @notIn first second hfirst hnot hsecond hin =>
    obtain ⟨hgap, hstart⟩ := afterBlanks_start scanCode_start hsecond
    obtain ⟨hword, hnotText⟩ := isWord_iff.1 hnot
    obtain ⟨-, hinText⟩ := isWord_iff.1 hin
    refine .inr ⟨rfl, second.gap, ?_, @isBlank_of_mem_gap .code _ _ hsecond, ?_⟩
    · -- Without blanks the second word would belong to the first.
      intro hnil
      have hrest : first.rest = "in".toList ++ second.rest := by
        have hsplit := @List.takeWhile_append_dropWhile _ isBlank first.rest
        rw [← hgap, hnil, List.nil_append, ← hstart] at hsplit
        rw [← hsplit, start, hinText]
      have hhead := head_rest_of_word hfirst hword 'i' (by rw [hrest]; rfl)
      cases hhead
    · rw [hnotText, hinText]

/-- The text of a token of a tag does not end with a blank. -/
theorem scanTag_trimmed {t : Token} (h : scanTag s = .ok t) (hne : t.text ≠ []) :
    Trimmed t.text := by
  unfold scanTag at h
  split at h
  case h_1 =>
    cases h
    exact absurd rfl hne
  case h_6 c s _ _ _ _ =>
    split at h
    · rename_i hquote
      split at h
      · rename_i hscan
        cases h
        obtain ⟨_, hclose, rfl⟩ := Option.map_eq_some_iff.1 hscan
        exact trimmed_of_close (by simpa using hquote) (Quotation.close?_text hclose)
      · cases h
    · split at h
      · rename_i hname
        cases h
        have htag : ∀ d, isTagChar d = true → isBlank d = false := by
          intro d hd
          cases hblank : isBlank d with
          | false => rfl
          | true => rcases eq_of_isBlank hblank with rfl | rfl | rfl | rfl | rfl <;> cases hd
        refine .of_forall hne (List.forall_mem_cons.2 ⟨htag c ?_, fun d hd =>
          htag d (List.all_eq_true.1 List.all_takeWhile d hd)⟩)
        simp [isTagChar, Char.isAlphanum, hname]
      · cases h
  all_goals
    cases h
    exact .of_forall hne (by simp [isBlank])

/-- The modes in which blanks go before tokens. -/
def spacedModes : List Mode := .tag :: codeModes

/-- The text of a token of a value, a statement or a tag does not end with a blank. -/
theorem trimmed {mode : Mode} {t : Token} (hmode : mode ∈ spacedModes) (h : scan mode s = .ok t)
    (hne : t.text ≠ []) : Trimmed t.text := by
  simp only [spacedModes, codeModes, List.mem_cons, List.not_mem_nil, or_false] at hmode
  rcases hmode with rfl | rfl | rfl | rfl
  · obtain ⟨next, hnext, -, htext⟩ := exists_scan_of_afterBlanks h
    rw [htext] at hne ⊢
    exact scanTag_trimmed hnext hne
  · exact (afterBlanks_written h).trimmed hne
  · exact (afterBlanks_written h).trimmed hne
  · rcases scanOperator_written h with hwritten | ⟨-, gap, -, -, htext⟩
    · exact hwritten.trimmed hne
    · rw [htext]
      exact ⟨"not".toList ++ (gap ++ ['i']), 'n', by simp, rfl⟩

/-! ## Openers and the ends of comments -/

/-- The openers that are two characters long, as they are written. -/
def openerTexts : List (List Char × TokenKind) :=
  [(['{', '{'], .valueOpen), (['{', '%'], .statementOpen), (['{', '#'], .commentOpen),
    (['<', '/'], .endTagOpen)]

/-- An opener is read whatever follows it. -/
theorem scanText_of_opener {opener : List Char} {k : TokenKind}
    (h : (opener, k) ∈ openerTexts) (y : Input) : scanText (opener ++ y) = ⟨k, [], opener, y⟩ := by
  simp only [openerTexts, List.mem_cons, List.not_mem_nil, or_false, Prod.mk.injEq] at h
  rcases h with ⟨rfl, rfl⟩ | ⟨rfl, rfl⟩ | ⟨rfl, rfl⟩ | ⟨rfl, rfl⟩ <;> rfl

/-- An opener of a kind is written as that kind is. -/
theorem exists_of_opener {opener : List Char} {k : TokenKind} (h : (opener, k) ∈ openerTexts)
    (hk : (scanText s).kind = k) : ∃ y, s = opener ++ y := by
  simp only [openerTexts, List.mem_cons, List.not_mem_nil, or_false, Prod.mk.injEq] at h
  unfold scanText at hk
  rcases h with ⟨rfl, rfl⟩ | ⟨rfl, rfl⟩ | ⟨rfl, rfl⟩ | ⟨rfl, rfl⟩
  all_goals
    split at hk
    all_goals first
      | exact ⟨_, rfl⟩
      | cases hk

/-- Where a comment ends two characters tell so. -/
theorem exists_of_commentClose (hk : (scanComment s).kind = .commentClose) :
    ∃ rest, s = '#' :: '}' :: rest := by
  unfold scanComment at hk
  split at hk
  · cases hk
  · exact ⟨_, rfl⟩
  · cases hk

end Token

end Stencil
