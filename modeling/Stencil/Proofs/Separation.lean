import Stencil.Token.Scan

/-!
# Tokens before blanks

A blank ends a token: what is read of code up to a blank is what would be read if the input ended
there (`Token.scanCode_blank`). Every form of a token is looked through in turn; none goes on with a
blank, and none looks further than the first character that does not belong to it. For numbers it is
shown of every character that none goes on with (`Numeral.Stops`), and for all tokens but strings of
quotes too (`Token.scanCode_stop`).
-/

namespace Stencil

variable {c : Char} {x : Input}

/-- A blank is one of five characters. -/
theorem eq_of_isBlank (hc : isBlank c = true) :
    c = ' ' ∨ c = '\t' ∨ c = '\n' ∨ c = '\r' ∨ c = '\x0c' := by
  simpa [isBlank, or_assoc] using hc

/-- A blank is no character of a word. -/
theorem isWordChar_of_isBlank (hc : isBlank c = true) : isWordChar c = false := by
  rcases eq_of_isBlank hc with rfl | rfl | rfl | rfl | rfl <;> rfl

/-- A blank differs from a character that is none. -/
theorem ne_of_isBlank {d : Char} (hc : isBlank c = true) (hd : isBlank d = false) : c ≠ d := by
  rintro rfl
  rw [hc] at hd
  cases hd

/-! ## Numbers -/

namespace Numeral

/-- Whether a number does not go on with a character, wherever it has come to. -/
structure Stops (c : Char) : Prop where
  word : isWordChar c = false
  plus : c ≠ '+'
  minus : c ≠ '-'
  point : c ≠ '.'

/-- A character that a number does not go on with is no digit. -/
theorem Stops.isDigit (hc : Stops c) : c.isDigit = false := by
  have hword := hc.word
  simp only [isWordChar, Char.isAlphanum, Bool.or_eq_false_iff] at hword
  exact hword.1.2

/-- A character that a number does not go on with differs from those of words. -/
theorem Stops.ne {d : Char} (hc : Stops c) (hd : isWordChar d = true) : c ≠ d := by
  rintro rfl
  rw [hc.word] at hd
  cases hd

/-- Further digits end before a character that no number goes on with. -/
theorem moreDigits_stop (hc : Stops c) (s : Input) :
    moreDigits (s ++ c :: x) = ((moreDigits s).1, (moreDigits s).2 ++ c :: x) := by
  have hunderscore : c ≠ '_' := hc.ne rfl
  induction s with
  | nil => simp [moreDigits, hc.isDigit, hunderscore]
  | cons d s ih =>
    have hhead : ((s ++ c :: x).head? != some '_') = (s.head? != some '_') := by
      cases s with
      | nil =>
        show (some c != some '_') = true
        simpa using hunderscore
      | cons e s => rfl
    simp only [List.cons_append, moreDigits, hhead, ih]
    split <;> rfl

/-- Digits end before a character that no number goes on with. -/
theorem digits_stop (hc : Stops c) (s : Input) :
    digits (s ++ c :: x) = ((digits s).1, (digits s).2 ++ c :: x) := by
  cases s with
  | nil => simp [digits, hc.isDigit]
  | cons d s =>
    simp only [List.cons_append, digits, moreDigits_stop hc]
    split <;> rfl

/-- A sign ends before a character that no number goes on with. -/
theorem sign_stop (hc : Stops c) (s : Input) :
    sign (s ++ c :: x) = ((sign s).1, (sign s).2 ++ c :: x) := by
  have hplus : c ≠ '+' := hc.plus
  have hminus : c ≠ '-' := hc.minus
  cases s with
  | nil => simp [sign, hplus, hminus]
  | cons d s =>
    by_cases hd : d = '+'
    · subst hd
      rfl
    by_cases hd' : d = '-'
    · subst hd'
      rfl
    simp [sign, hd, hd']

/-- A point and the digits after it end before a character that no number goes on with. -/
theorem fraction_stop (hc : Stops c) (whole : List Char) (s : Input) :
    fraction whole (s ++ c :: x) = ((fraction whole s).1, (fraction whole s).2 ++ c :: x) := by
  have hpoint : c ≠ '.' := hc.point
  cases s with
  | nil => simp [fraction, hpoint]
  | cons d s =>
    by_cases hd : d = '.'
    · subst hd
      simp only [List.cons_append, fraction, digits_stop hc]
      split <;> rfl
    · simp [fraction, hd]

/-- An exponent ends before a character that no number goes on with. -/
theorem exponent_stop (hc : Stops c) (s : Input) :
    exponent (s ++ c :: x) =
      (exponent s).map fun (power, rest) => (power, rest ++ c :: x) := by
  have hlower : c ≠ 'e' := hc.ne rfl
  have hupper : c ≠ 'E' := hc.ne rfl
  cases s with
  | nil => simp [exponent, hlower, hupper]
  | cons d s =>
    simp only [List.cons_append, exponent, sign_stop hc, digits_stop hc]
    split
    · split <;> rfl
    · rfl

/-- A number ends before a character that no number goes on with. -/
theorem scan?_stop (hc : Stops c) (s : Input) :
    scan? (s ++ c :: x) = (scan? s).map fun t => { t with rest := t.rest ++ c :: x } := by
  simp only [scan?, sign_stop hc, digits_stop hc, fraction_stop hc, exponent_stop hc]
  cases exponent (fraction (digits (sign s).2).1 (digits (sign s).2).2).2 with
  | none => rfl
  | some last =>
    obtain ⟨power, rest⟩ := last
    have hhead : (rest ++ c :: x).head?.any isWordChar = rest.head?.any isWordChar := by
      cases rest with
      | nil => simpa using hc.word
      | cons e rest => rfl
    simp only [Option.map_some, hhead]
    split <;> rfl

/-- Whether an unsigned number begins is seen before a character that no number goes on with. -/
theorem startsUnsigned_stop (hc : Stops c) (s : Input) :
    startsUnsigned (s ++ c :: x) = startsUnsigned s := by
  have hpoint : c ≠ '.' := hc.point
  have hdigit := hc.isDigit
  match s with
  | [] => simp [startsUnsigned, hpoint, hdigit]
  | [d] =>
    by_cases hd : d = '.'
    · subst hd
      simp [startsUnsigned, hdigit]
    · simp [startsUnsigned, hd]
  | d :: e :: s =>
    by_cases hd : d = '.'
    · subst hd
      rfl
    · simp [startsUnsigned, hd]

/-- Whether a number begins is seen before a character that no number goes on with. -/
theorem starts_stop (hc : Stops c) (s : Input) : starts (s ++ c :: x) = starts s := by
  have hplus : c ≠ '+' := hc.plus
  have hminus : c ≠ '-' := hc.minus
  have hunsigned := startsUnsigned_stop hc (x := x)
  cases s with
  | nil => simpa [starts, hplus, hminus] using hunsigned []
  | cons d s =>
    by_cases hd : d = '+'
    · subst hd
      exact hunsigned s
    by_cases hd' : d = '-'
    · subst hd'
      exact hunsigned s
    simpa [starts, hd, hd'] using hunsigned (d :: s)

end Numeral

/-! ## Strings -/

/-- A closing quote is found whatever follows it. -/
theorem Quotation.close?_append_right {q : Char} (hq : q ≠ '\\') {s text rest : List Char}
    (h : close? q s = some (text, rest)) (more : List Char) :
    close? q (s ++ more) = some (text, rest ++ more) := by
  fun_induction close? q s generalizing text rest with
  | case1 => cases h
  | case2 s ih =>
    obtain ⟨⟨text', rest'⟩, h', he⟩ := Option.map_eq_some_iff.1 h
    cases he
    simp [close?, ih h']
  | case3 c s hc ih =>
    obtain ⟨⟨text', rest'⟩, h', he⟩ := Option.map_eq_some_iff.1 h
    cases he
    have ih := ih h'
    rw [List.cons_append] at ih
    simp [close?, hc, ih]
  | case4 s =>
    cases h
    rw [List.cons_append, close?, if_pos rfl]
    intro _ _ hslash
    exact absurd hslash hq
  | case5 c s hslash hc ih =>
    obtain ⟨⟨text', rest'⟩, h', he⟩ := Option.map_eq_some_iff.1 h
    cases he
    rw [List.cons_append, close?, if_neg hc, ih h']
    · rfl
    · -- A backslash at the end of the input is followed by no closing quote.
      intro d s' hback _
      cases s with
      | nil => cases h'
      | cons e s => exact hslash e s hback rfl

/-! ## Code -/

/-- Whether a character is its own between the tokens of a value: neither a blank nor a quote. -/
def isPlain (c : Char) : Bool := !isBlank c && c ≠ '"' && c ≠ '\''

/-- What is not plain is a blank or a quote. -/
theorem eq_of_not_isPlain (hc : isPlain c = false) : isBlank c = true ∨ c = '"' ∨ c = '\'' := by
  simpa [isPlain, Classical.or_iff_not_imp_left] using hc

/-- What is not plain differs from a plain character. -/
theorem ne_of_not_isPlain {d : Char} (hc : isPlain c = false) (hd : isPlain d = true) : c ≠ d := by
  rintro rfl
  rw [hd] at hc
  cases hc

/-- A blank is not plain. -/
theorem not_isPlain_of_isBlank (hc : isBlank c = true) : isPlain c = false := by
  simp [isPlain, hc]

/-- A number goes on with plain characters only. -/
theorem Numeral.stops_of_not_isPlain (hc : isPlain c = false) : Stops c := by
  refine ⟨?_, ne_of_not_isPlain hc rfl, ne_of_not_isPlain hc rfl, ne_of_not_isPlain hc rfl⟩
  rcases eq_of_not_isPlain hc with hc | rfl | rfl
  · exact isWordChar_of_isBlank hc
  · rfl
  · rfl

namespace Token

/-- What a text of plain characters is the beginning of does not depend on what comes after a
character that is not plain. -/
theorem isPrefixOf_stop {text : List Char} (htext : text.all isPlain = true)
    (hc : isPlain c = false) (s : Input) : text.isPrefixOf (s ++ c :: x) = text.isPrefixOf s := by
  induction text generalizing s with
  | nil => simp
  | cons d text ih =>
    rw [List.all_cons, Bool.and_eq_true] at htext
    obtain ⟨hd, htext⟩ := htext
    cases s with
    | nil => simp [List.isPrefixOf_cons_cons, (ne_of_not_isPlain hc hd).symm]
    | cons e s => simp [List.isPrefixOf_cons_cons, ih htext]

/-- A token of fixed text is the same in front of more input, if no other of the texts begins
there. -/
theorem scanSymbol?_in_front {s : Input}
    (h : ∀ symbol ∈ symbols, symbol.1.isPrefixOf (s ++ x) = symbol.1.isPrefixOf s) :
    scanSymbol? (s ++ x) = (scanSymbol? s).map fun t => { t with rest := t.rest ++ x } := by
  unfold scanSymbol?
  generalize symbols = symbols at h ⊢
  induction symbols with
  | nil => rfl
  | cons symbol others ih =>
    obtain ⟨hsymbol, hothers⟩ := List.forall_mem_cons.1 h
    obtain ⟨text, kind⟩ := symbol
    simp only [List.findSome?_cons, hsymbol]
    by_cases hbegins : text.isPrefixOf s = true
    · obtain ⟨rest, rfl⟩ := List.isPrefixOf_iff_prefix.1 hbegins
      simp
    · simpa [hbegins] using ih hothers

/-- A token of fixed text ends before a character that is not plain. -/
theorem scanSymbol?_stop (hc : isPlain c = false) (s : Input) :
    scanSymbol? (s ++ c :: x) =
      (scanSymbol? s).map fun t => { t with rest := t.rest ++ c :: x } := by
  have hsymbols : ∀ symbol ∈ symbols, symbol.1.all isPlain = true := by decide
  exact scanSymbol?_in_front fun symbol hmem => isPrefixOf_stop (hsymbols symbol hmem) hc s

/-- A run of characters of one class ends before a character of another class. -/
theorem takeWhile_stop {p : Char → Bool} (hc : p c = false) (s : Input) :
    (s ++ c :: x).takeWhile p = s.takeWhile p ∧
      (s ++ c :: x).dropWhile p = s.dropWhile p ++ c :: x := by
  induction s with
  | nil => simp [hc]
  | cons d s ih =>
    by_cases hd : p d = true
    · simp [hd, ih]
    · simp [hd]

/-- A hyphen that does not touch the end of a statement does not do so in front of a character that
is not plain. -/
theorem not_trim_stop {d : Char} {s : Input} (hc : isPlain c = false)
    (h : ∀ rest, d = '-' → s = '%' :: '}' :: rest → False) :
    ∀ rest, d = '-' → s ++ c :: x = '%' :: '}' :: rest → False := by
  intro rest hd happend
  match s, happend with
  | [], happend => exact ne_of_not_isPlain hc rfl (List.cons_eq_cons.1 happend).1
  | [e], happend =>
    exact ne_of_not_isPlain hc rfl (List.cons_eq_cons.1 (List.cons_eq_cons.1 happend).2).1
  | e :: f :: s, happend =>
    obtain ⟨rfl, hnext⟩ := List.cons_eq_cons.1 happend
    obtain ⟨rfl, -⟩ := List.cons_eq_cons.1 hnext
    exact h s hd rfl

/-- A token of code that is no string ends before a character that is not plain. -/
theorem scanCode_stop {operand : Bool} {d : Char} (hd : d ≠ '"' ∧ d ≠ '\'') (hc : isPlain c = false)
    (s : Input) :
    scanCode operand (d :: s ++ c :: x) =
      (scanCode operand (d :: s)).map fun t => { t with rest := t.rest ++ c :: x } := by
  have hstops := Numeral.stops_of_not_isPlain hc
  have hquote : ¬(decide (d = '"') || decide (d = '\'')) = true := by simp [hd]
  by_cases htrim : ∃ rest, d = '-' ∧ s = '%' :: '}' :: rest
  · obtain ⟨rest, rfl, rfl⟩ := htrim
    rfl
  have hclose : ∀ rest, d = '-' → s = '%' :: '}' :: rest → False :=
    fun rest hd hs => htrim ⟨rest, hd, hs⟩
  obtain ⟨htake, hdrop⟩ := takeWhile_stop (x := x) hstops.word s
  rw [List.cons_append, scanCode.eq_3 _ _ _ (not_trim_stop hc hclose), ← List.cons_append,
    Numeral.starts_stop hstops, Numeral.scan?_stop hstops, scanSymbol?_stop hc, htake, hdrop,
    scanCode.eq_3 _ _ _ hclose, if_neg hquote, if_neg hquote]
  by_cases hnumber : (d.isDigit || (operand && Numeral.starts (d :: s))) = true
  · rw [if_pos hnumber, if_pos hnumber]
    cases Numeral.scan? (d :: s) <;> rfl
  rw [if_neg hnumber, if_neg hnumber]
  by_cases hword : isWordStart d = true
  · rw [if_pos hword, if_pos hword]
    rfl
  · rw [if_neg hword, if_neg hword]
    cases scanSymbol? (d :: s) <;> rfl

/-- A quote begins a string. -/
theorem scanCode_quote {operand : Bool} {q : Char} (hq : q = '"' ∨ q = '\'') (s : Input) :
    scanCode operand (q :: s) =
      match Quotation.scan? q s with
      | some t => .ok t
      | none => .error .unterminatedStringLiteral := by
  have hother : ∀ d, d ≠ '"' → d ≠ '\'' → q ≠ d := by
    rintro d hdouble hsingle rfl
    exact hq.elim hdouble hsingle
  have hdigit : q.isDigit = false := by rcases hq with rfl | rfl <;> rfl
  have hnumber : ¬(q.isDigit || (operand && Numeral.starts (q :: s))) = true := by
    rcases hq with rfl | rfl <;> simp [Numeral.starts, Numeral.startsUnsigned, hdigit]
  have heq := scanCode.eq_3 operand q s fun _ hhyphen =>
    absurd hhyphen (hother '-' (by decide) (by decide))
  rw [if_neg hnumber, if_pos (by simpa using hq)] at heq
  exact heq

/-- A token of code ends before a blank. -/
theorem scanCode_blank {operand : Bool} {s : Input} {t : Token} (hc : isBlank c = true)
    (hs : s ≠ []) (h : scanCode operand s = .ok t) :
    scanCode operand (s ++ c :: x) = .ok { t with rest := t.rest ++ c :: x } := by
  obtain ⟨d, s, rfl⟩ := List.exists_cons_of_ne_nil hs
  by_cases hquote : d = '"' ∨ d = '\''
  · have hslash : d ≠ '\\' := by
      rintro rfl
      simp at hquote
    rw [scanCode_quote hquote] at h
    rw [List.cons_append, scanCode_quote hquote]
    cases hscan : Quotation.scan? d s with
    | none =>
      rw [hscan] at h
      cases h
    | some t' =>
      rw [hscan] at h
      cases h
      obtain ⟨⟨text, rest⟩, hclosing, rfl⟩ := Option.map_eq_some_iff.1 hscan
      have hmore := Quotation.close?_append_right hslash hclosing (c :: x)
      rw [Quotation.scan?, hmore]
      rfl
  · rw [scanCode_stop (not_or.1 hquote) (not_isPlain_of_isBlank hc), h]
    rfl

end Token

end Stencil
