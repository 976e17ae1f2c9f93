import Stencil.Proofs.Separation
import Stencil.Grammar.Part

/-!
# Tokens before more input

A token does not change when more input follows, as long as what is left says where it stops. Inside
a value or a statement it is enough that the two characters which end one are still to come
(`Closes`): no token goes on over them, and none looks further ahead. Inside a tag it is enough that
its closing bracket is still to come. The main statements are `Token.scan_append_of_closes` and
`Token.scan_append_of_bracket`.
-/

namespace Stencil

variable {s rest x : Input}

/-- The token, in front of more input. -/
def Token.append (t : Token) (x : Input) : Token := { t with rest := t.rest ++ x }

namespace Token

@[simp]
theorem append_kind (t : Token) : (t.append x).kind = t.kind := rfl

@[simp]
theorem append_gap (t : Token) : (t.append x).gap = t.gap := rfl

@[simp]
theorem append_text (t : Token) : (t.append x).text = t.text := rfl

@[simp]
theorem append_rest (t : Token) : (t.append x).rest = t.rest ++ x := rfl

@[simp]
theorem append_isWord (t : Token) (w : String) : (t.append x).isWord w = t.isWord w := rfl

end Token

/-- Two characters that end a value or a statement are still to come. -/
def Closes (s : Input) : Prop :=
  ∃ before c after, s = before ++ c :: '}' :: after ∧ (c = '}' ∨ c = '%')

namespace Closes

/-- What is to come of the end of an input is to come of the input. -/
theorem mono (h : Closes rest) (hs : rest <:+ s) : Closes s := by
  obtain ⟨text, rfl⟩ := hs
  obtain ⟨before, c, after, rfl, hc⟩ := h
  exact ⟨text ++ before, c, after, by simp, hc⟩

/-- The two characters do not begin in text without them. -/
theorem of_append {text : List Char} (htext : ∀ c ∈ text, c ≠ '}' ∧ c ≠ '%')
    (h : Closes (text ++ s)) : Closes s := by
  induction text with
  | nil => exact h
  | cons d text ih =>
    refine ih (fun c hc => htext c (List.mem_cons_of_mem d hc)) ?_
    obtain ⟨before, c, after, heq, hc⟩ := h
    cases before with
    | nil =>
      obtain ⟨rfl, -⟩ := List.cons_eq_cons.1 heq
      obtain ⟨hbrace, hpercent⟩ := htext d List.mem_cons_self
      exact absurd hc (by simp [hbrace, hpercent])
    | cons e before => exact ⟨before, c, after, (List.cons_eq_cons.1 heq).2, hc⟩

/-- The two characters do not begin with another one. -/
theorem tail {d : Char} (hd : d ≠ '}' ∧ d ≠ '%') (h : Closes (d :: s)) : Closes s := by
  have htext : ∀ c ∈ [d], c ≠ '}' ∧ c ≠ '%' := by simpa using hd
  exact of_append htext h

/-- Two characters are still to come, two at least. -/
theorem two_le_length (h : Closes s) : 2 ≤ s.length := by
  obtain ⟨before, c, after, rfl, -⟩ := h
  simp
  omega

/-- The first of the two characters is one that no token goes on with. -/
theorem exists_stops (h : Closes s) :
    ∃ before c after, s = before ++ c :: after ∧ Numeral.Stops c ∧ isBlank c = false := by
  obtain ⟨before, c, after, rfl, hc⟩ := h
  refine ⟨before, c, '}' :: after, rfl, ?_⟩
  rcases hc with rfl | rfl
  · exact ⟨⟨rfl, by decide, by decide, by decide⟩, rfl⟩
  · exact ⟨⟨rfl, by decide, by decide, by decide⟩, rfl⟩

end Closes

/-! ## Tokens -/

/-- A run of characters of one class ends before what follows, if there is a character of another
class. -/
theorem takeWhile_append_of_mem {p : Char → Bool} {c : Char} (hc : p c = false) (hmem : c ∈ s)
    (x : Input) :
    (s ++ x).takeWhile p = s.takeWhile p ∧ (s ++ x).dropWhile p = s.dropWhile p ++ x := by
  obtain ⟨before, after, rfl⟩ := List.append_of_mem hmem
  have hshort := @Token.takeWhile_stop c after p hc before
  have hlong := @Token.takeWhile_stop c (after ++ x) p hc before
  rw [List.append_assoc, List.cons_append, hshort.1, hshort.2, hlong.1, hlong.2]
  simp

/-- A character of another class comes behind a run of characters of one class. -/
theorem mem_dropWhile_of_not {p : Char → Bool} {c : Char} (hmem : c ∈ s) (hc : p c = false) :
    c ∈ s.dropWhile p := by
  rw [← @List.takeWhile_append_dropWhile _ p s] at hmem
  refine (List.mem_append.1 hmem).resolve_left fun hrun => ?_
  rw [List.all_eq_true.1 List.all_takeWhile c hrun] at hc
  cases hc

namespace Token

/-- A number is the same in front of more input. -/
theorem numeral_append (hs : Closes s) (x : Input) :
    Numeral.starts (s ++ x) = Numeral.starts s ∧
      Numeral.scan? (s ++ x) = (Numeral.scan? s).map fun t => t.append x := by
  obtain ⟨before, c, after, rfl, hc, -⟩ := hs.exists_stops
  rw [List.append_assoc, List.cons_append, Numeral.starts_stop hc, Numeral.starts_stop hc,
    Numeral.scan?_stop hc, Numeral.scan?_stop hc, Option.map_map]
  refine ⟨rfl, ?_⟩
  cases Numeral.scan? before with
  | none => rfl
  | some t => simp [append]

/-- A string is the same in front of more input. -/
theorem quotation_append {q : Char} {t : Token}
    (hq : (decide (q = '"') || decide (q = '\'')) = true) (h : Quotation.scan? q s = some t)
    (x : Input) : Quotation.scan? q (s ++ x) = some (t.append x) := by
  have hslash : q ≠ '\\' := by
    rintro rfl
    simp at hq
  obtain ⟨⟨text, rest⟩, hclosing, rfl⟩ := Option.map_eq_some_iff.1 h
  rw [Quotation.scan?, Quotation.close?_append_right hslash hclosing x]
  rfl

/-- A token of fixed text is the same in front of more input. -/
theorem scanSymbol?_append (hs : 2 ≤ s.length) (x : Input) :
    scanSymbol? (s ++ x) = (scanSymbol? s).map fun t => t.append x := by
  have hsymbols : ∀ symbol ∈ symbols, symbol.1.length ≤ 2 := by decide
  refine scanSymbol?_in_front fun symbol hmem => ?_
  have hlength : symbol.1.length ≤ s.length := Nat.le_trans (hsymbols symbol hmem) hs
  rw [Bool.eq_iff_iff, List.isPrefixOf_iff_prefix, List.isPrefixOf_iff_prefix]
  exact ⟨fun h => List.prefix_of_prefix_length_le h (List.prefix_append s x) hlength,
    fun h => h.trans (List.prefix_append s x)⟩

/-- A token of code is the same in front of more input, unless it is a string that is not closed. -/
theorem scanCode_append {operand : Bool} (hs : Closes s) (x : Input) :
    (scanCode operand (s ++ x) = (scanCode operand s).map fun t => t.append x) ∨
      scanCode operand s = .error .unterminatedStringLiteral ∧
        ∀ t, scanCode operand (s ++ x) = .ok t → t.kind = .quoted := by
  obtain ⟨hstarts, hnumeral⟩ := numeral_append hs x
  have hsymbol := scanSymbol?_append hs.two_le_length x
  have hpos : 0 < s.length := Nat.lt_of_lt_of_le Nat.zero_lt_two hs.two_le_length
  obtain ⟨d, s, rfl⟩ := List.exists_cons_of_length_pos hpos
  by_cases htrim : ∃ rest, d = '-' ∧ s = '%' :: '}' :: rest
  · obtain ⟨rest, rfl, rfl⟩ := htrim
    exact .inl rfl
  -- What follows does not make a hyphen touch the end of a statement.
  have hclose : ∀ rest, d = '-' → s = '%' :: '}' :: rest → False :=
    fun rest hd hs => htrim ⟨rest, hd, hs⟩
  have hopen : ∀ rest, d = '-' → s ++ x = '%' :: '}' :: rest → False := by
    rintro rest rfl happend
    have hmore : Closes s := hs.tail (by decide)
    have htwo := hmore.two_le_length
    rcases s with _ | ⟨e, _ | ⟨f, s⟩⟩
    · cases htwo
    · cases Nat.le_of_succ_le_succ htwo
    · simp only [List.cons_append, List.cons.injEq] at happend
      obtain ⟨rfl, rfl, -⟩ := happend
      exact hclose s rfl rfl
  rw [List.cons_append] at hstarts hnumeral hsymbol ⊢
  rw [scanCode.eq_3 _ _ _ hopen, scanCode.eq_3 _ _ _ hclose, hstarts, hnumeral, hsymbol]
  by_cases hnumber : (d.isDigit || (operand && Numeral.starts (d :: s))) = true
  · rw [if_pos hnumber, if_pos hnumber]
    cases Numeral.scan? (d :: s) <;> exact .inl rfl
  rw [if_neg hnumber, if_neg hnumber]
  by_cases hquote : (decide (d = '"') || decide (d = '\'')) = true
  · rw [if_pos hquote, if_pos hquote]
    cases hscan : Quotation.scan? d s with
    | some t =>
      rw [quotation_append hquote hscan x]
      exact .inl rfl
    | none =>
      refine .inr ⟨rfl, fun t ht => ?_⟩
      cases hmore : Quotation.scan? d (s ++ x) with
      | none =>
        rw [hmore] at ht
        cases ht
      | some t' =>
        rw [hmore] at ht
        cases ht
        obtain ⟨_, -, rfl⟩ := Option.map_eq_some_iff.1 hmore
        rfl
  rw [if_neg hquote, if_neg hquote]
  by_cases hword : isWordStart d = true
  · rw [if_pos hword, if_pos hword]
    have hmore : Closes s := by
      refine hs.tail ⟨?_, ?_⟩
      · rintro rfl
        cases hword
      · rintro rfl
        cases hword
    obtain ⟨before, c, after, rfl, hc, -⟩ := hmore.exists_stops
    obtain ⟨htake, hdrop⟩ := takeWhile_append_of_mem hc.word List.mem_append_cons_self x
    rw [htake, hdrop]
    exact .inl rfl
  · rw [if_neg hword, if_neg hword]
    cases scanSymbol? (d :: s) <;> exact .inl rfl

/-- A token of code that is read is the same in front of more input. -/
theorem scanCode_append_of_ok {operand : Bool} {t : Token} (hs : Closes s)
    (h : scanCode operand s = .ok t) (x : Input) :
    scanCode operand (s ++ x) = .ok (t.append x) := by
  rcases scanCode_append hs x with heq | ⟨herror, -⟩
  · rw [heq, h]
    rfl
  · rw [h] at herror
    cases herror

/-- Blanks end before what follows, if a value or a statement is to be closed. -/
theorem blanks_append (hs : Closes s) (x : Input) :
    (s ++ x).takeWhile isBlank = s.takeWhile isBlank ∧
      (s ++ x).dropWhile isBlank = s.dropWhile isBlank ++ x ∧ Closes (s.dropWhile isBlank) := by
  obtain ⟨before, c, after, hsource, -, hc⟩ := hs.exists_stops
  have hmem : c ∈ s := by simp [hsource]
  obtain ⟨htake, hdrop⟩ := takeWhile_append_of_mem hc hmem x
  refine ⟨htake, hdrop, ?_⟩
  rw [← @List.takeWhile_append_dropWhile _ isBlank s] at hs
  refine hs.of_append fun d hd => ?_
  have hblank := List.all_eq_true.1 List.all_takeWhile d hd
  exact ⟨ne_of_isBlank hblank rfl, ne_of_isBlank hblank rfl⟩

/-- A token with the blanks before it is the same in front of more input, if the blanks and the
token are. -/
theorem afterBlanks_eq_append {scan : Input → Except Cause Token} {t : Token}
    (htake : (s ++ x).takeWhile isBlank = s.takeWhile isBlank)
    (hdrop : (s ++ x).dropWhile isBlank = s.dropWhile isBlank ++ x)
    (hscan : ∀ {t}, scan (s.dropWhile isBlank) = .ok t →
      scan (s.dropWhile isBlank ++ x) = .ok (t.append x))
    (h : afterBlanks scan s = .ok t) : afterBlanks scan (s ++ x) = .ok (t.append x) := by
  obtain ⟨next, hnext, rfl⟩ := afterBlanks_eq_ok.1 h
  exact afterBlanks_eq_ok.2 ⟨next.append x, hdrop ▸ hscan hnext, by rw [htake]; rfl⟩

/-- A token of code with the blanks before it is the same in front of more input. -/
theorem afterBlanks_append {operand : Bool} {t : Token} (hs : Closes s)
    (h : afterBlanks (scanCode operand) s = .ok t) (x : Input) :
    afterBlanks (scanCode operand) (s ++ x) = .ok (t.append x) := by
  obtain ⟨htake, hdrop, hmore⟩ := blanks_append hs x
  exact afterBlanks_eq_append htake hdrop (fun hscan => scanCode_append_of_ok hmore hscan x) h

/-- What tokens of code hold, by their kind. -/
theorem scanCode_text {operand : Bool} {t : Token} (h : scanCode operand s = .ok t) :
    (t.kind = .word → ∀ c ∈ t.text, isWordChar c = true) ∧
      (t.kind = .valueClose → t.text = ['}', '}']) ∧
      (t.kind = .statementClose → t.text = ['%', '}']) := by
  have other : ∀ {t : Token}, t.kind ≠ .word → t.kind ≠ .valueClose → t.kind ≠ .statementClose →
      (t.kind = .word → ∀ c ∈ t.text, isWordChar c = true) ∧
        (t.kind = .valueClose → t.text = ['}', '}']) ∧
        (t.kind = .statementClose → t.text = ['%', '}']) :=
    fun hword hvalue hstatement => ⟨fun h => absurd h hword, fun h => absurd h hvalue,
      fun h => absurd h hstatement⟩
  cases codeToken_of_scanCode h with
  | atEnd => exact other (by simp [atEnd]) (by simp [atEnd]) (by simp [atEnd])
  | trim | quoted => exact other (by simp) (by simp) (by simp)
  | number hscan =>
    obtain hkind | hkind := Numeral.scan?_kind hscan
    all_goals exact other (by simp [hkind]) (by simp [hkind]) (by simp [hkind])
  | word hstart =>
    refine ⟨fun _ c hc => ?_, fun h => absurd h (by simp), fun h => absurd h (by simp)⟩
    rcases List.mem_cons.1 hc with rfl | hc
    · simp only [isWordStart, isWordChar, Char.isAlphanum, Bool.or_eq_true] at hstart ⊢
      exact hstart.imp_left .inl
    · exact List.all_eq_true.1 List.all_takeWhile c hc
  | symbol hmem =>
    have hsymbols : ∀ symbol ∈ symbols, symbol.2 ≠ .word ∧
        (symbol.2 = .valueClose → symbol.1 = ['}', '}']) ∧
          (symbol.2 = .statementClose → symbol.1 = ['%', '}']) := by decide
    obtain ⟨hword, hvalue, hstatement⟩ := hsymbols _ hmem
    exact ⟨fun h => absurd h hword, hvalue, hstatement⟩

/-- A token with the blanks before it is one without them. -/
theorem exists_scan_of_afterBlanks {scan : Input → Except Cause Token} {t : Token}
    (h : afterBlanks scan s = .ok t) :
    ∃ next, scan (s.dropWhile isBlank) = .ok next ∧ t.kind = next.kind ∧ t.text = next.text := by
  obtain ⟨next, hnext, rfl⟩ := afterBlanks_eq_ok.1 h
  exact ⟨next, hnext, rfl, rfl⟩

/-- After a word the end of a value or a statement is still to come. -/
theorem closes_rest {operand : Bool} {t : Token} (hs : Closes s)
    (h : afterBlanks (scanCode operand) s = .ok t) (hword : t.kind = .word) : Closes t.rest := by
  obtain ⟨next, hnext, hkind, htext⟩ := exists_scan_of_afterBlanks h
  obtain ⟨-, hstart⟩ := afterBlanks_start scanCode_start h
  have hmore := (blanks_append hs []).2.2
  rw [← hstart, start] at hmore
  refine hmore.of_append fun c hc => ?_
  have hchar := (scanCode_text hnext).1 (hkind ▸ hword) c (htext ▸ hc)
  constructor
  · rintro rfl
    cases hchar
  · rintro rfl
    cases hchar

/-- A token where an operator may stand is the same in front of more input. -/
theorem scanOperator_append {t : Token} (hs : Closes s) (h : scanOperator s = .ok t) (x : Input) :
    scanOperator (s ++ x) = .ok (t.append x) := by
  refine scanOperator_eq_ok.2 ?_
  cases scanOperator_eq_ok.1 h with
  | single hfirst hother =>
    refine .single (afterBlanks_append hs hfirst x) fun hnot => ?_
    obtain ⟨next, hnext, hin⟩ := hother hnot
    have hmore := closes_rest hs hfirst (isWord_iff.1 hnot).1
    exact ⟨next.append x, afterBlanks_append hmore hnext x, hin⟩
  | notIn hfirst hnot hsecond hin =>
    have hmore := closes_rest hs hfirst (isWord_iff.1 hnot).1
    exact .notIn (afterBlanks_append hs hfirst x) hnot (afterBlanks_append hmore hsecond x) hin

/-- The modes in which a value or a statement is read. -/
def codeModes : List Mode := [.code, .operand, .operator]

/-- A token of a value or a statement is the same in front of more input. -/
theorem scan_append_of_closes {mode : Mode} (hmode : mode ∈ codeModes) (hs : Closes s) {t : Token}
    (h : scan mode s = .ok t) (x : Input) : scan mode (s ++ x) = .ok (t.append x) := by
  simp only [codeModes, List.mem_cons, List.not_mem_nil, or_false] at hmode
  rcases hmode with rfl | rfl | rfl
  · exact afterBlanks_append hs h x
  · exact afterBlanks_append hs h x
  · exact scanOperator_append hs h x

/-- Whether an input begins with a blank or a quote. -/
def Breaks (s : Input) : Prop := ∃ c more, s = c :: more ∧ isPlain c = false

/-- A token of a tag that is no string ends before a blank or a quote, and it is the same in front
of any input if the tag is to be closed. -/
theorem scanTag_stop {d : Char} (hd : d ≠ '"' ∧ d ≠ '\'') (hs : '>' ∈ d :: s ∨ Breaks x) :
    scanTag (d :: s ++ x) = (scanTag (d :: s)).map fun t => t.append x := by
  have hquote : ¬(decide (d = '"') || decide (d = '\'')) = true := by simp [hd]
  by_cases hclose : d = '>'
  · subst hclose
    rfl
  have hs : '>' ∈ s ∨ Breaks x :=
    hs.imp_left fun hs => (List.mem_cons.1 hs).resolve_left fun heq => hclose heq.symm
  by_cases hassign : d = '='
  · subst hassign
    rfl
  -- The second character tells the tokens of two characters from others.
  have hnext : ∀ {b : Char}, isPlain b = true → (∀ more, s ≠ b :: more) →
      ∀ more, s ++ x ≠ b :: more := by
    intro b hb hne more happend
    cases s with
    | nil =>
      obtain ⟨c, others, rfl, hc⟩ := hs.resolve_left List.not_mem_nil
      exact ne_of_not_isPlain hc hb (List.cons_eq_cons.1 happend).1
    | cons e s => exact hne s (by rw [(List.cons_eq_cons.1 happend).1])
  by_cases hself : d = '/' ∧ ∃ more, s = '>' :: more
  · obtain ⟨rfl, more, rfl⟩ := hself
    rfl
  by_cases hvalue : d = '{' ∧ ∃ more, s = '{' :: more
  · obtain ⟨rfl, more, rfl⟩ := hvalue
    rfl
  have hself' : ∀ more, d = '/' → s = '>' :: more → False := fun more hd hs => hself ⟨hd, more, hs⟩
  have hvalue' : ∀ more, d = '{' → s = '{' :: more → False :=
    fun more hd hs => hvalue ⟨hd, more, hs⟩
  have hrun : (s ++ x).takeWhile isTagChar = s.takeWhile isTagChar ∧
      (s ++ x).dropWhile isTagChar = s.dropWhile isTagChar ++ x := by
    rcases hs with hs | ⟨c, more, rfl, hc⟩
    · exact takeWhile_append_of_mem rfl hs x
    · refine takeWhile_stop ?_ s
      rcases eq_of_not_isPlain hc with hc | rfl | rfl
      · rcases eq_of_isBlank hc with rfl | rfl | rfl | rfl | rfl <;> rfl
      · rfl
      · rfl
  rw [List.cons_append,
    scanTag.eq_6 _ _ hclose (fun more hd => hnext rfl (fun more hs => hself' more hd hs) more)
      hassign (fun more hd => hnext rfl (fun more hs => hvalue' more hd hs) more),
    scanTag.eq_6 _ _ hclose hself' hassign hvalue', if_neg hquote, if_neg hquote, hrun.1, hrun.2]
  split <;> rfl

/-- A quote begins a string in a tag. -/
theorem scanTag_quote {q : Char} (hq : q = '"' ∨ q = '\'') (s : Input) :
    scanTag (q :: s) =
      match Quotation.scan? q s with
      | some t => .ok t
      | none => .error .unterminatedStringLiteral := by
  rcases hq with rfl | rfl <;> rfl

/-- A token of a tag is the same in front of more input, if the tag is to be closed. -/
theorem scanTag_append {t : Token} (hs : '>' ∈ s) (h : scanTag s = .ok t) (x : Input) :
    scanTag (s ++ x) = .ok (t.append x) := by
  obtain ⟨d, s, rfl⟩ := List.exists_cons_of_ne_nil (List.ne_nil_of_mem hs)
  by_cases hquote : d = '"' ∨ d = '\''
  · rw [scanTag_quote hquote] at h
    rw [List.cons_append, scanTag_quote hquote]
    cases hscan : Quotation.scan? d s with
    | none =>
      rw [hscan] at h
      cases h
    | some t' =>
      rw [hscan] at h
      cases h
      rw [quotation_append (by simpa using hquote) hscan x]
  · rw [scanTag_stop (not_or.1 hquote) (.inl hs), h]
    rfl

/-- A token of a tag with the blanks before it is the same in front of more input, if the tag is to
be closed. -/
theorem scan_append_of_bracket {t : Token} (hs : '>' ∈ s) (h : scan .tag s = .ok t) (x : Input) :
    scan .tag (s ++ x) = .ok (t.append x) := by
  obtain ⟨htake, hdrop⟩ := @takeWhile_append_of_mem _ isBlank _ rfl hs x
  have hmore : '>' ∈ s.dropWhile isBlank := mem_dropWhile_of_not hs rfl
  exact afterBlanks_eq_append htake hdrop (fun hscan => scanTag_append hmore hscan x) h

end Token

/-- Whether a named argument begins is seen before what follows, if a value or a statement is to be
closed. -/
theorem atNamed_append (hs : Closes s) (x : Input) : atNamed (s ++ x) = atNamed s := by
  -- What follows can only make a string of what is no token yet, and a string is neither a word nor
  -- a sign.
  have hcases : ∀ {s : Input}, Closes s →
      (∃ t, Token.scan .code s = .ok t ∧ Token.scan .code (s ++ x) = .ok (t.append x)) ∨
        (∃ fault, Token.scan .code s = .error fault) ∧
          ∀ t, Token.scan .code (s ++ x) = .ok t → t.kind = .quoted := by
    intro s hs
    cases hscan : Token.scan .code s with
    | ok t => exact .inl ⟨t, rfl, Token.afterBlanks_append hs hscan x⟩
    | error fault =>
      refine .inr ⟨⟨fault, rfl⟩, fun t ht => ?_⟩
      obtain ⟨-, hdrop, hmore⟩ := Token.blanks_append hs x
      obtain ⟨next, hnext, hkind, -⟩ := Token.exists_scan_of_afterBlanks ht
      rw [hdrop] at hnext
      rcases Token.scanCode_append hmore x with heq | ⟨-, hquoted⟩
      · rw [hnext] at heq
        cases hfirst : Token.scanCode false (s.dropWhile isBlank) with
        | error cause =>
          rw [hfirst] at heq
          cases heq
        | ok t' =>
          simp only [Token.scan, Token.afterBlanks, hfirst] at hscan
          cases hscan
      · rw [hkind, hquoted next hnext]
  unfold atNamed
  rcases hcases hs with ⟨key, hkey, hkey'⟩ | ⟨⟨fault, herror⟩, hquoted⟩
  · rw [hkey, hkey']
    show (decide (key.kind = .word) && _) = (decide (key.kind = .word) && _)
    by_cases hword : key.kind = .word
    · rcases hcases (Token.closes_rest hs hkey hword) with
        ⟨sign, hsign, hsign'⟩ | ⟨⟨fault, herror⟩, hquoted⟩
      · rw [Token.append_rest, hsign, hsign']
        rfl
      · rw [Token.append_rest, herror]
        cases hsign : Token.scan .code (key.rest ++ x) with
        | error fault => rfl
        | ok sign => simp [hquoted sign hsign]
    · simp [hword]
  · rw [herror]
    cases hkey : Token.scan .code (s ++ x) with
    | error fault => rfl
    | ok key => simp [hquoted key hkey]

/-! ## Text, comments and raw blocks -/

/-- Where text stops the test for its end holds. -/
theorem splitBefore_stops {stop : Input → Bool} (h : (splitBefore stop s).2 ≠ []) :
    stop (splitBefore stop s).2 = true := by
  induction s with
  | nil => exact absurd rfl h
  | cons c s ih =>
    by_cases hc : stop (c :: s) = true
    · rw [splitBefore, if_pos hc]
      exact hc
    · rw [splitBefore, if_neg hc] at h ⊢
      exact ih h

/-- Text is the same in front of more input, if it stops where it did and not before. -/
theorem splitBefore_append_right {stop : Input → Bool}
    (hrest : stop ((splitBefore stop s).2 ++ x) = true)
    (hbefore : ∀ p, p <:+ s → (splitBefore stop s).2.length < p.length → stop p = false →
      stop (p ++ x) = false) :
    splitBefore stop (s ++ x) = ((splitBefore stop s).1, (splitBefore stop s).2 ++ x) := by
  induction s with
  | nil =>
    cases x with
    | nil => rfl
    | cons c x => exact if_pos hrest
  | cons c s ih =>
    by_cases hc : stop (c :: s) = true
    · rw [splitBefore, if_pos hc] at hrest ⊢
      exact if_pos hrest
    · have hlength : (splitBefore stop s).2.length < (c :: s).length := by
        have hsplit := congrArg List.length (splitBefore_append stop s)
        rw [List.length_append] at hsplit
        rw [List.length_cons]
        omega
      rw [splitBefore, if_neg hc] at hrest hbefore ⊢
      have hmore := hbefore (c :: s) (List.suffix_refl _) hlength (by simpa using hc)
      have hothers := ih hrest fun p hp => hbefore p (hp.trans (List.suffix_cons c s))
      rw [List.cons_append] at hmore ⊢
      rw [splitBefore, hmore, hothers]
      rfl

/-- An opener is one in front of more input. -/
theorem atOpener_append_of_true (h : atOpener s = true) (x : Input) : atOpener (s ++ x) = true := by
  unfold atOpener at h
  split at h
  · exact h
  · rfl
  · cases h

/-- Two characters tell whether an opener begins. -/
theorem atOpener_append (hs : 2 ≤ s.length) (x : Input) : atOpener (s ++ x) = atOpener s := by
  rcases s with _ | ⟨c, _ | ⟨d, s⟩⟩
  · cases hs
  · cases Nat.le_of_succ_le_succ hs
  · by_cases hbrace : c = '{'
    · subst hbrace
      rfl
    by_cases hbracket : c = '<'
    · subst hbracket
      rfl
    simp [atOpener, hbrace, hbracket]

/-- One character tells whether an opener begins, if an angle bracket follows. -/
theorem atOpener_append_bracket (hs : s ≠ []) (hx : x.head? = some '<') :
    atOpener (s ++ x) = atOpener s := by
  obtain ⟨x, rfl⟩ := List.head?_eq_some_iff.1 hx
  rcases s with _ | ⟨c, _ | ⟨d, s⟩⟩
  · exact absurd rfl hs
  · by_cases hbrace : c = '{'
    · subst hbrace
      rfl
    by_cases hbracket : c = '<'
    · subst hbracket
      rfl
    simp [atOpener, hbrace, hbracket]
  · exact atOpener_append (by simp) _

namespace Token

/-- Where no opener begins there is text. -/
theorem scanText_of_not_atOpener (hs : s ≠ []) (h : atOpener s = false) :
    scanText s = ⟨.text, [], (splitBefore atOpener s).1, (splitBefore atOpener s).2⟩ := by
  unfold scanText
  split
  case h_1 => exact absurd rfl hs
  case h_7 => rfl
  all_goals cases h

/-- Where there is text no opener begins. -/
theorem not_atOpener_of_scanText (h : (scanText s).kind = .text) :
    s ≠ [] ∧ atOpener s = false := by
  unfold scanText at h
  split at h
  case h_7 hnil hvalue hstatement hcomment hend htag =>
    refine ⟨fun hs => hnil hs, ?_⟩
    unfold atOpener
    split
    · simp_all
    · simp_all
    · rfl
  all_goals cases h

/-- Text is the same in front of more input, if an opener follows it. -/
theorem scanText_append_of_text (hk : (scanText s).kind = .text)
    (hend : (scanText s).rest ≠ [] ∨ x.head? = some '<') :
    scanText (s ++ x) = (scanText s).append x := by
  obtain ⟨hs, hopener⟩ := not_atOpener_of_scanText hk
  have htext := splitBefore_ne_nil hs hopener
  have hsplit := splitBefore_append atOpener s
  rw [scanText_of_not_atOpener hs hopener] at hend ⊢
  dsimp only at hend
  have hrest : atOpener ((splitBefore atOpener s).2 ++ x) = true := by
    by_cases hnil : (splitBefore atOpener s).2 = []
    · obtain ⟨x, rfl⟩ := List.head?_eq_some_iff.1 (hend.resolve_left fun h => h hnil)
      rw [hnil]
      rfl
    · exact atOpener_append_of_true (splitBefore_stops hnil) x
  have hbefore : ∀ p, p <:+ s → (splitBefore atOpener s).2.length < p.length →
      atOpener p = false → atOpener (p ++ x) = false := by
    intro p _ hlength hp
    rcases hend with hne | hx
    · have := List.length_pos_iff.2 hne
      rw [atOpener_append (by omega), hp]
    · rw [atOpener_append_bracket (List.ne_nil_of_length_pos (by omega)) hx, hp]
  have hlength : (splitBefore atOpener s).2.length < s.length := by
    have hlength := congrArg List.length hsplit
    have := List.length_pos_iff.2 htext
    rw [List.length_append] at hlength
    omega
  have hmore := hbefore s (List.suffix_refl s) hlength hopener
  rw [scanText_of_not_atOpener (by simp [hs]) hmore, splitBefore_append_right hrest hbefore]
  rfl

/-- An opener is the same in front of more input, if it is known what its second character is. -/
theorem scanText_append (hs : 2 ≤ s.length) (hk : (scanText s).kind ≠ .text) (x : Input) :
    scanText (s ++ x) = (scanText s).append x := by
  rcases s with _ | ⟨c, _ | ⟨d, s⟩⟩
  · cases hs
  · cases Nat.le_of_succ_le_succ hs
  have hopener : atOpener (c :: d :: s) = true := by
    cases hno : atOpener (c :: d :: s) with
    | true => rfl
    | false =>
      rw [scanText_of_not_atOpener (List.cons_ne_nil _ _) hno] at hk
      exact absurd rfl hk
  by_cases hbrace : c = '{'
  · subst hbrace
    simp only [atOpener, Bool.or_eq_true, decide_eq_true_eq] at hopener
    rcases hopener with (rfl | rfl) | rfl <;> rfl
  by_cases hbracket : c = '<'
  · subst hbracket
    by_cases hslash : d = '/'
    · subst hslash
      rfl
    · simp [scanText, hslash, append]
  · simp [atOpener, hbrace, hbracket] at hopener

/-- The openers that are two characters long. -/
def openers : List TokenKind := [.valueOpen, .statementOpen, .commentOpen, .endTagOpen]

/-- An opener that is two characters long is the same in front of more input. -/
theorem scanText_append_of_opener (hk : (scanText s).kind ∈ openers) (x : Input) :
    scanText (s ++ x) = (scanText s).append x := by
  unfold scanText at hk
  split at hk
  case h_6 | h_1 | h_7 => simp [openers, atEnd] at hk
  all_goals rfl

/-- Two characters tell whether a comment ends. -/
theorem atCommentClose_append (hs : 2 ≤ s.length) (x : Input) :
    atCommentClose (s ++ x) = atCommentClose s := by
  rcases s with _ | ⟨c, _ | ⟨d, s⟩⟩
  · cases hs
  · cases Nat.le_of_succ_le_succ hs
  · by_cases hhash : c = '#'
    · subst hhash
      by_cases hbrace : d = '}'
      · subst hbrace
        rfl
      · simp [atCommentClose, hbrace]
    · simp [atCommentClose, hhash]

/-- Where a comment does not end there is content. -/
theorem scanComment_of_not_atCommentClose (hs : s ≠ []) (h : atCommentClose s = false) :
    scanComment s = ⟨.commentContent, [], (splitBefore atCommentClose s).1,
      (splitBefore atCommentClose s).2⟩ := by
  unfold scanComment
  split
  · exact absurd rfl hs
  · cases h
  · rfl

/-- Where a comment has content it does not end. -/
theorem not_atCommentClose_of_scanComment (h : (scanComment s).kind = .commentContent) :
    s ≠ [] ∧ atCommentClose s = false := by
  unfold scanComment at h
  split at h
  · cases h
  · cases h
  · rename_i hnil hclose
    refine ⟨hnil, ?_⟩
    unfold atCommentClose
    split
    · exact (hclose _ rfl).elim
    · rfl

/-- A word is seen before what follows, if a character that no word has is to come. -/
theorem isPrefixOf_append_of_mem {word : List Char} {c : Char} (hc : c ∉ word) (hs : c ∈ s)
    (x : Input) : word.isPrefixOf (s ++ x) = word.isPrefixOf s := by
  rw [Bool.eq_iff_iff, List.isPrefixOf_iff_prefix, List.isPrefixOf_iff_prefix]
  refine ⟨fun h => ?_, fun h => h.trans (List.prefix_append s x)⟩
  rcases Nat.le_total word.length s.length with hle | hle
  · exact List.prefix_of_prefix_length_le h (List.prefix_append s x) hle
  · have hword := List.prefix_of_prefix_length_le (List.prefix_append s x) h hle
    exact absurd (hword.subset hs) hc

/-- Whether a raw block ends is seen from its opener up to a character that belongs neither to the
word `endraw` nor to what may stand before it. -/
theorem atEndRaw_append_of_mem {c : Char} (hblank : isBlank c = false) (hhyphen : c ≠ '-')
    (hword : c ∉ "endraw".toList) (hs : c ∈ s) (x : Input) :
    atEndRaw ('{' :: '%' :: (s ++ x)) = atEndRaw ('{' :: '%' :: s) := by
  obtain ⟨htrim, hs⟩ : ((if (s ++ x).head? = some '-' then (s ++ x).tail else s ++ x) =
      (if s.head? = some '-' then s.tail else s) ++ x) ∧
        c ∈ if s.head? = some '-' then s.tail else s := by
    obtain ⟨d, s, rfl⟩ := List.exists_cons_of_ne_nil (List.ne_nil_of_mem hs)
    by_cases hd : d = '-'
    · subst hd
      exact ⟨rfl, (List.mem_cons.1 hs).resolve_left hhyphen⟩
    · simpa [hd] using hs
  simp only [atEndRaw, htrim]
  generalize (if s.head? = some '-' then s.tail else s) = s at hs ⊢
  obtain ⟨-, hdrop⟩ := takeWhile_append_of_mem hblank hs x
  have hs : c ∈ s.dropWhile isBlank := mem_dropWhile_of_not hs hblank
  rw [hdrop]
  generalize s.dropWhile isBlank = s at hs ⊢
  rw [isPrefixOf_append_of_mem hword hs]
  cases hprefix : "endraw".toList.isPrefixOf s with
  | false => rfl
  | true =>
    -- Behind the word the character is still to come.
    obtain ⟨s, rfl⟩ := List.isPrefixOf_iff_prefix.1 hprefix
    have hs : c ∈ s := (List.mem_append.1 hs).resolve_left hword
    obtain ⟨e, s, rfl⟩ := List.exists_cons_of_ne_nil (List.ne_nil_of_mem hs)
    rfl

/-- Whether a raw block ends is seen before what follows, if a brace is to come. -/
theorem atEndRaw_append (hs : '}' ∈ s) (x : Input) : atEndRaw (s ++ x) = atEndRaw s := by
  rcases s with _ | ⟨c, _ | ⟨d, s⟩⟩
  · cases hs
  · obtain rfl := List.mem_singleton.1 hs
    rfl
  by_cases hopener : c = '{' ∧ d = '%'
  · obtain ⟨rfl, rfl⟩ := hopener
    have hs : '}' ∈ s := by simpa using hs
    exact atEndRaw_append_of_mem rfl (by decide) (by simp) hs x
  · unfold atEndRaw
    simp only [List.cons_append]
    split <;> simp_all

/-- The body of a raw block is the same in front of more input, if a brace follows it. -/
theorem scanRaw_append (hs : '}' ∈ (scanRaw s).rest) (x : Input) :
    scanRaw (s ++ x) = (scanRaw s).append x := by
  have hs : '}' ∈ (splitBefore atEndRaw s).2 := hs
  have hrest : atEndRaw (splitBefore atEndRaw s).2 = true :=
    splitBefore_stops (List.ne_nil_of_mem hs)
  have hmore : atEndRaw ((splitBefore atEndRaw s).2 ++ x) = true := by
    rw [atEndRaw_append hs, hrest]
  have hbefore : ∀ p, p <:+ s → (splitBefore atEndRaw s).2.length < p.length →
      atEndRaw p = false → atEndRaw (p ++ x) = false := by
    intro p hp hlength hno
    have hsuffix : (splitBefore atEndRaw s).2 <:+ p :=
      List.suffix_of_suffix_length_le ⟨_, splitBefore_append atEndRaw s⟩ hp (by omega)
    rw [atEndRaw_append (hsuffix.subset hs), hno]
  simp only [scanRaw, splitBefore_append_right hmore hbefore]
  rfl

end Token

end Stencil
