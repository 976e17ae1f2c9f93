import Stencil.Diagnostic
import Stencil.Token.Numeral
import Stencil.Token.Quotation

/-!
# Reading one token

`Token.scan mode s` is the token that begins `s` in a mode. It is a function of the mode and of
what is left to read alone, so a reader that looks ahead has nothing to undo. In text, comments
and raw blocks blanks belong to the token; in code and tags they go before it.
-/

namespace Stencil.Token

/-- Literal text up to the next opener, or the opener that stands here. -/
def scanText : Input → Token
  | [] => atEnd
  | '{' :: '{' :: s => ⟨.valueOpen, [], ['{', '{'], s⟩
  | '{' :: '%' :: s => ⟨.statementOpen, [], ['{', '%'], s⟩
  | '{' :: '#' :: s => ⟨.commentOpen, [], ['{', '#'], s⟩
  | '<' :: '/' :: s => ⟨.endTagOpen, [], ['<', '/'], s⟩
  | '<' :: s => ⟨.tagOpen, [], ['<'], s⟩
  | s =>
    let (text, rest) := splitBefore atOpener s
    ⟨.text, [], text, rest⟩

/-- Whether a comment ends here. -/
def atCommentClose : Input → Bool
  | '#' :: '}' :: _ => true
  | _ => false

/-- The content of a comment up to its end, or the end that stands here. -/
def scanComment : Input → Token
  | [] => atEnd
  | '#' :: '}' :: s => ⟨.commentClose, [], ['#', '}'], s⟩
  | s =>
    let (text, rest) := splitBefore atCommentClose s
    ⟨.commentContent, [], text, rest⟩

/-- Whether the statement that ends a raw block begins here: after its opener come at most one
hyphen, blanks and the word `endraw`. -/
def atEndRaw : Input → Bool
  | '{' :: '%' :: s =>
    let s := if s.head? = some '-' then s.tail else s
    let s := s.dropWhile isBlank
    "endraw".toList.isPrefixOf s && !(s.drop 6).head?.any isWordChar
  | _ => false

/-- The body of a raw block, which may be empty. -/
def scanRaw (s : Input) : Token :=
  let (text, rest) := splitBefore atEndRaw s
  ⟨.rawText, [], text, rest⟩

/-- The tokens of fixed text inside values and statements; the first that fits is read, so a
longer one goes before those that begin it. -/
def symbols : List (List Char × TokenKind) :=
  [(['}', '}'], .valueClose), (['%', '}'], .statementClose),
    (['=', '='], .equal), (['!', '='], .notEqual), (['<', '='], .lessEqual),
    (['>', '='], .greaterEqual), (['*', '*'], .starStar), (['/', '/'], .slashSlash),
    (['='], .assign), (['<'], .less), (['>'], .greater), (['+'], .plus), (['-'], .minus),
    (['*'], .star), (['/'], .slash), (['%'], .percent),
    (['('], .leftParen), ([')'], .rightParen), (['['], .leftBracket), ([']'], .rightBracket),
    (['{'], .leftBrace), (['}'], .rightBrace), ([','], .comma), ([':'], .colon), (['.'], .dot)]

/-- The token of fixed text that begins here. -/
def scanSymbol? (s : Input) : Option Token :=
  symbols.findSome? fun (text, kind) =>
    if text.isPrefixOf s then some ⟨kind, [], text, s.drop text.length⟩ else none

/-- A token of a value or statement. A sign or a point begins a number only where an operand may
stand; a hyphen that touches the end of a statement is never an operator. -/
def scanCode (operand : Bool) : Input → Except Cause Token
  | [] => .ok atEnd
  | '-' :: '%' :: '}' :: s => .ok ⟨.trim, [], ['-'], '%' :: '}' :: s⟩
  | c :: s =>
    if c.isDigit || (operand && Numeral.starts (c :: s)) then
      match Numeral.scan? (c :: s) with
      | some t => .ok t
      | none => .error .malformedNumericLiteral
    else if c = '"' || c = '\'' then
      match Quotation.scan? c s with
      | some t => .ok t
      | none => .error .unterminatedStringLiteral
    else if isWordStart c then
      .ok ⟨.word, [], c :: s.takeWhile isWordChar, s.dropWhile isWordChar⟩
    else
      match scanSymbol? (c :: s) with
      | some t => .ok t
      | none => .error (.unexpectedToken "expression")

/-- A token of a tag. -/
def scanTag : Input → Except Cause Token
  | [] => .ok atEnd
  | '>' :: s => .ok ⟨.tagClose, [], ['>'], s⟩
  | '/' :: '>' :: s => .ok ⟨.selfClose, [], ['/', '>'], s⟩
  | '=' :: s => .ok ⟨.assign, [], ['='], s⟩
  | '{' :: '{' :: s => .ok ⟨.valueOpen, [], ['{', '{'], s⟩
  | c :: s =>
    if c = '"' || c = '\'' then
      match Quotation.scan? c s with
      | some t => .ok t
      | none => .error .unterminatedStringLiteral
    else if c.isAlpha then
      .ok ⟨.word, [], c :: s.takeWhile isTagChar, s.dropWhile isTagChar⟩
    else .error (.unexpectedToken "attribute, `>` or `/>`")

/-- Reads blanks and then a token, whose gap they become. -/
def afterBlanks (scan : Input → Except Cause Token) (s : Input) : Except Fault Token :=
  match scan (s.dropWhile isBlank) with
  | .ok t => .ok { t with gap := s.takeWhile isBlank }
  | .error cause => .error ⟨cause, s.dropWhile isBlank⟩

/-- A token where an operator may stand: as in code, but the word `not` is read together with a
word `in` that follows it. -/
def scanOperator (s : Input) : Except Fault Token :=
  match afterBlanks (scanCode false) s with
  | .error fault => .error fault
  | .ok t =>
    if t.isWord "not" then
      match afterBlanks (scanCode false) t.rest with
      | .error fault => .error fault
      | .ok next =>
        if next.isWord "in" then
          .ok ⟨.notIn, t.gap, t.text ++ (next.gap ++ next.text), next.rest⟩
        else .ok t
    else .ok t

/-- The token that begins `s` in a mode. -/
def scan : Mode → Input → Except Fault Token
  | .text, s => .ok (scanText s)
  | .code, s => afterBlanks (scanCode false) s
  | .operand, s => afterBlanks (scanCode true) s
  | .operator, s => scanOperator s
  | .tag, s => afterBlanks scanTag s
  | .comment, s => .ok (scanComment s)
  | .raw, s => .ok (scanRaw s)

/-! ## Where tokens begin -/

/-- Text begins where it is read. -/
theorem scanText_start (s : Input) : (scanText s).start = s := by
  unfold scanText
  split <;> simp [start, atEnd, splitBefore_append]

/-- Text has no blanks before it: they belong to it. -/
theorem scanText_gap (s : Input) : (scanText s).gap = [] := by
  unfold scanText
  split <;> rfl

/-- Comments have no blanks before them. -/
theorem scanComment_gap (s : Input) : (scanComment s).gap = [] := by
  unfold scanComment
  split <;> rfl

/-- Comments begin where they are read. -/
theorem scanComment_start (s : Input) : (scanComment s).start = s := by
  unfold scanComment
  split <;> simp [start, atEnd, splitBefore_append]

/-- The body of a raw block begins where it is read. -/
theorem scanRaw_start (s : Input) : (scanRaw s).start = s := by
  simp [scanRaw, start, splitBefore_append]

/-- A token of fixed text is one of the symbols, and it begins where it is read. -/
theorem scanSymbol?_eq_some {s : Input} {t : Token} (h : scanSymbol? s = some t) :
    (t.text, t.kind) ∈ symbols ∧ t.gap = [] ∧ s = t.text ++ t.rest := by
  obtain ⟨⟨text, kind⟩, hmem, h⟩ := List.exists_of_findSome?_eq_some h
  dsimp only at h
  split at h
  · rename_i hp
    cases h
    obtain ⟨rest, rfl⟩ := List.isPrefixOf_iff_prefix.1 hp
    exact ⟨hmem, rfl, by simp⟩
  · cases h

/-- The tokens of code, by what stands where they are read. -/
inductive CodeToken : Input → Token → Prop
  | atEnd : CodeToken [] atEnd
  | trim (s : Input) : CodeToken ('-' :: '%' :: '}' :: s) ⟨.trim, [], ['-'], '%' :: '}' :: s⟩
  | number {s : Input} {t : Token} (h : Numeral.scan? s = some t) : CodeToken s t
  | quoted {q : Char} {s text rest : Input} (hq : q = '"' ∨ q = '\'')
    (h : Quotation.close? q s = some (text, rest)) :
    CodeToken (q :: s) ⟨.quoted, [], q :: text, rest⟩
  | word {c : Char} {s : Input} (hc : isWordStart c = true) :
    CodeToken (c :: s) ⟨.word, [], c :: s.takeWhile isWordChar, s.dropWhile isWordChar⟩
  | symbol {kind : TokenKind} {text rest : List Char} (h : (text, kind) ∈ symbols) :
    CodeToken (text ++ rest) ⟨kind, [], text, rest⟩

/-- No other tokens of code are read. -/
theorem codeToken_of_scanCode {operand : Bool} {s : Input} {t : Token}
    (h : scanCode operand s = .ok t) : CodeToken s t := by
  unfold scanCode at h
  repeat' split at h
  all_goals cases h
  · exact .atEnd
  · exact .trim _
  · exact .number ‹_›
  · rename_i hquote _ hscan
    obtain ⟨⟨text, rest⟩, hclose, rfl⟩ := Option.map_eq_some_iff.1 hscan
    exact .quoted (by simpa using hquote) hclose
  · exact .word ‹_›
  · rename_i hscan
    obtain ⟨hmem, hgap, hstart⟩ := scanSymbol?_eq_some hscan
    obtain ⟨kind, gap, text, rest⟩ := t
    subst hgap
    rw [hstart]
    exact .symbol hmem

/-- A token of code begins where it is read. -/
theorem scanCode_start {operand : Bool} {s : Input} {t : Token}
    (h : scanCode operand s = .ok t) : t.start = s := by
  cases codeToken_of_scanCode h with
  | atEnd | trim | symbol => rfl
  | number hscan => exact Numeral.scan?_start hscan
  | quoted _ hclose => simp [start, Quotation.close?_append hclose]
  | word => simp [start]

/-- A token of a tag begins where it is read. -/
theorem scanTag_start {s : Input} {t : Token} (h : scanTag s = .ok t) : t.start = s := by
  unfold scanTag at h
  repeat' split at h
  all_goals cases h
  all_goals try rfl
  · exact Quotation.scan?_start ‹_›
  · simp [start]

/-- A token is read after blanks if it is read where they end, and they become its gap. -/
theorem afterBlanks_eq_ok {scan : Input → Except Cause Token} {s : Input} {t : Token} :
    afterBlanks scan s = .ok t ↔
      ∃ next, scan (s.dropWhile isBlank) = .ok next ∧
        t = { next with gap := s.takeWhile isBlank } := by
  unfold afterBlanks
  cases scan (s.dropWhile isBlank) <;> simp [eq_comm]

/-- What is malformed after blanks is so where they end. -/
theorem afterBlanks_eq_error {scan : Input → Except Cause Token} {s : Input} {fault : Fault} :
    afterBlanks scan s = .error fault ↔
      ∃ cause, scan (s.dropWhile isBlank) = .error cause ∧
        fault = ⟨cause, s.dropWhile isBlank⟩ := by
  unfold afterBlanks
  cases scan (s.dropWhile isBlank) <;> simp [eq_comm]

/-- A token that is read after blanks begins where they end. -/
theorem afterBlanks_start {scan : Input → Except Cause Token} {s : Input} {t : Token}
    (hs : ∀ {s t}, scan s = .ok t → t.start = s) (h : afterBlanks scan s = .ok t) :
    t.gap = s.takeWhile isBlank ∧ t.start = s.dropWhile isBlank := by
  obtain ⟨next, hnext, rfl⟩ := afterBlanks_eq_ok.1 h
  exact ⟨rfl, by simpa [start] using hs hnext⟩

/-- The tokens that are read where an operator may stand. -/
inductive OperatorToken (s : Input) : Token → Prop
  /-- A token of code. Behind the word `not` another token can be read, and it is not `in`. -/
  | single {t : Token} (h : afterBlanks (scanCode false) s = .ok t)
    (hother : t.isWord "not" = true →
      ∃ next, afterBlanks (scanCode false) t.rest = .ok next ∧ next.isWord "in" = false) :
    OperatorToken s t
  /-- The words `not in`, with the blanks between them. -/
  | notIn {first second : Token} (hfirst : afterBlanks (scanCode false) s = .ok first)
    (hnot : first.isWord "not" = true)
    (hsecond : afterBlanks (scanCode false) first.rest = .ok second)
    (hin : second.isWord "in" = true) :
    OperatorToken s
      ⟨.notIn, first.gap, first.text ++ (second.gap ++ second.text), second.rest⟩

/-- Where an operator may stand these tokens are read, and no others. -/
theorem scanOperator_eq_ok {s : Input} {t : Token} :
    scanOperator s = .ok t ↔ OperatorToken s t := by
  constructor
  · intro h
    unfold scanOperator at h
    split at h
    · cases h
    · rename_i first hfirst
      split at h
      · rename_i hnot
        split at h
        · cases h
        · rename_i second hsecond
          split at h
          · rename_i hin
            cases h
            exact .notIn hfirst hnot hsecond hin
          · rename_i hin
            cases h
            exact .single hfirst fun _ => ⟨second, hsecond, by simpa using hin⟩
      · rename_i hnot
        cases h
        exact .single hfirst fun h => absurd h hnot
  · intro h
    unfold scanOperator
    cases h with
    | single hfirst hother =>
      by_cases hnot : t.isWord "not" = true
      · obtain ⟨next, hnext, hin⟩ := hother hnot
        simp [hfirst, hnot, hnext, hin]
      · simp [hfirst, hnot]
    | notIn hfirst hnot hsecond hin => simp [hfirst, hnot, hsecond, hin]

/-- A token where an operator may stand begins where the blanks end. -/
theorem scanOperator_start {s : Input} {t : Token} (h : scanOperator s = .ok t) :
    t.gap = s.takeWhile isBlank ∧ t.start = s.dropWhile isBlank := by
  cases scanOperator_eq_ok.1 h with
  | single hfirst => exact afterBlanks_start scanCode_start hfirst
  | notIn hfirst _ hsecond _ =>
    obtain ⟨hgap, hstart⟩ := afterBlanks_start scanCode_start hfirst
    obtain ⟨hblanks, hmore⟩ := afterBlanks_start scanCode_start hsecond
    refine ⟨hgap, ?_⟩
    -- The two words are one token, which holds the blanks between them.
    rw [← hstart]
    simp only [start] at hmore ⊢
    rw [List.append_assoc, List.append_assoc, hmore, hblanks, List.takeWhile_append_dropWhile]

/-- The blanks before a token, the token and what is left after it are the input. -/
theorem gap_append_start {mode : Mode} {s : Input} {t : Token} (h : scan mode s = .ok t) :
    t.gap ++ t.start = s := by
  -- In code and tags the blanks go before the token.
  have blanks : t.gap = s.takeWhile isBlank ∧ t.start = s.dropWhile isBlank →
      t.gap ++ t.start = s := by
    rintro ⟨hg, hs⟩
    rw [hg, hs, List.takeWhile_append_dropWhile]
  -- Elsewhere they belong to it.
  cases mode with
  | text =>
    cases h
    rw [scanText_gap, List.nil_append, scanText_start]
  | comment =>
    cases h
    rw [scanComment_gap, List.nil_append, scanComment_start]
  | raw =>
    cases h
    exact scanRaw_start s
  | code | operand => exact blanks (afterBlanks_start scanCode_start h)
  | operator => exact blanks (scanOperator_start h)
  | tag => exact blanks (afterBlanks_start scanTag_start h)

/-! ## What tokens hold -/

/-- There are only blanks before a token. -/
theorem isBlank_of_mem_gap {mode : Mode} {s : Input} {t : Token} (h : scan mode s = .ok t) :
    ∀ c ∈ t.gap, isBlank c := by
  have blanks : t.gap = s.takeWhile isBlank → ∀ c ∈ t.gap, isBlank c := by
    intro hg c hc
    rw [hg] at hc
    exact List.all_eq_true.1 List.all_takeWhile c hc
  cases mode with
  | text =>
    cases h
    rw [scanText_gap]
    nofun
  | comment =>
    cases h
    rw [scanComment_gap]
    nofun
  | raw =>
    cases h
    exact nofun
  | code | operand => exact blanks (afterBlanks_start scanCode_start h).1
  | operator => exact blanks (scanOperator_start h).1
  | tag => exact blanks (afterBlanks_start scanTag_start h).1

/-- Text is empty at the end of the input only. -/
theorem scanText_text_ne_nil {s : Input} (h : s ≠ []) : (scanText s).text ≠ [] := by
  unfold scanText
  split
  case h_1 => exact absurd rfl h
  case h_7 hvalue hstatement hcomment hend htag =>
    refine splitBefore_ne_nil h ?_
    unfold atOpener
    split
    · simp_all
    · simp_all
    · rfl
  all_goals nofun

/-- Comments are empty at the end of the input only. -/
theorem scanComment_text_ne_nil {s : Input} (h : s ≠ []) : (scanComment s).text ≠ [] := by
  unfold scanComment
  split
  case h_1 => exact absurd rfl h
  case h_2 => nofun
  case h_3 hclose =>
    refine splitBefore_ne_nil h ?_
    unfold atCommentClose
    split
    · simp_all
    · rfl

/-- A token of code has text, if there is input. -/
theorem scanCode_text_ne_nil_of_input {operand : Bool} {s : Input} {t : Token}
    (h : scanCode operand s = .ok t) (hs : s ≠ []) : t.text ≠ [] := by
  cases codeToken_of_scanCode h with
  | atEnd => exact absurd rfl hs
  | number hscan => exact Numeral.scan?_ne_nil hscan
  | trim | quoted | word => exact List.cons_ne_nil _ _
  | symbol hmem =>
    have htext : ∀ symbol ∈ symbols, symbol.1 ≠ [] := by decide
    exact htext _ hmem

/-- A token of code has text, except at the end of the input. -/
theorem scanCode_text_ne_nil {operand : Bool} {s : Input} {t : Token}
    (h : scanCode operand s = .ok t) (hend : t.kind ≠ .endOfInput) : t.text ≠ [] := by
  refine scanCode_text_ne_nil_of_input h ?_
  rintro rfl
  cases h
  exact hend rfl

/-- A token of a tag has text, if there is input. -/
theorem scanTag_text_ne_nil_of_input {s : Input} {t : Token} (h : scanTag s = .ok t)
    (hs : s ≠ []) : t.text ≠ [] := by
  unfold scanTag at h
  repeat' split at h
  all_goals cases h
  case h_1 => exact absurd rfl hs
  case h_1 hq => exact Quotation.scan?_ne_nil hq
  all_goals exact List.cons_ne_nil _ _

/-- A token of a tag has text, except at the end of the input. -/
theorem scanTag_text_ne_nil {s : Input} {t : Token} (h : scanTag s = .ok t)
    (hend : t.kind ≠ .endOfInput) : t.text ≠ [] := by
  refine scanTag_text_ne_nil_of_input h ?_
  rintro rfl
  cases h
  exact hend rfl

/-- The bracket that opens a closing tag is two characters. -/
theorem scanText_text_of_endTagOpen {s : Input} (h : (scanText s).kind = .endTagOpen) :
    (scanText s).text = ['<', '/'] := by
  unfold scanText at h ⊢
  split <;> simp_all [atEnd]

/-- What ends a tag is one character, and what closes it too is two. -/
theorem scanTag_text {s : Input} {t : Token} (h : scanTag s = .ok t) :
    (t.kind = .tagClose → t.text = ['>']) ∧ (t.kind = .selfClose → t.text = ['/', '>']) := by
  unfold scanTag at h
  repeat' split at h
  all_goals cases h
  case h_1 => simp [atEnd]
  case h_1 hq =>
    obtain ⟨_, _, rfl⟩ := Option.map_eq_some_iff.1 hq
    simp
  all_goals simp

end Stencil.Token
