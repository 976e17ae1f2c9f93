import Stencil.Proofs.Canonical
import Stencil.Proofs.Forward
import Stencil.Proofs.TokenText

/-!
# Reading lists of members

What stands between two spaces is read as the token that it is by itself. So the marks of a list are
read, and its members too, if an expression ends before each mark that comes after one and if no
member begins with a mark of the list.
-/

namespace Stencil

/-! ## Tokens -/

namespace Token

/-- Between spaces a text is the token that it is by itself. -/
theorem IsWhole.afterBlanks {operand : Bool} {kind : TokenKind} {text : List Char}
    (h : IsWhole operand kind text) (x : Input) :
    afterBlanks (scanCode operand) (' ' :: (text ++ ' ' :: x)) =
      .ok ⟨kind, [' '], text, ' ' :: x⟩ := by
  have hmore := scanCode_blank (x := x) (c := ' ') rfl h.1 h.2
  exact afterBlanks_gap (b := [' ']) (List.forall_mem_singleton.2 rfl) hmore

/-- Between spaces a text is the token that it is by itself in code. -/
theorem IsWhole.scan_code {kind : TokenKind} {text : List Char} (h : IsWhole false kind text)
    (x : Input) :
    scan .code (' ' :: (text ++ ' ' :: x)) = .ok ⟨kind, [' '], text, ' ' :: x⟩ :=
  h.afterBlanks x

/-- Between spaces a text is the token that it is by itself, where an operand may stand. -/
theorem IsWhole.scan_operand {kind : TokenKind} {text : List Char} (h : IsWhole true kind text)
    (x : Input) :
    scan .operand (' ' :: (text ++ ' ' :: x)) = .ok ⟨kind, [' '], text, ' ' :: x⟩ :=
  h.afterBlanks x

/-- Between spaces a text is the token that it is by itself, where an operator may stand. -/
theorem IsWhole.scan_operator {kind : TokenKind} {text : List Char} (h : IsWhole false kind text)
    (hnot : text ≠ "not".toList) (x : Input) :
    scan .operator (' ' :: (text ++ ' ' :: x)) = .ok ⟨kind, [' '], text, ' ' :: x⟩ := by
  rw [scan, Token.scanOperator, h.afterBlanks]
  have hword : isWord ⟨kind, [' '], text, ' ' :: x⟩ "not" = false := by
    rw [isWord, decide_eq_false hnot, Bool.and_false]
  simp only [hword]
  rfl

end Token

/-- A character that begins a word begins no number and no string. -/
theorem of_isWordStart {c : Char} (hc : isWordStart c = true) :
    c.isDigit = false ∧ c ≠ '+' ∧ c ≠ '-' ∧ c ≠ '.' ∧ c ≠ '"' ∧ c ≠ '\'' := by
  have hne : ∀ d, isWordStart d = false → c ≠ d := by
    rintro d hd rfl
    rw [hc] at hd
    cases hd
  refine ⟨?_, hne _ rfl, hne _ rfl, hne _ rfl, hne _ rfl, hne _ rfl⟩
  replace hc : (decide (c.val ≥ 65 ∧ c.val ≤ 90) ||
      (decide (c.val ≥ 97) && decide (c.val ≤ 122)) || decide (c = '_')) = true := hc
  simp only [Bool.or_eq_true, Bool.and_eq_true, decide_eq_true_eq] at hc
  simp only [Char.isDigit, Bool.and_eq_false_iff, decide_eq_false_iff_not]
  rcases hc with ((hc | hc) | rfl)
  · exact .inr fun h => absurd (UInt32.le_trans hc.1 h) (by decide)
  · exact .inr fun h => absurd (UInt32.le_trans hc.1 h) (by decide)
  · exact .inr (by decide)

/-- A word is one token. -/
theorem IsWord.isWhole {w : List Char} (h : IsWord w) (operand : Bool) :
    Token.IsWhole operand .word w := by
  obtain ⟨c, s, rfl, hc, hs⟩ := h
  obtain ⟨hdigit, hplus, hminus, hpoint, hdouble, hsingle⟩ := of_isWordStart hc
  have hstarts : Numeral.starts (c :: s) = false := by
    simp [Numeral.starts, Numeral.startsUnsigned, hdigit, hplus, hminus, hpoint]
  have htake : s.takeWhile isWordChar = s := by
    simpa using @List.takeWhile_append_of_pos _ isWordChar s [] hs
  have hdrop : s.dropWhile isWordChar = [] := by
    simpa using @List.dropWhile_append_of_pos _ isWordChar s [] hs
  refine ⟨List.cons_ne_nil _ _, ?_⟩
  rw [Token.scanCode.eq_3 _ _ _ fun _ hc _ => hminus hc, hstarts, htake, hdrop,
    if_neg (by simp [hdigit]), if_neg (by simp [hdouble, hsingle]), if_pos hc]

/-! ## Leaves -/

/-- A punctuation mark is read. -/
theorem Terminal.read_mark {kind : TokenKind} {c : Char} (h : Token.IsWhole false kind [c])
    (expected : String) (x : Input) :
    (mark kind expected).read (' ' :: c :: ' ' :: x) = .ok (.mark c, ' ' :: x) :=
  read_of_scan (t := mark kind expected) (h.scan_code x) (if_pos rfl)

/-- A name is read. -/
theorem Terminal.read_name (field : Field) {w : List Char} (hw : IsWord w) (x : Input) :
    (name field).read (' ' :: (w ++ ' ' :: x)) = .ok (.name (some field) w, ' ' :: x) :=
  read_of_scan (t := name field) ((hw.isWhole false).scan_code x) (if_pos rfl)

/-- The character that opens a bracket is a token. -/
theorem Bracket.isWhole_first (b : Bracket) (operand : Bool) :
    Token.IsWhole operand b.opener [b.first] := by
  refine ⟨List.cons_ne_nil _ _, ?_⟩
  cases b <;> cases operand <;> rfl

/-- The kind of the token that closes a bracket. -/
def Bracket.closerKind : Bracket → TokenKind
  | round => .rightParen
  | square => .rightBracket
  | curly => .rightBrace

/-- The character that closes a bracket is a token. -/
theorem Bracket.isWhole_closer (b : Bracket) (operand : Bool) :
    Token.IsWhole operand b.closerKind [b.closer] := by
  refine ⟨List.cons_ne_nil _ _, ?_⟩
  cases b <;> cases operand <;> rfl

/-- The opening character of a bracket is read. -/
theorem Terminal.read_opener (b : Bracket) {mode : Mode} (hmode : mode = .code ∨ mode = .operand)
    (x : Input) :
    (opener b mode).read (' ' :: b.first :: ' ' :: x) = .ok (.mark b.first, ' ' :: x) := by
  rcases hmode with rfl | rfl
  · exact read_of_scan (t := opener b .code) ((b.isWhole_first false).scan_code x) (if_pos rfl)
  · exact read_of_scan (t := opener b .operand) ((b.isWhole_first true).scan_operand x) (if_pos rfl)

/-- The closing character of a bracket is read. -/
theorem Terminal.read_closer (b : Bracket) (x : Input) :
    (closer b).read (' ' :: b.closer :: ' ' :: x) = .ok (.mark b.closer, ' ' :: x) :=
  read_of_scan (t := closer b) ((b.isWhole_closer false).scan_code x) (if_pos rfl)

/-! ## Where expressions end -/

/-- No expression of an extent goes on here. -/
def Stops (extent : Extent) (s : Input) : Prop :=
  ∀ operand, Parser.many (Tail.read operand extent) s = .ok ([], s)

/-- No expression goes on before a token that begins no tail. -/
theorem stops_of_scan {extent : Extent} {s : Input} {t : Token}
    (hscan : Token.scan (Tail.mode extent) s = .ok t)
    (h : (if Tail.admits extent t then Tail.of? t else none) = none) : Stops extent s := by
  intro operand
  exact Parser.many_of_none (Tail.read_none hscan h)

/-- A token of one character is found where a tail is looked for. -/
theorem Tail.scan_mark {kind : TokenKind} {c : Char} (h : Token.IsWhole false kind [c])
    (extent : Extent) (x : Input) :
    Token.scan (mode extent) (' ' :: c :: ' ' :: x) = .ok ⟨kind, [' '], [c], ' ' :: x⟩ := by
  cases extent with
  | target => exact h.scan_code x
  | whole | operand => exact h.scan_operator (by simp) x

/-- No sign of assignment is here. -/
def NoAssign (s : Input) : Prop := ∀ t, Token.scan .code s = .ok t → t.kind ≠ .assign

/-- No sign of assignment is where another token is. -/
theorem noAssign_of_scan {s : Input} {t : Token} (hscan : Token.scan .code s = .ok t)
    (ht : t.kind ≠ .assign) : NoAssign s := by
  intro u hu
  rw [hscan] at hu
  cases hu
  exact ht

/-- No sign of assignment is where another mark is. -/
theorem noAssign_mark {kind : TokenKind} {c : Char} (h : Token.IsWhole false kind [c])
    (hkind : kind ≠ .assign) (x : Input) : NoAssign (' ' :: c :: ' ' :: x) :=
  noAssign_of_scan (h.scan_code x) hkind

/-- Every expression ends here, and no sign of assignment follows. -/
structure Ends (s : Input) : Prop where
  stops : ∀ extent, Stops extent s
  noAssign : NoAssign s

/-- Expressions end before commas, colons and closing brackets. -/
theorem ends_mark {kind : TokenKind} {c : Char} (h : Token.IsWhole false kind [c])
    (hkind : kind ∈ [.comma, .colon, .rightParen, .rightBracket, .rightBrace]) (x : Input) :
    Ends (' ' :: c :: ' ' :: x) := by
  constructor
  · intro extent
    refine stops_of_scan (Tail.scan_mark h extent x) ?_
    simp only [List.mem_cons, List.not_mem_nil, or_false] at hkind
    rcases hkind with rfl | rfl | rfl | rfl | rfl <;> exact ite_self _
  · refine noAssign_mark h ?_ x
    rintro rfl
    simp at hkind

/-- The comma is a token. -/
theorem isWhole_comma : Token.IsWhole false .comma [','] := ⟨List.cons_ne_nil _ _, rfl⟩

/-- The colon is a token. -/
theorem isWhole_colon : Token.IsWhole false .colon [':'] := ⟨List.cons_ne_nil _ _, rfl⟩

/-- The point is a token. -/
theorem isWhole_dot : Token.IsWhole false .dot ['.'] := ⟨List.cons_ne_nil _ _, rfl⟩

/-- The sign of assignment is a token. -/
theorem isWhole_assign : Token.IsWhole false .assign ['='] := ⟨List.cons_ne_nil _ _, rfl⟩

/-! ## Lists of members -/

/-- A token that neither separates nor ends the members of a list, nor names an argument. -/
structure Token.BeginsMember (t : Token) : Prop where
  comma : t.kind ≠ .comma
  assign : t.kind ≠ .assign
  closer : ∀ b : Bracket, t.text.head? ≠ some b.closer

/-- How a member of a list begins: with a space and such a token. -/
structure Tree.Begins (t : Tree) : Prop where
  space : ∃ s, t.source = ' ' :: s
  first : ∀ x, ∃ next, Token.scan .code (t.source ++ ' ' :: x) = .ok next ∧ next.BeginsMember

/-- No comma is where a token begins a member. -/
theorem Part.atComma_of_beginsMember {s : Input} {next : Token}
    (hscan : Token.scan .code s = .ok next) (h : next.BeginsMember) :
    atComma.holds s = .ok (false, s) := by
  have hnone : (Pattern.kind .comma).take? next = none := if_neg h.comma
  rw [atComma, Look.holds_of_scan hscan, hnone]
  rfl

/-- No closing bracket is where a token begins a member. -/
theorem Part.atCloser_of_beginsMember {s : Input} {next : Token}
    (hscan : Token.scan .code s = .ok next) (h : next.BeginsMember) (b : Bracket) :
    (Look.next .code (.closer b)).holds s = .ok (false, s) := by
  have hnone : (Pattern.closer b).take? next = none := by
    have hcloser := h.closer b
    unfold Pattern.take?
    split
    · rfl
    · rename_i c more htext
      rw [htext, List.head?_cons] at hcloser
      exact if_neg fun hc => hcloser (congrArg some hc)
  rw [Look.holds_of_scan hscan, hnone]
  rfl

/-- No comma is where a member begins. -/
theorem Part.atComma_of_begins {t : Tree} (h : t.Begins) (x : Input) :
    atComma.holds (t.source ++ ' ' :: x) = .ok (false, t.source ++ ' ' :: x) := by
  obtain ⟨next, hscan, hnext⟩ := h.first x
  exact atComma_of_beginsMember hscan hnext

/-- No closing bracket is where a member begins. -/
theorem Part.atCloser_of_begins {t : Tree} (h : t.Begins) (b : Bracket) (x : Input) :
    (Look.next .code (.closer b)).holds (t.source ++ ' ' :: x) =
      .ok (false, t.source ++ ' ' :: x) := by
  obtain ⟨next, hscan, hnext⟩ := h.first x
  exact atCloser_of_beginsMember hscan hnext b

/-- Whether a comma comes next is seen at a mark. -/
theorem Part.atComma_of_mark {kind : TokenKind} {c : Char} (h : Token.IsWhole false kind [c])
    (x : Input) :
    atComma.holds (' ' :: c :: ' ' :: x) =
      .ok (decide (kind = .comma), ' ' :: c :: ' ' :: x) := by
  have hscan := h.scan_code x
  rw [List.singleton_append] at hscan
  have htake : ((Pattern.kind .comma).take? ⟨kind, [' '], [c], ' ' :: x⟩).isSome =
      decide (kind = .comma) := by
    by_cases hkind : kind = .comma <;> simp [Pattern.take?, hkind]
  rw [atComma, Look.holds_of_scan hscan, htake]

/-- The closing bracket is seen where it is. -/
theorem Part.atCloser_of_closer (b : Bracket) (x : Input) :
    (Look.next .code (.closer b)).holds (' ' :: b.closer :: ' ' :: x) =
      .ok (true, ' ' :: b.closer :: ' ' :: x) := by
  have hscan := (b.isWhole_closer false).scan_code x
  rw [List.singleton_append] at hscan
  have htake : (Pattern.closer b).take? ⟨b.closerKind, [' '], [b.closer], ' ' :: x⟩ =
      some ⟨b.closerKind, [' '], [b.closer], ' ' :: x⟩ := if_pos rfl
  rw [Look.holds_of_scan hscan, htake]
  rfl

/-- No comma is where a list ends. -/
theorem Part.atComma_of_closer (b : Bracket) (x : Input) :
    atComma.holds (' ' :: b.closer :: ' ' :: x) = .ok (false, ' ' :: b.closer :: ' ' :: x) := by
  rw [atComma_of_mark (b.isWhole_closer false)]
  cases b <;> rfl

/-- Expressions end before what comes after a member of a list. -/
theorem ends_following (b : Bracket) (trailing : Bool) {ts : List Tree}
    (hts : ∀ t ∈ ts, t.Begins) (x : Input) :
    ∃ y, Tree.sources (Tree.following trailing ts) ++ ' ' :: b.closer :: ' ' :: x = ' ' :: y ∧
      Ends (' ' :: y) := by
  cases ts with
  | nil =>
    cases trailing with
    | true => exact ⟨_, rfl, ends_mark isWhole_comma (by simp) (b.closer :: ' ' :: x)⟩
    | false =>
      refine ⟨_, rfl, ends_mark (b.isWhole_closer false) ?_ x⟩
      cases b <;> simp [Bracket.closerKind]
  | cons t ts =>
    obtain ⟨s, hs⟩ := (hts t List.mem_cons_self).space
    refine ⟨',' :: ' ' :: (s ++ Tree.sources (Tree.following trailing ts) ++
      ' ' :: b.closer :: ' ' :: x), ?_, ends_mark isWhole_comma (by simp) _⟩
    simp [Tree.following, Tree.sources, Tree.source, Tree.mark, hs]

section Members

variable {operand : Extent → Parser Tree} {b : Bracket} {member : List Part} {ts : List Tree}

/-- Every tree is read as a member where an expression ends after it. -/
def ReadsMembers (operand : Extent → Parser Tree) (member : List Part) (ts : List Tree) : Prop :=
  ∀ t ∈ ts, ∀ y, Ends (' ' :: y) →
    Part.readAll operand member (t.source ++ ' ' :: y) = .ok ([t], ' ' :: y)

/-- What comes after a member of a list is read. -/
theorem Part.read_following (b : Bracket) (trailing : Bool) (hts : ∀ t ∈ ts, t.Begins)
    (hread : ReadsMembers operand member ts) (x : Input) :
    (repeated atComma [comma, .choice (.next .code (.closer b)) [] member]).read operand
        (Tree.sources (Tree.following trailing ts) ++ ' ' :: b.closer :: ' ' :: x) =
      .ok (Tree.following trailing ts, ' ' :: b.closer :: ' ' :: x) := by
  have hcomma : ∀ y, comma.read operand (' ' :: ',' :: ' ' :: y) = .ok ([.mark ','], ' ' :: y) :=
    fun y => read_token (Terminal.read_mark isWhole_comma _ y)
  have hlast : (repeated atComma [comma, .choice (.next .code (.closer b)) [] member]).read operand
      (' ' :: b.closer :: ' ' :: x) = .ok ([], ' ' :: b.closer :: ' ' :: x) :=
    read_repeated_nil (atComma_of_closer b x)
  induction ts with
  | nil =>
    cases trailing with
    | false => exact hlast
    | true =>
      -- One more comma, after which the list ends.
      have hchoice : (choice (.next .code (.closer b)) [] member).read operand
          (' ' :: b.closer :: ' ' :: x) = .ok ([], ' ' :: b.closer :: ' ' :: x) :=
        read_choice_yes (atCloser_of_closer b x) rfl
      have hround := readAll_cons (hcomma _) (readAll_singleton hchoice)
      refine read_repeated_cons (atComma_of_mark isWhole_comma _) hround ?_ hlast
      simp
  | cons t ts ih =>
    obtain ⟨ht, hts⟩ := List.forall_mem_cons.1 hts
    obtain ⟨htread, hread⟩ := List.forall_mem_cons.1 hread
    obtain ⟨s, hs⟩ := ht.space
    obtain ⟨y, hy, hends⟩ := ends_following b trailing hts x
    -- A comma and the next member.
    have hinput : Tree.sources (Tree.following trailing (t :: ts)) ++ ' ' :: b.closer :: ' ' :: x =
        ' ' :: ',' :: ' ' :: (s ++ ' ' :: y) := by
      rw [← hy]
      simp [Tree.following, Tree.sources, Tree.source, Tree.mark, hs]
    have htspace : ' ' :: (s ++ ' ' :: y) = t.source ++ ' ' :: y := by rw [hs, List.cons_append]
    have hfirst := hcomma (s ++ ' ' :: y)
    rw [htspace] at hfirst
    have hchoice : (choice (.next .code (.closer b)) [] member).read operand
        (t.source ++ ' ' :: y) = .ok ([t], ' ' :: y) :=
      read_choice_no (atCloser_of_begins ht b y) (htread y hends)
    have hmore := ih hts hread
    rw [hy] at hmore
    have hlook := atComma_of_mark isWhole_comma (s ++ ' ' :: y)
    rw [htspace] at hlook
    rw [hinput, htspace]
    refine read_repeated_cons hlook (readAll_cons hfirst (readAll_singleton hchoice)) ?_ hmore
    simp only [List.length_cons, List.length_append]
    omega

/-- The members of a list are read. -/
theorem Part.read_separated (b : Bracket) (trailing : Bool) (hts : ∀ t ∈ ts, t.Begins)
    (hread : ReadsMembers operand member ts) (x : Input) :
    (choice atComma [comma]
        [.choice (.next .code (.closer b)) []
          (member ++
            [.repeated atComma [comma, .choice (.next .code (.closer b)) [] member]])]).read
        operand (Tree.sources (Tree.separated trailing ts) ++ ' ' :: b.closer :: ' ' :: x) =
      .ok (Tree.separated trailing ts, ' ' :: b.closer :: ' ' :: x) := by
  cases ts with
  | nil =>
    cases trailing with
    | true =>
      -- A comma alone.
      have hcomma : comma.read operand (' ' :: ',' :: ' ' :: b.closer :: ' ' :: x) =
          .ok ([.mark ','], ' ' :: b.closer :: ' ' :: x) :=
        read_token (Terminal.read_mark isWhole_comma _ _)
      exact read_choice_yes (atComma_of_mark isWhole_comma _) (readAll_singleton hcomma)
    | false =>
      exact read_choice_no (atComma_of_closer b x)
        (readAll_singleton (read_choice_yes (atCloser_of_closer b x) rfl))
  | cons t ts =>
    obtain ⟨ht, hts⟩ := List.forall_mem_cons.1 hts
    obtain ⟨htread, hread⟩ := List.forall_mem_cons.1 hread
    obtain ⟨y, hy, hends⟩ := ends_following b trailing hts x
    have hmore := read_following b trailing hts hread x
    rw [hy] at hmore
    have hinput : Tree.sources (Tree.separated trailing (t :: ts)) ++ ' ' :: b.closer :: ' ' :: x =
        t.source ++ ' ' :: y := by
      rw [Tree.separated, Tree.sources, List.append_assoc, hy]
    rw [hinput]
    exact read_choice_no (atComma_of_begins ht y) (readAll_singleton
      (read_choice_no (atCloser_of_begins ht b y)
        (readAll_both (htread y hends) (readAll_singleton hmore))))

/-- A space stands before the members of a list, or before what comes after them. -/
theorem Tree.sources_separated (trailing : Bool) (hts : ∀ t ∈ ts, t.Begins) (x : Input) :
    ∃ y, sources (separated trailing ts) ++ ' ' :: x = ' ' :: y := by
  cases ts with
  | nil => cases trailing <;> exact ⟨_, rfl⟩
  | cons t ts =>
    obtain ⟨s, hs⟩ := (hts t List.mem_cons_self).space
    rw [separated, sources, hs]
    exact ⟨_, rfl⟩

/-- A list of members between brackets is read. -/
theorem Part.read_bracketed (b : Bracket) {mode : Mode} (hmode : mode = .code ∨ mode = .operand)
    (trailing : Bool) (hts : ∀ t ∈ ts, t.Begins) (hread : ReadsMembers operand member ts)
    (x : Input) :
    readAll operand (bracketed b mode member)
        (Tree.sources (Tree.bracketed b trailing ts) ++ ' ' :: x) =
      .ok (Tree.bracketed b trailing ts, ' ' :: x) := by
  obtain ⟨y, hy⟩ := Tree.sources_separated trailing hts (b.closer :: ' ' :: x)
  have hinput : Tree.sources (Tree.bracketed b trailing ts) ++ ' ' :: x =
      ' ' :: b.first :: ' ' :: y := by
    rw [← hy]
    simp [Tree.sources_bracketed]
  have hmembers := read_separated b trailing hts hread x
  rw [hy] at hmembers
  rw [hinput]
  exact readAll_cons (read_token (Terminal.read_opener b hmode y))
    (readAll_cons hmembers (readAll_singleton (read_token (Terminal.read_closer b x))))

end Members

end Stencil
