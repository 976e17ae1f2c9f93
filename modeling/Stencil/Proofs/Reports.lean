import Stencil.Proofs.Accounting
import Stencil.Proofs.Lockstep
import Stencil.Proofs.RawTags

/-!
# What faults say of their places

A fault is sound (`Fault.Sound`) if what its cause says is so at its place: an opener stands where a
delimiter is not matched, a quote that nothing closes where a string does not end, and so on. A
parser is described by what holds of the places where it begins and ends (`Parser.Reports`), and
where it fails it does so with a sound fault. The places of operands are what the description is
about: an operand is read directly behind a token (`BehindToken`) and ends directly behind one
(`Parser.Passes`), and one that is too deep is reported where it would begin, be it in front of
blanks or at the end of the input. The main statements are `Part.readAll_reports` for productions
and `expression_reports` for expressions of every depth.
-/

namespace Stencil

variable {source s rest : Input}

/-! ## Places -/

/-- The words that begin statements. -/
def Statement.keywords : List String := Statement.bodies.map Prod.fst

example : Statement.keywords =
    ["for", "if", "elif", "else", "include", "extends", "block", "set", "macro", "call", "filter",
      "raw", "import", "from", "endmacro", "endfor", "endif", "endblock", "endraw", "endcall",
      "endfilter"] := rfl

/-- The characters of words with which an input begins. -/
def wordAt (s : Input) : List Char := s.takeWhile isWordChar

/-- Whether a token may begin here, or the input ends: what comes next is no blank. -/
def Flush (s : Input) : Prop := ∀ c ∈ s.head?, isBlank c = false

/-- Something else than a blank stands directly before the place where `s` is left to read. -/
def BehindToken (source s : Input) : Prop := ∃ before, source = before ++ s ∧ Trimmed before

/-- The delimiter of a statement, and perhaps a hyphen that touches it, stand directly before the
place where `s` is left to read. -/
def InStatement (source s : Input) : Prop :=
  ∃ front leading, source = (front ++ ("\x7b%".toList ++ hyphen leading)) ++ s

/-- The place is one of the source. -/
theorem BehindToken.suffix (h : BehindToken source s) : s <:+ source := by
  obtain ⟨before, hsource, -⟩ := h
  exact ⟨before, hsource.symm⟩

/-- There is a place behind text that does not end with a blank. -/
theorem BehindToken.of_append {text : List Char} (hs : text ++ rest <:+ source)
    (ht : Trimmed text) : BehindToken source rest := by
  obtain ⟨before, rfl⟩ := hs
  exact ⟨before ++ text, (List.append_assoc ..).symm, ht.append_left before⟩

/-- Neither the delimiter of a statement nor the hyphen is a blank. -/
theorem InStatement.behind (h : InStatement source s) : BehindToken source s := by
  obtain ⟨front, leading, hsource⟩ := h
  refine ⟨_, hsource, Trimmed.append_left ?_ front⟩
  cases leading with
  | false => exact ⟨['{'], '%', rfl, rfl⟩
  | true => exact ⟨['{', '%'], '-', rfl, rfl⟩

/-- Behind blanks there is something else, or the input ends. -/
theorem flush_dropWhile (s : Input) : Flush (s.dropWhile isBlank) := by
  intro c hc
  have hnot := List.head?_dropWhile_not isBlank s
  rwa [Option.mem_def.1 hc] at hnot

/-- No opener begins with a blank. -/
theorem flush_of_atOpener (h : atOpener s = true) : Flush s := by
  unfold atOpener at h
  split at h
  · exact fun c hc => by cases hc; rfl
  · exact fun c hc => by cases hc; rfl
  · cases h

/-- No number begins with a blank. -/
theorem flush_of_starts (h : Numeral.starts s = true) : Flush s := by
  intro c hc
  cases hblank : isBlank c with
  | false => rfl
  | true =>
    obtain ⟨more, rfl⟩ := List.head?_eq_some_iff.1 hc
    rcases eq_of_isBlank hblank with rfl | rfl | rfl | rfl | rfl <;> cases h

/-! ## Faults -/

/-- A fault says what is so at its place in `source`. -/
inductive Fault.Sound (source : Input) : Fault → Prop
  /-- An opener stands where a delimiter is not matched. -/
  | unterminated {s : Input} (hs : s <:+ source) (hopener : atOpener s = true) :
    Sound source ⟨.unterminatedDelimiter, s⟩
  /-- A token that does not fit begins where it is found, or the input ends there. -/
  | unexpected {expected : String} {s : Input} (hs : s <:+ source) (hflush : Flush s) :
    Sound source ⟨.unexpectedToken expected, s⟩
  /-- What should be a keyword comes behind the delimiter of a statement and blanks, and is none. -/
  | keyword {b s : List Char} (hopen : InStatement source (b ++ s)) (hb : ∀ c ∈ b, isBlank c = true)
    (hne : s ≠ []) (hflush : Flush s) (hother : ∀ w ∈ Statement.keywords, wordAt s ≠ w.toList) :
    Sound source ⟨.unknownStatementKeyword, s⟩
  /-- A number begins where one is malformed. -/
  | numeral {s : Input} (hs : s <:+ source) (hstarts : Numeral.starts s = true) :
    Sound source ⟨.malformedNumericLiteral, s⟩
  /-- A quote stands where a string does not end, and nothing closes it. -/
  | quotation {q : Char} {s : Input} (hs : q :: s <:+ source) (hq : q = '"' ∨ q = '\'')
    (hclose : Quotation.close? q s = none) : Sound source ⟨.unterminatedStringLiteral, q :: s⟩
  /-- An element that is too deep is reported where it begins. -/
  | element {s : Input} (hs : s <:+ source) (hopener : atOpener s = true) :
    Sound source ⟨.nestingTooDeep, s⟩
  /-- An operand that is too deep is reported behind the token before it. -/
  | operand {s : Input} (hs : BehindToken source s) : Sound source ⟨.nestingTooDeep, s⟩

/-- From outside an opener a fault is sound too: where the input ends inside, it is the opener that
is not matched. -/
theorem Fault.Sound.inside {e : Failure} {opener : Input} (h : e.toFault.Sound source)
    (hs : opener <:+ source) (hopener : atOpener opener = true) :
    (e.inside opener).toFault.Sound source := by
  unfold Failure.inside
  split
  · exact .unterminated hs hopener
  · exact h

/-! ## Tokens -/

namespace Token

variable {cause : Cause}

/-- What is wrong with a token of code is so where the token begins. -/
theorem scanCode_sound {operand : Bool} (h : scanCode operand s = .error cause) (hs : s <:+ source)
    (hflush : Flush s) : (⟨cause, s⟩ : Fault).Sound source := by
  unfold scanCode at h
  split at h
  · cases h
  · cases h
  · rename_i c s _
    split at h
    · rename_i hnumber
      split at h
      · cases h
      · cases h
        refine .numeral hs ?_
        simp only [Bool.or_eq_true, Bool.and_eq_true] at hnumber
        rcases hnumber with hdigit | ⟨-, hstarts⟩
        · exact Numeral.starts_of_isDigit hdigit s
        · exact hstarts
    · split at h
      · rename_i hquote
        split at h
        · cases h
        · rename_i hscan
          cases h
          exact .quotation hs (by simpa using hquote) (Option.map_eq_none_iff.1 hscan)
      · split at h
        · cases h
        · split at h
          · cases h
          · cases h
            exact .unexpected hs hflush

/-- What is wrong with a token of a tag is so where the token begins. -/
theorem scanTag_sound (h : scanTag s = .error cause) (hs : s <:+ source) (hflush : Flush s) :
    (⟨cause, s⟩ : Fault).Sound source := by
  unfold scanTag at h
  split at h
  case h_6 =>
    split at h
    · rename_i hquote
      split at h
      · cases h
      · rename_i hscan
        cases h
        exact .quotation hs (by simpa using hquote) (Option.map_eq_none_iff.1 hscan)
    · split at h
      · cases h
      · cases h
        exact .unexpected hs hflush
  all_goals cases h

/-- What is wrong with a token behind blanks is so there. -/
theorem afterBlanks_sound {scan : Input → Except Cause Token} {fault : Fault}
    (hscan : ∀ {s cause}, scan s = .error cause → s <:+ source → Flush s →
      (⟨cause, s⟩ : Fault).Sound source)
    (h : afterBlanks scan s = .error fault) (hs : s <:+ source) : fault.Sound source := by
  obtain ⟨cause, hcause, rfl⟩ := afterBlanks_eq_error.1 h
  exact hscan hcause ((List.dropWhile_suffix _).trans hs) (flush_dropWhile s)

/-- What is wrong with a token is so at the place where that is reported. -/
theorem sound_of_scan_eq_error {mode : Mode} {fault : Fault} (h : scan mode s = .error fault)
    (hs : s <:+ source) : fault.Sound source := by
  cases mode with
  | text | comment | raw => cases h
  | code | operand => exact afterBlanks_sound scanCode_sound h hs
  | tag => exact afterBlanks_sound scanTag_sound h hs
  | operator =>
    simp only [scan, scanOperator] at h
    split at h
    · rename_i hfirst
      cases h
      exact afterBlanks_sound scanCode_sound hfirst hs
    · rename_i t ht
      split at h
      · split at h
        · -- The token behind the word `not` is malformed.
          rename_i hsecond
          cases h
          have hrest : t.rest <:+ s :=
            ⟨t.gap ++ t.text, by
              simpa [start] using @gap_append_start .code _ _ ht⟩
          exact afterBlanks_sound scanCode_sound hsecond (hrest.trans hs)
        · split at h <;> cases h
      · cases h

/-- A token that blanks may precede begins with none, unless the input ends. -/
theorem flush_start {mode : Mode} {t : Token} (hmode : mode ∈ spacedModes)
    (h : scan mode s = .ok t) : Flush t.start := by
  rw [(scan_blanks hmode h).2]
  exact flush_dropWhile s

/-- In a tag the delimiter of a value is written as elsewhere. -/
theorem scanTag_text_of_valueOpen {t : Token} (h : scanTag s = .ok t) (hk : t.kind = .valueOpen) :
    t.text = ['{', '{'] := by
  unfold scanTag at h
  split at h
  case h_5 =>
    cases h
    rfl
  case h_6 =>
    split at h
    · split at h
      · rename_i hscan
        cases h
        obtain ⟨_, _, rfl⟩ := Option.map_eq_some_iff.1 hscan
        cases hk
      · cases h
    · split at h <;> cases h
      cases hk
  all_goals
    cases h
    cases hk

/-- A token is one of the source. -/
theorem start_suffix {mode : Mode} {t : Token} (h : scan mode s = .ok t) (hs : s <:+ source) :
    t.start <:+ source :=
  List.IsSuffix.trans ⟨t.gap, gap_append_start h⟩ hs

end Token

/-! ## Parsers -/

namespace Parser

variable {α β : Type} {P : Input → Prop} {M : α → Input → Prop} {Q : β → Input → Prop}

/-- From a place of which `P` holds a parser goes on to one of which, with its answer, `Q`
holds, or it fails with a sound fault. -/
structure Reports (source : Input) (P : Input → Prop) (p : Parser α)
    (Q : α → Input → Prop) : Prop where
  rest : ∀ {s a rest}, P s → p s = .ok (a, rest) → Q a rest
  sound : ∀ {s e}, P s → p s = .error e → e.toFault.Sound source

namespace Reports

/-- What is asked for may be more, and what is promised less. -/
theorem mono {p : Parser α} {P' : Input → Prop} {M' : α → Input → Prop}
    (h : Reports source P p M) (hpre : ∀ s, P' s → P s)
    (hpost : ∀ a s, M a s → M' a s) : Reports source P' p M' :=
  ⟨fun hs hok => hpost _ _ (h.rest (hpre _ hs) hok), fun hs herror => h.sound (hpre _ hs) herror⟩

/-- A parser goes on where another one ends. -/
theorem bind {p : Parser α} {f : α → Parser β} (hp : Reports source P p M)
    (hf : ∀ a, Reports source (M a) (f a) Q) : Reports source P (p >>= f) Q := by
  constructor
  · intro s b rest hs h
    obtain ⟨a, s', h₁, h₂⟩ := bind_eq_ok.1 h
    exact (hf a).rest (hp.rest hs h₁) h₂
  · intro s e hs h
    rcases bind_eq_error.1 h with h | ⟨a, s', h₁, h₂⟩
    · exact hp.sound hs h
    · exact (hf a).sound (hp.rest hs h₁) h₂

/-- A parser that answers a value stays where it is. -/
theorem pure {b : β} (h : ∀ s, P s → Q b s) :
    Reports source P (pure b : Parser β) Q := by
  refine ⟨fun hs hok => ?_, fun _ herror => by cases herror⟩
  obtain ⟨rfl, rfl⟩ := pure_eq_ok.1 hok
  exact h _ hs

/-- What is made of an answer says nothing of the place. -/
theorem map {p : Parser α} {stop : Input → Prop} (h : Reports source P p fun _ => stop)
    (f : α → β) : Reports source P (p >>= fun a => Pure.pure (f a)) fun _ => stop :=
  h.bind fun _ => .pure fun _ hs => hs

/-- Looking at a token stays where it is. -/
theorem peek (mode : Mode) (h : ∀ s, P s → s <:+ source) :
    Reports source P (peek mode) fun t s => Token.scan mode s = .ok t ∧ P s := by
  constructor
  · intro s t rest hs hok
    obtain ⟨hscan, rfl⟩ := peek_eq_ok.1 hok
    exact ⟨hscan, hs⟩
  · intro s e hs herror
    obtain ⟨fault, hscan, rfl⟩ := peek_eq_error.1 herror
    exact Token.sound_of_scan_eq_error hscan (h s hs)

/-- Rounds go on from place to place. -/
theorem many {round : Parser (Option α)} (hround : Reports source P round fun _ => P) :
    Reports source P (many round) fun _ => P := by
  constructor
  · intro s as rest hs h
    exact many_rest P (fun hs h => hround.rest hs h) hs h
  · intro s e hs h
    obtain ⟨s', hs', hr⟩ := many_eq_error P (fun hs h => hround.rest hs h) hs h
    exact hround.sound hs' hr

/-- Inside an opener a parser does what it does without. -/
theorem inside {p : Parser α} {opener : Input} (hp : Reports source P p M)
    (hs : opener <:+ source) (hopener : atOpener opener = true) :
    Reports source P (inside opener p) M := by
  refine ⟨fun hs hok => hp.rest hs (inside_eq_ok.1 hok), fun hpre herror => ?_⟩
  obtain ⟨f, hf, rfl⟩ := inside_eq_error.1 herror
  exact (hp.sound hpre hf).inside hs hopener

end Reports

/-- A parser that goes on from behind a token to behind another one. -/
abbrev Passes (source : Input) (p : Parser α) : Prop :=
  Reports source (BehindToken source) p fun _ => BehindToken source

end Parser

open Stencil.Parser (Reports Passes)

/-! ## Productions -/

/-- Whether a token has text and blanks may precede it. -/
def Terminal.isSpaced (t : Terminal) : Bool := t.mode ∈ Token.spacedModes && t.pattern.hasText

/-- A token is read from any place, and what is left is behind it. -/
theorem Terminal.read_reports {t : Terminal} (ht : t.isSpaced = true) :
    Reports source (· <:+ source) t.read fun _ => BehindToken source := by
  simp only [isSpaced, Bool.and_eq_true, decide_eq_true_eq] at ht
  refine (Reports.peek t.mode fun _ hs => hs).bind fun next => ?_
  cases htake : t.pattern.take? next with
  | none =>
    refine ⟨fun _ hok => (by cases hok), fun ⟨hscan, hs⟩ herror => ?_⟩
    cases herror
    exact .unexpected (Token.start_suffix hscan hs) (Token.flush_start ht.1 hscan)
  | some taken =>
    refine ⟨fun ⟨hscan, hs⟩ hok => ?_, fun _ herror => by cases herror⟩
    cases hok
    have hstart := (Pattern.take?_start htake).2
    have htext := Pattern.take?_ne_nil hscan ht.2 htake
    have htrimmed := Pattern.trimmed ht.1 hscan htake (by simp [Token.start, htext])
    refine BehindToken.of_append ?_ htrimmed
    show taken.start <:+ source
    rw [hstart]
    exact Token.start_suffix hscan hs

/-- Looking for a token stays where it is, and tells whether the token comes next. -/
theorem Look.next_reports {mode : Mode} {pattern : Pattern} {P : Input → Prop}
    (h : ∀ s, P s → s <:+ source) :
    Reports source P (Look.next mode pattern).holds fun found s =>
      (∃ next, Token.scan mode s = .ok next ∧ found = (pattern.take? next).isSome) ∧ P s :=
  (Reports.peek mode h).bind fun next => Reports.pure fun _ hs => ⟨⟨next, hs.1, rfl⟩, hs.2⟩

/-- Looking stays where it is. -/
theorem Look.holds_reports (look : Look) {P : Input → Prop} (h : ∀ s, P s → s <:+ source) :
    Reports source P look.holds fun _ => P := by
  cases look with
  | next mode pattern => exact (next_reports h).mono (fun _ hs => hs) fun _ _ hs => hs.2
  | named => exact ⟨fun hs hok => by cases hok; exact hs, fun _ herror => by cases herror⟩

namespace Part

variable {operand : Extent → Parser Tree}

/-- Whether a token is the delimiter of a value in a tag. -/
def opensValue : Terminal → Bool
  | ⟨_, _, .tag, .kind .valueOpen, _⟩ => true
  | _ => false

mutual

/-- Whether the tokens of a part have text, blanks may precede them, and nothing is refused. -/
def isSpaced : Part → Bool
  | token t => t.isSpaced
  | .operand _ _ | callee => true
  | node _ _ parts | repeated _ parts => areSpaced parts
  | enclosed _ _ opening parts => opensValue opening && areSpaced parts
  | choice _ yes no => areSpaced yes && areSpaced no
  | refuse _ => false

/-- Whether the tokens of a production have text, blanks may precede them, and nothing is
refused. -/
def areSpaced : List Part → Bool
  | [] => true
  | p :: ps => p.isSpaced && areSpaced ps

end

/-- A production of one part is read as the part is. -/
theorem readAll_singleton_reports {p : Part} {P Q : Input → Prop}
    (h : Reports source P (p.read operand) fun _ => Q) :
    Reports source P (readAll operand [p]) fun _ => Q :=
  h.bind fun _ => (Reports.pure fun _ hs => hs).map _

/-- What stands between an opening token and its counterpart is read behind that token. -/
theorem read_enclosed_reports {field : Option Field} {kind : Kind} {opening : Terminal}
    {parts : List Part} {P M : Input → Prop} (hpre : ∀ s, P s → s <:+ source)
    (hopening : Reports source P opening.read fun _ => M)
    (hopener : ∀ {s next}, Token.scan opening.mode s = .ok next →
      (opening.pattern.take? next).isSome = true → atOpener next.start = true)
    (hparts : Reports source M (readAll operand parts) fun _ => BehindToken source) :
    Reports source P ((enclosed field kind opening parts).read operand) fun _ =>
      BehindToken source := by
  refine (Reports.peek opening.mode hpre).bind fun next => ?_
  -- Behind the opening token it is known that it is an opener.
  have hfirst : Reports source (fun s => Token.scan opening.mode s = .ok next ∧ P s) opening.read
      fun _ s => (next.start <:+ source ∧ atOpener next.start = true) ∧ M s := by
    refine ⟨fun ⟨hscan, hs⟩ hok => ⟨?_, hopening.rest hs hok⟩, fun ⟨_, hs⟩ herror =>
      hopening.sound hs herror⟩
    obtain ⟨next', taken, hscan', htake, -⟩ := Terminal.exists_of_read hok
    obtain rfl := Except.ok.inj (hscan.symm.trans hscan')
    exact ⟨Token.start_suffix hscan (hpre _ hs), hopener hscan (by rw [htake]; rfl)⟩
  refine hfirst.bind fun first => Reports.map ?_ _
  exact ⟨fun ⟨⟨hs, hopen⟩, hmid⟩ hok => (hparts.inside hs hopen).rest hmid hok,
    fun ⟨⟨hs, hopen⟩, hmid⟩ herror => (hparts.inside hs hopen).sound hmid herror⟩

mutual

/-- A part is read from behind a token to behind another one, if operands are. -/
theorem read_reports
    (ho : ∀ extent, Passes source (operand extent)) :
    ∀ p : Part, p.isSpaced = true →
      Passes source (p.read operand)
  | token t, hp =>
    ((Terminal.read_reports hp).mono (fun _ hs => hs.suffix) fun _ _ hs => hs).map _
  | .operand _ extent, _ => (ho extent).map _
  | callee, _ => (ho .whole).map _
  | node _ _ parts, hp => (readAll_reports ho parts hp).map _
  | enclosed field kind opening parts, hp => by
    simp only [isSpaced, Bool.and_eq_true] at hp
    obtain ⟨hopens, hparts⟩ := hp
    unfold opensValue at hopens
    split at hopens
    case h_2 => cases hopens
    rename_i f k expected
    have hopening := @Terminal.read_reports source ⟨f, k, .tag, .kind .valueOpen, expected⟩ rfl
    refine read_enclosed_reports (fun _ hs => hs.suffix)
      (hopening.mono (fun _ hs => hs.suffix) fun _ _ hs => hs) ?_ (readAll_reports ho parts hparts)
    -- In a tag the delimiter of a value is written as elsewhere.
    intro s next hscan hsome
    obtain ⟨taken, htake⟩ := Option.isSome_iff_exists.1 hsome
    obtain ⟨hkind, -⟩ := Pattern.kind_of_take? htake
    obtain ⟨t, ht, hsame, htext⟩ := Token.exists_scan_of_afterBlanks hscan
    rw [Token.start, htext, Token.scanTag_text_of_valueOpen ht (hsame.symm.trans hkind)]
    rfl
  | choice look yes no, hp => by
    simp only [isSpaced, Bool.and_eq_true] at hp
    refine (look.holds_reports fun _ hs => hs.suffix).bind fun found => ?_
    cases found with
    | true => exact readAll_reports ho yes hp.1
    | false => exact readAll_reports ho no hp.2
  | repeated look parts, hp => by
    have hparts := readAll_reports ho parts hp
    refine (Reports.many ?_).map _
    refine (look.holds_reports fun _ hs => hs.suffix).bind fun found => ?_
    cases found with
    | true => exact hparts.map _
    | false => exact Reports.pure fun _ hs => hs

/-- A production is read from behind a token to behind another one, if operands are. -/
theorem readAll_reports
    (ho : ∀ extent, Passes source (operand extent)) :
    ∀ ps : List Part, areSpaced ps = true →
      Passes source (readAll operand ps)
  | [], _ => Reports.pure fun _ hs => hs
  | p :: ps, hps => by
    simp only [areSpaced, Bool.and_eq_true] at hps
    refine (read_reports ho p hps.1).bind fun _ => ?_
    exact (readAll_reports ho ps hps.2).map _

end

end Part

/-! ## Expressions -/

/-- The tokens of a primary have text, and blanks may precede them. -/
theorem Primary.areSpaced_of_of? {t : Token} {kind : Kind} {parts : List Part}
    (h : Primary.of? t = some (.node kind parts)) : Part.areSpaced parts = true := by
  rcases of?_eq_node h with h | h | ⟨h, hkind⟩
  · cases h
    decide
  · cases h
    decide
  · cases h
    have hoperators : ∀ k ∈ [TokenKind.word, .plus, .minus], (Pattern.kind k).hasText = true := by
      decide
    have htext := hoperators t.kind (by simpa using hkind)
    simp [Part.areSpaced, Part.isSpaced, Terminal.isSpaced, Token.spacedModes, Token.codeModes,
      htext]

/-- The tokens of a tail have text, and blanks may precede them. -/
theorem Tail.areSpaced_of_of? {t : Token} {tail : Tail Part} (h : Tail.of? t = some tail) :
    Part.areSpaced tail.more = true := by
  have hopens := opensAll_of_of? h
  have hbinary : ∀ {kind}, Part.opensAll (binary kind t).more = true →
      Part.areSpaced (binary kind t).more = true := by
    intro kind htext
    simp only [binary, Part.opensAll, Part.opens] at htext
    simp [binary, Part.areSpaced, Part.isSpaced, Terminal.isSpaced, Token.spacedModes,
      Token.codeModes, htext]
  rcases of?_eq_some h with ⟨rfl, -⟩ | ⟨rfl, -⟩ | ⟨rfl, -⟩ | ⟨rfl, -⟩ | ⟨rfl, -⟩
  · decide
  · decide
  · decide
  · exact hbinary hopens
  · exact hbinary hopens

/-- A primary is read from behind a token to behind another one, if operands are. -/
theorem Primary.read_reports {operand : Extent → Parser Tree}
    (ho : ∀ extent, Passes source (operand extent)) :
    Passes source (Primary.read operand) := by
  refine (Reports.peek .operand fun _ hs => hs.suffix).bind fun next => ?_
  have hmode : Mode.operand ∈ Token.spacedModes := by decide
  cases hform : Primary.of? next with
  | none =>
    refine ⟨fun _ hok => (by cases hok), fun ⟨hscan, hs⟩ herror => ?_⟩
    cases herror
    exact .unexpected (Token.start_suffix hscan hs.suffix) (Token.flush_start hmode hscan)
  | some form =>
    cases form with
    | leaf kind =>
      refine ⟨fun ⟨hscan, hs⟩ hok => ?_, fun _ herror => by cases herror⟩
      cases hok
      -- The token that is the expression has text, since it is of a certain kind.
      have htext : next.text ≠ [] := by
        refine Token.text_ne_nil hscan (fun hend => ?_) (fun hraw => ?_)
        · simp [of?, hend] at hform
        · simp [of?, hraw] at hform
      exact BehindToken.of_append (Token.start_suffix hscan hs.suffix)
        (Token.trimmed hmode hscan htext)
    | node kind parts =>
      have hparts := Part.readAll_reports ho parts (areSpaced_of_of? hform)
      exact (hparts.mono (fun _ hs => hs.2) fun _ _ hs => hs).map _

/-- A tail is read from behind a token to behind another one, if operands are. -/
theorem Tail.read_reports {operand : Extent → Parser Tree} (extent : Extent)
    (ho : ∀ extent, Passes source (operand extent)) :
    Passes source (Tail.read operand extent) := by
  refine (Reports.peek _ fun _ hs => hs.suffix).bind fun next => ?_
  refine Reports.mono (P := BehindToken source) ?_ (fun _ hs => hs.2) fun _ _ hs => hs
  cases hform : if admits extent next then of? next else none with
  | none => exact Reports.pure fun _ hs => hs
  | some tail =>
    have hof : of? next = some tail := by
      split at hform
      · exact hform
      · cases hform
    exact (Part.readAll_reports ho tail.more (areSpaced_of_of? hof)).map _

/-- An expression is read from behind a token to behind another one. -/
theorem expression_reports (source : Input) (depth : Nat) (extent : Extent) :
    Passes source (expression depth extent) := by
  induction depth generalizing extent with
  | zero =>
    -- The place where no operand may begin is behind a token.
    refine ⟨fun _ hok => (by cases hok), fun hs herror => ?_⟩
    cases herror
    exact .operand hs
  | succ depth ih =>
    exact (Primary.read_reports ih).bind fun _ =>
      (Reports.many (Tail.read_reports extent ih)).map _

end Stencil
