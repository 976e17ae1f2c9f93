import Stencil.Proofs.Recovery

/-!
# Where faults lie

A fault that is reported while an item is read lies in what the reader takes for the item: not
before the place where the item begins, and not behind the place where reading goes on after it. At
that place itself the next item begins, and an item can report a fault there too; but then it does
so with a cause that no fault has which is reported at the end of an item (`Cause.isOfItem`). A
parser that fails may have looked ahead of the place where it stopped, but there is no place between
where an item may begin (`Parser.Skips`). The main statement is `Template.step_lies`.
-/

namespace Stencil

/-- Whether a cause is one that is reported where the item begins that has it. -/
def Cause.isOfItem : Cause → Bool
  | unterminatedDelimiter => true
  | unexpectedToken expected => expected = "text, element or template tag"
  | _ => false

/-- The next place where an item may begin. -/
def nextItem (s : Input) : Input := (splitBefore atOpener s).2

/-- The next place where an item may begin is an end of the input. -/
theorem nextItem_suffix (s : Input) : nextItem s <:+ s := ⟨_, splitBefore_append atOpener s⟩

/-- An item does not begin in text without braces and angle brackets. -/
theorem nextItem_append {text : List Char} (h : ∀ c ∈ text, c ≠ '{' ∧ c ≠ '<') (s : Input) :
    nextItem (text ++ s) = nextItem s := by
  induction text with
  | nil => rfl
  | cons c text ih =>
    have hc := h c List.mem_cons_self
    have hstop : atOpener (c :: (text ++ s)) = false := by
      unfold atOpener
      split
      · rename_i heq
        exact absurd (List.cons_eq_cons.1 heq).1 hc.1
      · rename_i heq
        exact absurd (List.cons_eq_cons.1 heq).1 hc.2
      · rfl
    rw [← ih fun d hd => h d (List.mem_cons_of_mem c hd), List.cons_append, nextItem, splitBefore,
      hstop]
    rfl

/-- An item does not begin in blanks. -/
theorem nextItem_blanks {gap : List Char} (h : ∀ c ∈ gap, isBlank c) (s : Input) :
    nextItem (gap ++ s) = nextItem s := by
  refine nextItem_append (fun c hc => ⟨?_, ?_⟩) s
  · rintro rfl
    cases h _ hc
  · rintro rfl
    cases h _ hc

/-- A fault lies between the place where `s` is left to read and the one where `rest` is. -/
structure Fault.Lies (s rest : Input) (f : Fault) : Prop where
  /-- It does not lie before the first place. -/
  within : f.found <:+ s
  /-- It does not lie behind the second place. -/
  before : rest <:+ f.found
  /-- No item that would begin at the second place is reported by it. -/
  last : f.found = rest → f.cause.isOfItem = false

namespace Fault.Lies

variable {f : Fault} {s s' rest rest' : Input}

/-- A fault lies between places that are further apart. -/
theorem mono (h : f.Lies s rest) (hs : s <:+ s') (hrest : rest' <:+ rest) : f.Lies s' rest' := by
  refine ⟨h.within.trans hs, hrest.trans h.before, fun hfound => h.last ?_⟩
  -- Between the two ends there is no room left.
  have hlength := h.before.length_le
  rw [hfound] at hlength
  rw [hfound, hrest.eq_of_length_le hlength]

end Fault.Lies

/-! ## Tokens -/

namespace Token

/-- What is wrong with a token is nothing that is wrong with an item. -/
theorem scanCode_cause {operand : Bool} {s : Input} {cause : Cause}
    (h : scanCode operand s = .error cause) : cause.isOfItem = false := by
  unfold scanCode at h
  repeat' split at h
  all_goals cases h
  all_goals rfl

/-- What is wrong with a token of a tag is nothing that is wrong with an item. -/
theorem scanTag_cause {s : Input} {cause : Cause} (h : scanTag s = .error cause) :
    cause.isOfItem = false := by
  unfold scanTag at h
  repeat' split at h
  all_goals cases h
  all_goals rfl

/-- A malformed token is found after the blanks. -/
theorem afterBlanks_lies {scan : Input → Except Cause Token} {s : Input} {fault : Fault}
    (hscan : ∀ {s cause}, scan s = .error cause → cause.isOfItem = false)
    (h : afterBlanks scan s = .error fault) : fault.Lies s (nextItem s) := by
  obtain ⟨cause, hcause, rfl⟩ := afterBlanks_eq_error.1 h
  have hblanks : ∀ c ∈ s.takeWhile isBlank, isBlank c := List.all_eq_true.1 List.all_takeWhile
  have hnext := nextItem_blanks hblanks (s.dropWhile isBlank)
  rw [List.takeWhile_append_dropWhile] at hnext
  rw [hnext]
  exact ⟨List.dropWhile_suffix _, nextItem_suffix _, fun _ => hscan hcause⟩

/-- A malformed token is found after the blanks, or after the word `not`, which may be the beginning
of an operator. -/
theorem scanOperator_lies {s : Input} {fault : Fault} (h : scanOperator s = .error fault) :
    fault.Lies s (nextItem s) := by
  unfold scanOperator at h
  split at h
  · rename_i hfault
    cases h
    exact afterBlanks_lies scanCode_cause hfault
  · rename_i t ht
    split at h
    · rename_i hnot
      split at h
      · rename_i hfault
        cases h
        have hlies := afterBlanks_lies scanCode_cause hfault
        have hscan : scan .code s = .ok t := ht
        have hsource := gap_append_start hscan
        have hnext : nextItem s = nextItem t.rest := by
          have htext : t.text = ['n', 'o', 't'] := by simp_all [isWord]
          rw [← hsource, nextItem_blanks (isBlank_of_mem_gap hscan), start, nextItem_append]
          simp [htext]
        have hsuffix : t.rest <:+ s := ⟨t.gap ++ t.text, by simpa [start] using hsource⟩
        rw [hnext]
        exact hlies.mono hsuffix (List.suffix_refl _)
      · split at h <;> cases h
    · cases h

/-- A malformed token lies where it is looked for, before the next place where an item may begin. -/
theorem lies_of_scan_eq_error {mode : Mode} {s : Input} {fault : Fault}
    (h : scan mode s = .error fault) : fault.Lies s (nextItem s) := by
  cases mode with
  | text | comment | raw => cases h
  | code | operand => exact afterBlanks_lies scanCode_cause h
  | operator => exact scanOperator_lies h
  | tag => exact afterBlanks_lies scanTag_cause h

/-- A token that does not fit lies where it is looked for, before the next place where an item may
begin. -/
theorem lies_of_scan {mode : Mode} {s : Input} {t : Token} {cause : Cause}
    (h : scan mode s = .ok t) (hcause : cause.isOfItem = false) :
    (⟨cause, t.start⟩ : Fault).Lies s (nextItem s) := by
  have hsource := gap_append_start h
  rw [← hsource, nextItem_blanks (isBlank_of_mem_gap h)]
  exact ⟨List.suffix_append _ _, nextItem_suffix _, fun _ => hcause⟩

end Token

/-! ## Parsers -/

namespace Parser

variable {α β : Type}

/-- When a parser fails its fault lies where it reads, and before the next place where an item may
begin. -/
def Skips (p : Parser α) : Prop :=
  ∀ ⦃s : Input⦄ ⦃e : Failure⦄, p s = .error e → e.toFault.Lies s (nextItem e.stopped)

/-- A parser that goes on skips where its halves do. -/
theorem Skips.bind {p : Parser α} {f : α → Parser β} (hp : p.Skips) (hw : p.Within)
    (hf : ∀ a, (f a).Skips) : (p >>= f).Skips := by
  intro s e h
  rcases bind_eq_error.1 h with h | ⟨a, s', h₁, h₂⟩
  · exact hp h
  · exact (hf a h₂).mono (hw.rest h₁) (List.suffix_refl _)

/-- A parser that answers a value does not fail. -/
theorem Skips.pure (a : α) : (pure a : Parser α).Skips := nofun

/-- Looking at a token skips. -/
theorem Skips.peek (mode : Mode) : (peek mode).Skips := by
  intro s e h
  obtain ⟨fault, hscan, rfl⟩ := peek_eq_error.1 h
  exact Token.lies_of_scan_eq_error hscan

/-- Rounds skip where each of them does. -/
theorem Skips.many {round : Parser (Option α)} (hr : round.Skips) (hw : round.Within) :
    (many round).Skips := by
  intro s e h
  have hkeep : ∀ {s' a rest}, s' <:+ s → round s' = .ok (a, rest) → rest <:+ s :=
    fun hs h => (hw.rest h).trans hs
  obtain ⟨s', hs', hround⟩ := many_eq_error (· <:+ s) hkeep (List.suffix_refl s) h
  exact (hr hround).mono hs' (List.suffix_refl _)

/-- Inside an opener a fault lies where the parser reads, or it is the opener that is not closed. -/
theorem Skips.inside {p : Parser α} {opener s : Input} {e : Failure} (hp : p.Skips) (hw : p.Within)
    (hs : s <:+ opener) (hlt : s.length < opener.length) (h : inside opener p s = .error e) :
    e.toFault.Lies opener (nextItem e.stopped) ∧
      (e.cause = .unterminatedDelimiter ∨ e.found <:+ s) := by
  obtain ⟨f, hf, rfl⟩ := inside_eq_error.1 h
  have hlies := hp hf
  unfold Failure.inside
  split
  · -- What is left after the parser is shorter than the opener.
    have hsuffix := (nextItem_suffix f.stopped).trans (hw.stopped hf)
    refine ⟨⟨List.suffix_refl _, hsuffix.trans hs, fun hopener => ?_⟩, .inl rfl⟩
    have hopener : opener = nextItem f.stopped := hopener
    have hlength := hsuffix.length_le
    rw [← hopener] at hlength
    omega
  · exact ⟨hlies.mono hs (List.suffix_refl _), .inr hlies.within⟩

end Parser

open Stencil.Parser (Within Skips)

/-- A token skips, if what is reported where it is missing says nothing of an item. -/
theorem Terminal.read_skips {t : Terminal}
    (ht : (Cause.unexpectedToken t.expected).isOfItem = false) : t.read.Skips := by
  intro s e h
  rcases Parser.bind_eq_error.1 h with h | ⟨next, s', hpeek, h⟩
  · exact Skips.peek _ h
  · obtain ⟨hscan, rfl⟩ := Parser.peek_eq_ok.1 hpeek
    cases htake : t.pattern.take? next with
    | none =>
      rw [htake] at h
      cases h
      exact Token.lies_of_scan hscan ht
    | some token =>
      rw [htake] at h
      cases h

/-- Looking skips. -/
theorem Look.holds_skips (look : Look) : look.holds.Skips := by
  cases look with
  | next mode pattern => exact (Skips.peek mode).bind (Within.peek mode) fun _ => Skips.pure _
  | named => exact nofun

/-- A token with text leaves less than begins where it does. -/
theorem Terminal.read_rest_lt {t : Terminal} (ht : t.pattern.hasText = true) {s rest : Input}
    {next : Token} {leaf : Tree} (hscan : Token.scan t.mode s = .ok next)
    (h : t.read s = .ok (leaf, rest)) : rest <:+ next.start ∧ rest.length < next.start.length := by
  obtain ⟨next', taken, hscan', htake, -, rfl⟩ := exists_of_read h
  obtain rfl := Except.ok.inj (hscan.symm.trans hscan')
  have htext := List.length_pos_iff.2 (Pattern.take?_ne_nil hscan ht htake)
  rw [← (Pattern.take?_start htake).2, Token.start]
  refine ⟨List.suffix_append _ _, ?_⟩
  rw [List.length_append]
  omega

namespace Part

mutual

/-- Whether a part reports nothing of an item where it fails, and opening tokens have text. -/
def isInner : Part → Bool
  | token t => !(Cause.unexpectedToken t.expected).isOfItem
  | .operand _ _ | callee => true
  | node _ _ parts | repeated _ parts => areInner parts
  | enclosed _ _ opening parts =>
    !(Cause.unexpectedToken opening.expected).isOfItem && opening.pattern.hasText && areInner parts
  | choice _ yes no => areInner yes && areInner no
  | refuse cause => !cause.isOfItem

/-- Whether a production reports nothing of an item where it fails, and opening tokens have text. -/
def areInner : List Part → Bool
  | [] => true
  | p :: ps => p.isInner && areInner ps

end

/-- What stands between an opening token and its counterpart fails behind the opening token, or it
is the opening token that is not closed, if the opening token is there. -/
theorem lies_of_enclosed {operand : Extent → Parser Tree} {field : Option Field} {kind : Kind}
    {opening : Terminal} {parts : List Part} (hskips : (readAll operand parts).Skips)
    (hwithin : (readAll operand parts).Within) (htext : opening.pattern.hasText = true)
    {s : Input} {next : Token} {e : Failure} (hscan : Token.scan opening.mode s = .ok next)
    (h : (enclosed field kind opening parts).read operand s = .error e) :
    opening.read s = .error e ∨ e.toFault.Lies next.start (nextItem e.stopped) ∧
      e.stopped.length < next.start.length ∧
      (e.cause = .unterminatedDelimiter ∨ e.found.length < next.start.length) := by
  rw [read] at h
  rcases Parser.bind_eq_error.1 h with h | ⟨next', s', hpeek, h⟩
  · obtain ⟨fault, hscan', -⟩ := Parser.peek_eq_error.1 h
    rw [hscan] at hscan'
    cases hscan'
  obtain ⟨hscan', rfl⟩ := Parser.peek_eq_ok.1 hpeek
  obtain rfl := Except.ok.inj (hscan.symm.trans hscan')
  rcases Parser.bind_eq_error.1 h with h | ⟨first, s₁, hfirst, h⟩
  · exact .inl h
  rcases Parser.bind_eq_error.1 h with h | ⟨_, _, _, h⟩
  · right
    obtain ⟨hsuffix, hlt⟩ := Terminal.read_rest_lt htext hscan hfirst
    obtain ⟨hlies, hcause⟩ := hskips.inside hwithin hsuffix hlt h
    have hstopped := ((hwithin.inside next.start).stopped h).length_le
    refine ⟨hlies, by omega, hcause.imp_right fun hfound => ?_⟩
    have := hfound.length_le
    omega
  · cases h

mutual

/-- A part skips, if operands do. -/
theorem read_skips {operand : Extent → Parser Tree} (hw : ∀ extent, (operand extent).Within)
    (ho : ∀ extent, (operand extent).Skips) :
    ∀ p : Part, p.isInner = true → (p.read operand).Skips
  | token t, hp => by
    rw [isInner, Bool.not_eq_true'] at hp
    exact (Terminal.read_skips hp).bind t.read_within fun _ => Skips.pure _
  | .operand _ extent, _ => (ho extent).bind (hw extent) fun _ => Skips.pure _
  | callee, _ => (ho .whole).bind (hw .whole) fun _ => Skips.pure _
  | node _ _ parts, hp =>
    (readAll_skips hw ho parts hp).bind (readAll_within hw parts) fun _ => Skips.pure _
  | enclosed field kind opening parts, hp => by
    simp only [isInner, Bool.and_eq_true, Bool.not_eq_true'] at hp
    obtain ⟨⟨hopening, htext⟩, hparts⟩ := hp
    intro s e h
    cases hscan : Token.scan opening.mode s with
    | error fault =>
      rw [read] at h
      rcases Parser.bind_eq_error.1 h with h | ⟨next, _, hpeek, _⟩
      · exact Skips.peek _ h
      · rw [(Parser.peek_eq_ok.1 hpeek).1] at hscan
        cases hscan
    | ok next =>
      have hstart : next.start <:+ s := ⟨next.gap, Token.gap_append_start hscan⟩
      rcases lies_of_enclosed (readAll_skips hw ho parts hparts) (readAll_within hw parts) htext
        hscan h with h | ⟨hlies, -⟩
      · exact Terminal.read_skips hopening h
      · exact hlies.mono hstart (List.suffix_refl _)
  | choice look yes no, hp => by
    simp only [isInner, Bool.and_eq_true] at hp
    refine look.holds_skips.bind look.holds_within fun found => ?_
    cases found with
    | true => exact readAll_skips hw ho yes hp.1
    | false => exact readAll_skips hw ho no hp.2
  | repeated look parts, hp => by
    have hparts := readAll_skips hw ho parts hp
    have hwithin := readAll_within hw parts
    refine Skips.bind (Skips.many ?_ ?_) (Within.many ?_) fun _ => Skips.pure _
    · refine look.holds_skips.bind look.holds_within fun found => ?_
      cases found with
      | true => exact hparts.bind hwithin fun _ => Skips.pure _
      | false => exact Skips.pure _
    all_goals
      refine look.holds_within.bind fun found => ?_
      cases found with
      | true => exact hwithin.bind fun _ => Within.pure _
      | false => exact Within.pure _
  | refuse cause, hp => by
    rw [isInner, Bool.not_eq_true'] at hp
    intro s e h
    rcases Parser.bind_eq_error.1 h with h | ⟨next, _, hpeek, h⟩
    · exact Skips.peek _ h
    · obtain ⟨hscan, rfl⟩ := Parser.peek_eq_ok.1 hpeek
      cases h
      exact Token.lies_of_scan hscan hp

/-- A production skips, if operands do. -/
theorem readAll_skips {operand : Extent → Parser Tree} (hw : ∀ extent, (operand extent).Within)
    (ho : ∀ extent, (operand extent).Skips) :
    ∀ ps : List Part, areInner ps = true → (readAll operand ps).Skips
  | [], _ => Skips.pure _
  | p :: ps, hps => by
    simp only [areInner, Bool.and_eq_true] at hps
    refine (read_skips hw ho p hps.1).bind (read_within hw p) fun _ => ?_
    exact (readAll_skips hw ho ps hps.2).bind (readAll_within hw ps) fun _ => Skips.pure _

end

end Part

/-! ## Expressions -/

/-- The parts of a primary report nothing of an item. -/
theorem Primary.areInner_of_of? {t : Token} {kind : Kind} {parts : List Part}
    (h : Primary.of? t = some (.node kind parts)) : Part.areInner parts = true := by
  rcases of?_eq_node h with h | h | ⟨h, -⟩
  · cases h
    decide
  · cases h
    decide
  · cases h
    rfl

/-- The parts of a tail report nothing of an item. -/
theorem Tail.areInner_of_of? {t : Token} {tail : Tail Part} (h : Tail.of? t = some tail) :
    Part.areInner tail.more = true := by
  rcases of?_eq_some h with ⟨rfl, -⟩ | ⟨rfl, -⟩ | ⟨rfl, -⟩ | ⟨rfl, -⟩ | ⟨rfl, -⟩
  · decide
  · decide
  · decide
  · rfl
  · rfl

/-- A primary skips, if operands do. -/
theorem Primary.read_skips {operand : Extent → Parser Tree}
    (hw : ∀ extent, (operand extent).Within) (ho : ∀ extent, (operand extent).Skips) :
    (Primary.read operand).Skips := by
  intro s e h
  rcases Parser.bind_eq_error.1 h with h | ⟨next, _, hpeek, h⟩
  · exact Skips.peek _ h
  obtain ⟨hscan, rfl⟩ := Parser.peek_eq_ok.1 hpeek
  cases hform : Primary.of? next with
  | none =>
    rw [hform] at h
    cases h
    exact Token.lies_of_scan hscan rfl
  | some form =>
    rw [hform] at h
    cases form with
    | leaf kind => cases h
    | node kind parts =>
      have hparts := Part.readAll_skips hw ho parts (areInner_of_of? hform)
      exact hparts.bind (Part.readAll_within hw parts) (fun _ => Skips.pure _) h

/-- A tail skips, if operands do. -/
theorem Tail.read_skips {operand : Extent → Parser Tree} (extent : Extent)
    (hw : ∀ extent, (operand extent).Within) (ho : ∀ extent, (operand extent).Skips) :
    (Tail.read operand extent).Skips := by
  refine (Skips.peek _).bind (Within.peek _) fun next => ?_
  cases hform : if admits extent next then of? next else none with
  | none => exact Skips.pure _
  | some tail =>
    have hof : of? next = some tail := by
      split at hform
      · exact hform
      · cases hform
    have hparts := Part.readAll_skips hw ho tail.more (areInner_of_of? hof)
    exact hparts.bind (Part.readAll_within hw tail.more) fun _ => Skips.pure _

/-- An expression skips. -/
theorem expression_skips (depth : Nat) (extent : Extent) : (expression depth extent).Skips := by
  induction depth generalizing extent with
  | zero =>
    intro s e h
    cases h
    exact ⟨List.suffix_refl _, nextItem_suffix _, fun _ => rfl⟩
  | succ depth ih =>
    have hw := expression_within depth
    have hhead := Primary.read_within (fun _ _ _ _ h => expression_append depth h) hw
    have htail := Tail.read_within extent hw
    refine (Primary.read_skips hw ih).bind hhead fun _ => ?_
    exact (Skips.many (Tail.read_skips extent hw ih) htail).bind (Within.many htail)
      fun _ => Skips.pure _

end Stencil
