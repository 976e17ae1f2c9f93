import Stencil.Proofs.TextRuns
import Stencil.Token.Lexer

/-!
# Tokens one after another

A lexer is asked for one token after another, each in a mode of the caller's choice. Wherever it has
come to stand, a token lies behind that place with nothing but blanks before it, and without a token
the place is not left (`Lexer.Lays`). So what was read up to a place are the tokens and the blanks
before them, whatever the modes were (`Lexer.reads_append`). In text no blanks come before a token,
so that there the tokens are all of the source (`Lexer.reads_text`). The main statement is
`Lexer.ofSource_tiled`.
-/

namespace Stencil

/-- What an end of a source begins with stands where that end begins. -/
theorem Between.of_suffix {source : Input} {text after : List Char}
    (h : text ++ after <:+ source) :
    Between source (offset (byteLength source) (text ++ after)) (offset (byteLength source) after)
      text := by
  obtain ⟨before, rfl⟩ := h
  refine ⟨before, after, rfl, ?_, (offset_append ?_).symm⟩
  · rw [offset, byteLength_append, Nat.add_sub_cancel]
  · rw [byteLength_append before]
    exact Nat.le_add_left _ _

/-- Spans stand one after another from byte `start` up to byte `stop`, with nothing between them. -/
def Abut : Nat → List (Nat × Nat) → Nat → Prop
  | start, [], stop => start = stop
  | start, span :: spans, stop => span.1 = start ∧ span.1 ≤ span.2 ∧ Abut span.2 spans stop

/-! ## Single tokens -/

namespace Token

/-- The end of the input is found after blanks where it is found without them. -/
theorem start_of_endOfInput_afterBlanks {scan : Input → Except Cause Token} {s : Input} {t : Token}
    (hscan : ∀ {s t}, scan s = .ok t → t.kind = .endOfInput → t.start = [])
    (h : afterBlanks scan s = .ok t) (hend : t.kind = .endOfInput) : t.start = [] := by
  obtain ⟨next, hnext, rfl⟩ := afterBlanks_eq_ok.1 h
  exact @hscan _ next hnext hend

/-- A token of code that is the end of the input holds nothing. -/
theorem start_of_endOfInput_code {operand : Bool} {s : Input} {t : Token}
    (h : scanCode operand s = .ok t) (hend : t.kind = .endOfInput) : t.start = [] := by
  cases codeToken_of_scanCode h with
  | atEnd => rfl
  | trim | quoted | word => cases hend
  | number hscan =>
    have hnumber := Numeral.scan?_kind hscan
    simp [hend] at hnumber
  | symbol hmem =>
    have hsymbols : ∀ symbol ∈ symbols, symbol.2 ≠ .endOfInput := by decide
    exact absurd hend (hsymbols _ hmem)

/-- A token of a tag that is the end of the input holds nothing. -/
theorem start_of_endOfInput_tag {s : Input} {t : Token} (h : scanTag s = .ok t)
    (hend : t.kind = .endOfInput) : t.start = [] := by
  unfold scanTag at h
  repeat' split at h
  all_goals cases h
  case h_1 => rfl
  case h_1 hq =>
    obtain ⟨_, _, rfl⟩ := Option.map_eq_some_iff.1 hq
    cases hend
  all_goals cases hend

/-- The token that there is at the end of the input is read nowhere else. -/
theorem start_of_endOfInput {mode : Mode} {s : Input} {t : Token} (h : scan mode s = .ok t)
    (hend : t.kind = .endOfInput) : t.start = [] := by
  cases mode with
  | text =>
    cases h
    unfold scanText at hend ⊢
    split at hend <;> cases hend
    rfl
  | comment =>
    cases h
    unfold scanComment at hend ⊢
    split at hend <;> cases hend
    rfl
  | raw =>
    cases h
    cases hend
  | code | operand => exact start_of_endOfInput_afterBlanks start_of_endOfInput_code h hend
  | tag => exact start_of_endOfInput_afterBlanks start_of_endOfInput_tag h hend
  | operator =>
    cases scanOperator_eq_ok.1 h with
    | single hfirst =>
      exact start_of_endOfInput_afterBlanks start_of_endOfInput_code hfirst hend
    | notIn => cases hend

/-- No opener begins in the text that `rest` follows. -/
def Plain (text rest : List Char) : Prop := ∀ p, p ≠ [] → p <:+ text → ¬Opens (p ++ rest)

/-- Whether a token is a run of literal text. -/
structure IsRun (t : Token) : Prop where
  /-- No opener is in it. -/
  free : ∀ w ∈ Stencil.openers, ¬w.toList <:+: t.text
  /-- Behind it an opener comes next, or nothing is left. -/
  ends : t.rest = [] ∨ Opens t.rest
  /-- It is the longest one: what the input begins with is plain up to there and no further. -/
  longest : ∀ a b, a ++ b = t.start → (Plain a b ↔ a.length ≤ t.text.length)

/-- Text is the longest run in which no opener begins. -/
theorem isRun_scanText {s : Input} (h : (scanText s).kind = .text) : (scanText s).IsRun := by
  obtain ⟨hs, hopener⟩ := not_atOpener_of_scanText h
  rw [scanText_of_not_atOpener hs hopener]
  generalize hsplit : splitBefore atOpener s = split
  obtain ⟨text, rest⟩ := split
  obtain rfl : text ++ rest = s := by
    have happend := splitBefore_append atOpener s
    rwa [hsplit] at happend
  have hends : rest = [] ∨ Opens rest := opens_of_splitBefore (congrArg Prod.snd hsplit)
  refine ⟨not_infix_of_splitBefore hsplit, hends, fun a b hab => ⟨fun hplain => ?_, ?_⟩⟩
  · -- What goes on behind the run goes on with an opener.
    by_contra hlt
    obtain ⟨p, rfl, hrest⟩ : ∃ p, a = text ++ p ∧ rest = p ++ b := by
      rcases List.append_eq_append_iff.1 hab with ⟨c, rfl, rfl⟩ | h
      · simp at hlt
      · exact h
    have hp : p ≠ [] := by
      rintro rfl
      simp at hlt
    rcases hends with rfl | hopens
    · simp [hp] at hrest
    · exact hplain p hp (List.suffix_append text p) (hrest ▸ hopens)
  · intro hle p hp hsuffix hopens
    obtain ⟨q, rfl, rfl⟩ : ∃ q, text = a ++ q ∧ b = q ++ rest := by
      rcases List.append_eq_append_iff.1 hab with ⟨q, rfl, rfl⟩ | ⟨c, rfl, rfl⟩
      · exact ⟨q, rfl, rfl⟩
      · obtain rfl : c = [] := by simpa using hle
        exact ⟨[], by simp, by simp⟩
    obtain ⟨front, rfl⟩ := hsuffix
    have hstop := stop_eq_false_of_splitBefore hsplit (p := p ++ q) (by simp [hp]) ⟨front, by simp⟩
    rw [List.append_assoc, atOpener_iff_opens.2 hopens] at hstop
    cases hstop

end Token

/-! ## Lexers -/

namespace Lexer

variable {l l' : Lexer} {mode : Mode} {t : Token}

/-- The modes in which blanks belong to the token. -/
def verbatim : List Mode := [.text, .comment, .raw]

/-- How a token that is read next in a mode stands in the source. -/
structure Lays (l : Lexer) (mode : Mode) (t : Token) : Prop where
  /-- Between the place and the token there are only blanks. -/
  gap : Between l.source l.pos (l.span t).1 t.gap ∧ ∀ c ∈ t.gap, isBlank c
  /-- In some modes there is nothing between them. -/
  touches : mode ∈ verbatim → (l.span t).1 = l.pos
  /-- The token is what stands there. -/
  text : Between l.source (l.span t).1 (l.span t).2 t.text
  /-- The token ends in the source. -/
  le : (l.span t).2 ≤ l.size
  /-- The token is not empty, unless the input ends or it is the body of a raw block. -/
  lt : t.kind ≠ .endOfInput → t.kind ≠ .rawText → (l.span t).1 < (l.span t).2
  /-- The input ends where there is nothing but blanks left. -/
  ends : t.kind = .endOfInput → l.rest = t.gap ∧ (l.span t).1 = l.size

/-- A token is read next if it begins what is left, and then the place is behind it. -/
theorem next_eq_ok : l.next mode = (.ok t, l') ↔
    Token.scan mode l.rest = .ok t ∧ l' = { l with rest := t.rest } := by
  rw [next, peek]
  cases Token.scan mode l.rest with
  | error fault => simp [Except.mapError]
  | ok u =>
    simp only [Except.mapError, Prod.mk.injEq, Except.ok.injEq]
    refine and_congr_right ?_
    rintro rfl
    exact eq_comm

/-- Where there is no token the place is not left. -/
theorem eq_of_next_eq_error {d : Diagnostic} (h : l.next mode = (.error d, l')) : l' = l := by
  rw [next] at h
  cases hpeek : l.peek mode <;> rw [hpeek] at h <;> cases h
  rfl

/-- A token lies in the source. -/
theorem lays_of_scan (hl : l.rest <:+ l.source) (h : Token.scan mode l.rest = .ok t) :
    l.Lays mode t := by
  have hread := Token.gap_append_start h
  have hstart : t.start <:+ l.source := List.IsSuffix.trans ⟨t.gap, hread⟩ hl
  have hgap : Between l.source l.pos (l.span t).1 t.gap := by
    rw [pos, ← hread]
    exact .of_suffix (hread ▸ hl)
  have htext : Between l.source (l.span t).1 (l.span t).2 t.text := .of_suffix hstart
  refine ⟨⟨hgap, Token.isBlank_of_mem_gap h⟩, fun hmode => ?_, htext, Nat.sub_le _ _,
    fun hend hraw => ?_, fun hend => ?_⟩
  · -- No blanks come before the token.
    have hnil : t.gap = [] := by
      simp only [verbatim, List.mem_cons, List.not_mem_nil, or_false] at hmode
      rcases hmode with rfl | rfl | rfl <;> cases h
      · exact Token.scanText_gap _
      · exact Token.scanComment_gap _
      · rfl
    obtain ⟨_, _, _, _, hlength⟩ := hgap
    rw [← hlength, hnil]
    rfl
  · obtain ⟨_, _, _, _, hlength⟩ := htext
    have hpos := List.length_pos_iff.2 (Token.text_ne_nil h hend hraw)
    have hle := length_le_byteLength t.text
    omega
  · have hnil := Token.start_of_endOfInput h hend
    rw [hnil, List.append_nil] at hread
    refine ⟨hread.symm, ?_⟩
    rw [span, hnil]
    rfl

/-- The tokens that are read when one is asked for in each of some modes, and the lexer behind
them. -/
def reads (l : Lexer) : List Mode → List Token × Lexer
  | [] => ([], l)
  | mode :: modes =>
    match l.next mode with
    | (.ok t, l') =>
      let (ts, last) := l'.reads modes
      (t :: ts, last)
    | (.error _, l') => l'.reads modes

variable {modes : List Mode}

/-- Asking for a token that there is. -/
theorem reads_cons_of_ok (h : l.next mode = (.ok t, l')) :
    l.reads (mode :: modes) = (t :: (l'.reads modes).1, (l'.reads modes).2) := by
  rw [reads, h]

/-- Asking for a token where there is none. -/
theorem reads_cons_of_error {d : Diagnostic} (h : l.next mode = (.error d, l')) :
    l.reads (mode :: modes) = l.reads modes := by
  obtain rfl := eq_of_next_eq_error h
  rw [reads, h]

/-- A property of lexers and of tokens that are read from a place. -/
theorem reads_induction {P : Lexer → List Token → Lexer → Prop} (hnil : ∀ l, P l [] l)
    (hcons : ∀ {l : Lexer} {mode t ts last}, Token.scan mode l.rest = .ok t →
      P { l with rest := t.rest } ts last → P l (t :: ts) last)
    (l : Lexer) (modes : List Mode) : P l (l.reads modes).1 (l.reads modes).2 := by
  induction modes generalizing l with
  | nil => exact hnil l
  | cons mode modes ih =>
    cases hnext : l.next mode with
    | mk answer l' =>
      cases answer with
      | error d =>
        rw [reads_cons_of_error hnext]
        exact ih l
      | ok t =>
        obtain ⟨hscan, rfl⟩ := next_eq_ok.1 hnext
        rw [reads_cons_of_ok hnext]
        exact hcons hscan (ih _)

/-- A lexer stays in its source. -/
theorem source_reads (l : Lexer) (modes : List Mode) : (l.reads modes).2.source = l.source :=
  reads_induction (P := fun l _ last => last.source = l.source) (fun _ => rfl) (fun _ h => h) l
    modes

/-- What was read are the tokens and the blanks before them. -/
theorem reads_append (l : Lexer) (modes : List Mode) :
    ((l.reads modes).1.flatMap fun t => t.gap ++ t.text) ++ (l.reads modes).2.rest = l.rest := by
  refine reads_induction
    (P := fun l ts last => (ts.flatMap fun t => t.gap ++ t.text) ++ last.rest = l.rest)
    (fun _ => rfl) (fun {l mode t ts last} hscan h => ?_) l modes
  have hread := Token.gap_append_start hscan
  rw [List.flatMap_cons, List.append_assoc, h, List.append_assoc]
  exact hread

/-- What is left is an end of what was left. -/
theorem rest_reads_suffix (l : Lexer) (modes : List Mode) : (l.reads modes).2.rest <:+ l.rest :=
  ⟨_, reads_append l modes⟩

/-- The place is the end of the token that was read last. -/
theorem pos_reads (l : Lexer) (modes : List Mode) :
    (l.reads modes).2.pos = (l.reads modes).1.getLast?.elim l.pos fun t => (l.span t).2 := by
  refine reads_induction
    (P := fun l ts last => last.pos = ts.getLast?.elim l.pos fun t => (l.span t).2)
    (fun _ => rfl) (fun {l mode t ts last} hscan h => ?_) l modes
  rw [h, List.getLast?_cons]
  cases ts.getLast? <;> rfl

/-- Tokens that are read from a place begin behind it. -/
theorem start_suffix_of_mem_reads (l : Lexer) (modes : List Mode) :
    ∀ t ∈ (l.reads modes).1, t.start <:+ l.rest := by
  refine reads_induction (P := fun l ts _ => ∀ t ∈ ts, t.start <:+ l.rest) (fun _ _ h => nomatch h)
    (fun {l mode t ts last} hscan h => ?_) l modes
  have hstart : t.start <:+ l.rest := ⟨t.gap, Token.gap_append_start hscan⟩
  intro u hu
  rcases List.mem_cons.1 hu with rfl | hu
  · exact hstart
  · exact ((h u hu).trans (List.suffix_append t.text t.rest)).trans hstart

/-- A token begins where the one before it ends, or behind that place. -/
theorem reads_ordered (l : Lexer) (modes : List Mode) :
    (l.reads modes).1.Pairwise fun a b => (l.span a).2 ≤ (l.span b).1 := by
  induction modes generalizing l with
  | nil => exact .nil
  | cons mode modes ih =>
    cases hnext : l.next mode with
    | mk answer l' =>
      cases answer with
      | error d =>
        rw [reads_cons_of_error hnext]
        exact ih l
      | ok t =>
        rw [reads_cons_of_ok hnext]
        obtain ⟨-, rfl⟩ := next_eq_ok.1 hnext
        refine .cons (fun u hu => ?_) (ih { l with rest := t.rest })
        exact offset_le_of_suffix (start_suffix_of_mem_reads _ modes u hu) _

/-! ## Text alone -/

/-- In text there is always a token. -/
theorem next_text (l : Lexer) :
    l.next .text = (.ok (Token.scanText l.rest), { l with rest := (Token.scanText l.rest).rest }) :=
  next_eq_ok.2 ⟨rfl, rfl⟩

/-- A token of text takes a character, if one is left. -/
theorem length_rest_scanText (s : Input) : (Token.scanText s).rest.length ≤ s.length - 1 := by
  have hlength := congrArg List.length (Token.scanText_start s)
  rw [Token.start, List.length_append] at hlength
  by_cases hs : s = []
  · subst hs
    exact Nat.le_refl 0
  · have hpos := List.length_pos_iff.2 (Token.scanText_text_ne_nil hs)
    omega

/-- What is left when some tokens of text are read. -/
theorem length_rest_reads_text (l : Lexer) (n : Nat) :
    (l.reads (.replicate n .text)).2.rest.length ≤ l.rest.length - n := by
  induction n generalizing l with
  | zero => exact Nat.le_refl _
  | succ n ih =>
    have hmore := ih { l with rest := (Token.scanText l.rest).rest }
    have hfirst := length_rest_scanText l.rest
    rw [List.replicate_succ, reads_cons_of_ok (next_text l)]
    dsimp only at hmore ⊢
    omega

/-- Tokens of text stand one after another, with nothing between them, and those that are literal
are runs. -/
theorem reads_text (l : Lexer) (n : Nat) :
    Abut l.pos ((l.reads (.replicate n .text)).1.map l.span) (l.reads (.replicate n .text)).2.pos ∧
      ∀ t ∈ (l.reads (.replicate n .text)).1, t.gap = [] ∧ (t.kind = .text → t.IsRun) := by
  induction n generalizing l with
  | zero => exact ⟨rfl, nofun⟩
  | succ n ih =>
    obtain ⟨habut, hruns⟩ := ih { l with rest := (Token.scanText l.rest).rest }
    rw [List.replicate_succ, reads_cons_of_ok (next_text l)]
    refine ⟨⟨?_, ?_, habut⟩, fun t ht => ?_⟩
    · rw [span, Token.scanText_start]
      rfl
    · exact offset_le_of_suffix (List.suffix_append _ _) _
    · rcases List.mem_cons.1 ht with rfl | ht
      · exact ⟨Token.scanText_gap _, Token.isRun_scanText⟩
      · exact hruns t ht

/-! ## Sources -/

/-- How the tokens lie that are read from the beginning of a source on. -/
structure Tiled (source : Input) : Prop where
  /-- Wherever the lexer has come to stand, a token that is read next lies in the source behind
  that place, and the place is then the end of the token. -/
  token : ∀ modes mode {t l'}, ((ofSource source).reads modes).2.next mode = (.ok t, l') →
    ((ofSource source).reads modes).2.Lays mode t ∧ l'.source = source ∧
      l'.pos = ((ofSource source).span t).2
  /-- Without a token the place is not left. -/
  missing : ∀ modes mode {d l'}, ((ofSource source).reads modes).2.next mode = (.error d, l') →
    l' = ((ofSource source).reads modes).2
  /-- The place is the beginning of the source, or the end of the token that was read last. -/
  place : ∀ modes, ((ofSource source).reads modes).2.pos =
    ((ofSource source).reads modes).1.getLast?.elim 0 fun t => ((ofSource source).span t).2
  /-- A token begins where the one before it ends, or behind that place. -/
  ordered : ∀ modes, ((ofSource source).reads modes).1.Pairwise fun a b =>
    ((ofSource source).span a).2 ≤ ((ofSource source).span b).1
  /-- The source up to the place are the tokens and the blanks before them. -/
  complete : ∀ modes, (((ofSource source).reads modes).1.flatMap fun t => t.gap ++ t.text) ++
    ((ofSource source).reads modes).2.rest = source
  /-- Tokens of text stand one after another, with nothing between them, and enough of them are all
  of the source; those that are literal are runs. -/
  text : ∀ n,
    Abut 0 (((ofSource source).reads (.replicate n .text)).1.map (ofSource source).span)
      ((ofSource source).reads (.replicate n .text)).2.pos ∧
    (∀ t ∈ ((ofSource source).reads (.replicate n .text)).1,
      t.gap = [] ∧ (t.kind = .text → t.IsRun)) ∧
    (source.length ≤ n →
      ((ofSource source).reads (.replicate n .text)).2.pos = byteLength source ∧
      ((ofSource source).reads (.replicate n .text)).1.flatMap Token.text = source)

/-- In every mode tokens lie one after another in a source, with nothing but blanks between them,
and in text alone they are all of it. -/
theorem ofSource_tiled (source : Input) : Tiled source := by
  have hsuffix : ∀ modes, ((ofSource source).reads modes).2.rest <:+
      ((ofSource source).reads modes).2.source := by
    intro modes
    rw [source_reads]
    exact rest_reads_suffix (ofSource source) modes
  have hpos : (ofSource source).pos = 0 := Nat.sub_self _
  refine ⟨fun modes mode t l' h => ?_, fun modes mode d l' h => eq_of_next_eq_error h,
    fun modes => ?_, reads_ordered _, reads_append _, fun n => ?_⟩
  · obtain ⟨hscan, rfl⟩ := next_eq_ok.1 h
    have hsource := source_reads (ofSource source) modes
    refine ⟨lays_of_scan (hsuffix modes) hscan, hsource, ?_⟩
    show offset (byteLength _) t.rest = offset (byteLength _) t.rest
    rw [hsource]
  · rw [pos_reads, hpos]
  · obtain ⟨habut, hruns⟩ := reads_text (ofSource source) n
    rw [hpos] at habut
    refine ⟨habut, hruns, fun hn => ?_⟩
    have hlength := length_rest_reads_text (ofSource source) n
    have hrest : ((ofSource source).reads (.replicate n .text)).2.rest = [] := by
      have hzero : (ofSource source).rest.length - n = 0 := Nat.sub_eq_zero_of_le hn
      exact List.length_eq_zero_iff.1 (Nat.le_zero.1 (hlength.trans (Nat.le_of_eq hzero)))
    have hall := reads_append (ofSource source) (.replicate n .text)
    rw [hrest, List.append_nil] at hall
    refine ⟨?_, Eq.trans (List.flatMap_congr fun t ht => ?_) hall⟩
    · rw [pos, hrest, size, source_reads]
      rfl
    · rw [(hruns t ht).1, List.nil_append]

end Lexer

end Stencil
