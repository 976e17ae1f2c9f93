import Stencil.Proofs.Members
import Stencil.Proofs.Ordering
import Stencil.Proofs.Reports

/-!
# What diagnostics say

Every diagnostic of a template is true of its place (`Template.parse_truthful`): what its cause says
is so there (`Cause.Holds`), and but for operands that are too deep something is left to read. It
points at what is wrong with the template (`Template.parse_pointed`): no blank stands at its place,
unless an operand there is too deep and blanks come before it, because then it is the end of the
token before them that is pointed at. Statements are described by `Markup.statement_reports`, where
a word that is no keyword is found behind the delimiter, and items of every depth by
`Markup.item_tells`.
-/

namespace Stencil

variable {source s rest : Input}

open Stencil.Parser (Reports Passes)

/-! ## Keywords -/

/-- Where the characters of a word come first they are read as that word. -/
theorem Token.isWord_of_wordAt {t : Token} {w : String} (h : scan .code s = .ok t)
    (hw : w.toList.head?.any isWordStart = true) (hword : wordAt t.start = w.toList) :
    t.isWord w = true := by
  obtain ⟨next, hnext, hkind, htext⟩ := exists_scan_of_afterBlanks h
  rw [← (afterBlanks_start scanCode_start h).2] at hnext
  rw [isWord_iff, hkind, htext, ← hword]
  rw [← hword] at hw
  cases hstart : t.start with
  | nil =>
    rw [hstart] at hw
    cases hw
  | cons c more =>
    rw [hstart] at hw hnext
    rw [wordAt, List.takeWhile_cons] at hw ⊢
    split at hw
    · rename_i hchar
      -- The first character of the word begins neither a number nor a string.
      have hc : isWordStart c = true := hw
      obtain ⟨hdigit, -, hminus, -, hdouble, hsingle⟩ := of_isWordStart hc
      rw [scanCode.eq_3 _ _ _ fun _ hc _ => hminus hc, if_neg (by simp [hdigit]),
        if_neg (by simp [hdouble, hsingle]), if_pos hc] at hnext
      cases hnext
      exact ⟨rfl, (if_pos hchar).symm⟩
    · cases hw

/-- Every keyword is a word. -/
theorem Statement.isWordStart_keywords :
    ∀ w ∈ keywords, w.toList.head?.any isWordStart = true := by decide

/-! ## Openers -/

/-- Where there is neither text nor the end of the input an item or a closing tag begins. -/
theorem atOpener_of_kind {k : TokenKind} (hk : (Token.scanText s).kind = k)
    (hother : k ≠ .text ∧ k ≠ .endOfInput) : atOpener s = true := by
  refine Markup.atOpener_of_ne_text ?_ (hk ▸ hother.1)
  rintro rfl
  exact hother.2 hk.symm

/-- The place is behind a token of a kind that stands outside of all delimiters. -/
def BehindOpener (source : Input) (k : TokenKind) (rest : Input) : Prop :=
  ∃ s, s <:+ source ∧ (Token.scanText s).kind = k ∧ rest = (Token.scanText s).rest

/-- The place is behind the text of the token. -/
theorem BehindOpener.append {o : List Char} {k : TokenKind}
    (hk : (o, k) ∈ Token.openerTexts) (h : BehindOpener source k rest) :
    o ++ rest <:+ source := by
  obtain ⟨s, hs, hkind, rfl⟩ := h
  obtain ⟨y, rfl⟩ := Token.exists_of_opener hk hkind
  rwa [Token.scanText_of_opener hk]

/-- Where the token is taken that opens an item or a closing tag, one begins. -/
theorem Token.atOpener_of_take {k : TokenKind} {next : Token}
    (hother : k ≠ .text ∧ k ≠ .endOfInput) (hscan : scan .text s = .ok next)
    (hsome : ((Pattern.kind k).take? next).isSome = true) : atOpener next.start = true := by
  obtain ⟨taken, htake⟩ := Option.isSome_iff_exists.1 hsome
  obtain ⟨hkind, -⟩ := Pattern.kind_of_take? htake
  cases hscan
  rw [scanText_start]
  exact atOpener_of_kind hkind hother

/-- The bracket of a tag is no blank. -/
theorem BehindOpener.behind_bracket (h : BehindOpener source .tagOpen rest) :
    BehindToken source rest := by
  obtain ⟨s, hs, hkind, rfl⟩ := h
  have htext : (Token.scanText s).text = ['<'] := by
    unfold Token.scanText at hkind ⊢
    split <;> simp_all [Token.atEnd]
  have hstart := Token.scanText_start s
  rw [Token.start, htext] at hstart
  exact BehindToken.of_append (hstart.symm ▸ hs) ⟨[], '<', rfl, rfl⟩

/-- A token of a kind that comes next outside of all delimiters is read. -/
theorem Terminal.read_opener_reports {t : Terminal} {k : TokenKind} (hmode : t.mode = .text)
    (hpattern : t.pattern = .kind k) :
    Reports source (fun s => s <:+ source ∧ (Token.scanText s).kind = k) t.read fun _ =>
      BehindOpener source k := by
  have hread : ∀ {s}, (Token.scanText s).kind = k →
      t.read s = .ok ((Token.scanText s).leaf t.field t.kind, (Token.scanText s).rest) := by
    intro s hk
    have hscan : Token.scan t.mode s = .ok (Token.scanText s) := by
      rw [hmode]
      rfl
    refine Terminal.read_of_scan hscan ?_
    rw [hpattern]
    exact if_pos hk
  constructor
  · intro s leaf rest ⟨hs, hk⟩ hok
    rw [hread hk] at hok
    cases hok
    exact ⟨s, hs, hk, rfl⟩
  · intro s e ⟨_, hk⟩ herror
    rw [hread hk] at herror
    cases herror

/-! ## Statements -/

namespace Part

variable {operand : Extent → Parser Tree}

/-- Parts in two rows are read one after the other. -/
theorem readAll_append_eq (ps qs : List Part) :
    readAll operand (ps ++ qs) = (do
      let first ← readAll operand ps
      let more ← readAll operand qs
      return first ++ more) := by
  induction ps with
  | nil => simp [readAll]
  | cons p ps ih =>
    simp only [List.cons_append, readAll, ih, bind_assoc, pure_bind, List.append_assoc]

/-- The form of a statement is read that begins with the next word, if it is one of these, and the
other parts are read if it is not. -/
theorem read_forms_reports {forms : List (String × Part)} {others : List Part}
    {P Q : Input → Prop} (hpre : ∀ s, P s → s <:+ source)
    (hforms : ∀ form ∈ forms, Reports source P (form.2.read operand) fun _ => Q)
    (hothers : Reports source
      (fun s => (∀ next, Token.scan .code s = .ok next →
        ∀ form ∈ forms, next.isWord form.1 = false) ∧ P s)
      (readAll operand others) fun _ => Q) :
    Reports source P (readAll operand
      (forms.foldr (fun (w, form) others => [.choice (atWord w) [form] others]) others)) fun _ =>
        Q := by
  induction forms generalizing P with
  | nil => exact hothers.mono (fun s hs => ⟨fun _ _ => List.forall_mem_nil _, hs⟩) fun _ _ hs => hs
  | cons form forms ih =>
    obtain ⟨w, form⟩ := form
    have hmore : Reports source P ((choice (atWord w) [form] (forms.foldr
        (fun (w, form) others => [.choice (atWord w) [form] others]) others)).read operand)
        fun _ => Q := by
      refine (Look.next_reports hpre).bind fun found => ?_
      cases found with
      | true =>
        have hform := hforms (w, form) List.mem_cons_self
        exact readAll_singleton_reports (hform.mono (fun _ hs => hs.2) fun _ _ hs => hs)
      | false =>
        refine ih (fun s hs => hpre s hs.2) (fun other hother => ?_) ?_
        · exact (hforms other (List.mem_cons_of_mem _ hother)).mono (fun _ hs => hs.2)
            fun _ _ hs => hs
        · refine hothers.mono (fun s ⟨hnone, ⟨next, hscan, hfound⟩, hs⟩ => ⟨?_, hs⟩)
            fun _ _ hs => hs
          -- The next word is neither the first one nor one of the others.
          intro next' hscan'
          refine List.forall_mem_cons.2 ⟨?_, hnone next' hscan'⟩
          obtain rfl := Except.ok.inj (hscan.symm.trans hscan')
          cases hword : next.isWord w with
          | false => rfl
          | true => simp [Pattern.take?, hword] at hfound
    exact readAll_singleton_reports hmore

/-- The hyphen that may touch the delimiter of a statement is read. -/
theorem read_statementStart_reports :
    Reports source (fun s => "\x7b%".toList ++ s <:+ source) (readAll operand statementStart)
      fun _ => InStatement source := by
  have hsuffix : ∀ s, "\x7b%".toList ++ s <:+ source → s <:+ source :=
    fun s hs => (List.suffix_append _ _).trans hs
  refine readAll_singleton_reports ?_
  refine (Look.next_reports hsuffix).bind fun found => ?_
  cases found with
  | false =>
    refine Reports.pure fun s ⟨_, front, hs⟩ => ⟨front, false, ?_⟩
    rw [← hs, hyphen, if_neg (by decide), List.append_nil, List.append_assoc]
  | true =>
    refine readAll_singleton_reports ?_
    refine Reports.map ?_ _
    constructor
    · rintro s leaf rest ⟨-, front, hs⟩ hok
      obtain ⟨next, taken, hscan, htake, -, rfl⟩ := Terminal.exists_of_read hok
      obtain ⟨hgap, htext⟩ := Token.text_of_touching_hyphen hscan htake
      obtain ⟨hsame, hstart⟩ := Pattern.take?_start htake
      have hsource := Token.gap_append_start hscan
      rw [← hsame, ← hstart, hgap, Token.start, htext] at hsource
      refine ⟨front, true, ?_⟩
      rw [← hs, ← hsource, hyphen, if_pos rfl]
      simp
    · rintro s e ⟨-, hs⟩ herror
      exact (Terminal.read_reports rfl).sound (hsuffix s hs) herror

/-- What should be a keyword and is none is refused. -/
theorem refuse_keyword_reports :
    Reports source
      (fun s => (∀ next, Token.scan .code s = .ok next →
        ∀ form ∈ Statement.bodies, next.isWord form.1 = false) ∧ InStatement source s)
      (readAll operand
        [.choice (.next .code (.kind .endOfInput))
          [.refuse (.unexpectedToken "statement keyword")] [.refuse .unknownStatementKeyword]])
      fun _ => BehindToken source := by
  have hmode : Mode.code ∈ Token.spacedModes := by decide
  refine readAll_singleton_reports ?_
  refine (Look.next_reports fun _ hs => hs.2.behind.suffix).bind fun found => ?_
  have hrefuse : ∀ {cause : Cause}, (∀ {s next}, Token.scan .code s = .ok next →
        found = ((Pattern.kind .endOfInput).take? next).isSome →
        (∀ form ∈ Statement.bodies, next.isWord form.1 = false) → InStatement source s →
        (⟨cause, next.start⟩ : Fault).Sound source) →
      Reports source
        (fun s => (∃ next, Token.scan .code s = .ok next ∧
            found = ((Pattern.kind .endOfInput).take? next).isSome) ∧
          (∀ next, Token.scan .code s = .ok next →
            ∀ form ∈ Statement.bodies, next.isWord form.1 = false) ∧ InStatement source s)
        (readAll operand [.refuse cause]) fun _ => BehindToken source := by
    intro cause hcause
    refine readAll_singleton_reports ?_
    refine (Reports.peek .code fun _ hs => hs.2.2.behind.suffix).bind fun next => ?_
    refine ⟨fun _ hok => (by cases hok), ?_⟩
    rintro s e ⟨hscan, ⟨next', hscan', hfound⟩, hnone, hs⟩ herror
    cases herror
    obtain rfl := Except.ok.inj (hscan.symm.trans hscan')
    exact hcause hscan hfound (hnone _ hscan) hs
  cases found with
  | true =>
    exact hrefuse fun hscan _ _ hs =>
      .unexpected (Token.start_suffix hscan hs.behind.suffix) (Token.flush_start hmode hscan)
  | false =>
    refine hrefuse fun {s next} hscan hfound hnone hs => ?_
    have hend : next.kind ≠ .endOfInput := fun hend => by simp [Pattern.take?, hend] at hfound
    refine .keyword (b := next.gap) ?_ (Token.isBlank_of_mem_gap hscan) (fun hnil => ?_)
      (Token.flush_start hmode hscan) fun w hw hword => ?_
    · rwa [Token.gap_append_start hscan]
    · -- Behind blanks alone the input ends.
      obtain ⟨t, ht, hkind, -⟩ := Token.exists_scan_of_afterBlanks hscan
      rw [← (Token.afterBlanks_start Token.scanCode_start hscan).2, hnil] at ht
      cases ht
      exact hend hkind
    · obtain ⟨form, hform, rfl⟩ := List.mem_map.1 hw
      have hother := hnone form hform
      rw [Token.isWord_of_wordAt hscan (Statement.isWordStart_keywords _ hw) hword] at hother
      cases hother

/-- The body of a statement is read from behind its delimiter to behind a token. -/
theorem read_statementBody_reports
    (ho : ∀ extent, Passes source (operand extent)) :
    Reports source (InStatement source) (readAll operand Statement.body) fun _ =>
      BehindToken source := by
  have hforms : Statement.bodies.all (fun form => form.2.isSpaced) = true := by decide +kernel
  refine read_forms_reports (fun _ hs => hs.behind.suffix) (fun form hform => ?_)
    refuse_keyword_reports
  exact (read_reports ho form.2 (List.all_eq_true.1 hforms form hform)).mono
    (fun _ hs => hs.behind) fun _ _ hs => hs

/-- A statement is read from its delimiter to behind the other one. -/
theorem read_statement_reports
    (ho : ∀ extent, Passes source (operand extent)) :
    Reports source (fun s => s <:+ source ∧ (Token.scanText s).kind = .statementOpen)
      (Part.statement.read operand) fun _ => BehindToken source := by
  refine read_enclosed_reports (fun _ hs => hs.1) (Terminal.read_opener_reports rfl rfl)
    (Token.atOpener_of_take (by decide)) ?_
  -- What stands between the delimiters is a hyphen, the body and what closes it.
  show Reports source _ (readAll operand (statementStart ++ Statement.body ++ statementEnd)) _
  rw [readAll_append_eq, readAll_append_eq]
  have hstart : Reports source (BehindOpener source .statementOpen)
      (readAll operand statementStart) fun _ => InStatement source :=
    read_statementStart_reports.mono (fun _ hs => hs.append (o := ['{', '%']) (by decide))
      fun _ _ hs => hs
  have hend := readAll_reports ho statementEnd (by decide +kernel)
  refine Reports.bind (M := fun _ => BehindToken source) ?_ fun _ => hend.map _
  exact hstart.bind fun _ => (read_statementBody_reports ho).map _

/-- A value outside of tags is read from its delimiter to behind the other one. -/
theorem read_value_reports
    (ho : ∀ extent, Passes source (operand extent)) :
    Reports source (fun s => s <:+ source ∧ (Token.scanText s).kind = .valueOpen)
      ((Part.value none .text "`\x7b\x7b`").read operand) fun _ => BehindToken source := by
  refine read_enclosed_reports (M := BehindToken source) (fun _ hs => hs.1)
    ((Terminal.read_opener_reports rfl rfl).mono (fun _ hs => hs) fun _ _ hs => ?_)
    (Token.atOpener_of_take (by decide))
    (readAll_reports ho _ (by decide +kernel))
  exact BehindToken.of_append (hs.append (o := ['{', '{']) (by decide)) ⟨['{'], '{', rfl, rfl⟩

end Part

/-! ## Items -/

/-- No token is reported to be missing at the end of the input: it is an opener that is reported
there. -/
def Fault.Settled (f : Fault) : Prop :=
  ∀ expected, f.cause = .unexpectedToken expected → f.found ≠ []

/-- A failure that is the same from outside every opener reports nothing at the end of the input. -/
theorem Failure.Settled.toFault {e : Failure} (h : e.Settled) : e.toFault.Settled := by
  intro expected hcause hfound
  have hcause' : e.cause = .unexpectedToken expected := hcause
  have hinside := congrArg (fun e => e.toFault.cause) (h [])
  simp [Failure.inside, hcause', hfound] at hinside

/-- What is reported of `source` by some events is sound, and nothing is reported to be missing at
its end. -/
def Told (source : Input) (events : List Event) : Prop :=
  ∀ f ∈ faultsOf events, f.Sound source ∧ f.Settled

/-- A reader of items of `source` reports what is so, be it on the way or where it fails. -/
structure Tells (source : Input) (x : Reading (List Tree)) : Prop where
  noted : ∀ {s}, s <:+ source → s ≠ [] → Told source (x s).events
  failed : ∀ {s e}, s <:+ source → s ≠ [] → x.parser s = .error e → e.toFault.Sound source

/-- Where nothing is reported all of it is sound. -/
theorem Told.of_faultless {events : List Event} (h : faultsOf events = []) :
    Told source events := by
  intro f hf
  rw [h] at hf
  cases hf

/-- What is reported in two rows of events is reported in one of them. -/
theorem Told.append {a b : List Event} (ha : Told source a) (hb : Told source b) :
    Told source (a ++ b) := by
  intro f hf
  rw [faultsOf_append] at hf
  rcases List.mem_append.1 hf with hf | hf
  · exact ha f hf
  · exact hb f hf

namespace Markup

variable {operand : Extent → Parser Tree} {x : Reading (List Tree)}

/-- What becomes of an item reports what is so. -/
theorem settle_told {recover : Bool} (hx : Tells source x) (hsettles : x.Settles)
    (hs : s <:+ source) (hne : s ≠ []) : Told source ((x s).settle recover s).events := by
  have hnoted := hx.noted hs hne
  unfold Reply.settle
  split
  · exact hnoted
  · rename_i e hresult
    refine hnoted.append fun f hf => ?_
    obtain rfl := List.mem_singleton.1 hf
    exact ⟨hx.failed hs hne hresult, (hsettles hne hresult).toFault⟩

/-- A reader that recovers reports what is so. -/
theorem recovering_tells (hx : Tells source x) (hsettles : x.Settles) :
    Tells source x.recovering where
  noted hs hne := settle_told hx hsettles hs hne
  failed _ _ h := by cases h

/-- A comment that fails is not matched. -/
theorem comment_sound {e : Failure} (hs : s <:+ source) (hopener : atOpener s = true)
    (h : comment.parser s = .error e) : e.toFault.Sound source := by
  obtain ⟨stopped, -, rfl⟩ := comment_eq_error h
  exact .unterminated hs hopener

/-- A statement that fails does so as its production does, or because its raw block does not end. -/
theorem statement_sound
    (ho : ∀ extent, Passes source (operand extent))
    {e : Failure} (hs : s <:+ source) (hk : (Token.scanText s).kind = .statementOpen)
    (h : (statement operand).parser s = .error e) : e.toFault.Sound source := by
  obtain h | ⟨read, s', -, h⟩ := statement_eq_error h
  · exact (Part.read_statement_reports ho).sound ⟨hs, hk⟩ h
  · obtain rfl := rawBody_eq_error h
    exact .unterminated hs (atOpener_of_kind hk (by decide))

/-- The items of a body report what is so. -/
theorem body_told (hx : Tells source x) (hitems : ReadsItems x) (hs : s <:+ source) :
    Told source (body x s).events ∧
      ∀ {e}, (body x).parser s = .error e → e.toFault.Sound source := by
  simp only [Reading.parser]
  fun_induction body x s with
  | case1 =>
    refine ⟨.of_faultless rfl, fun h => ?_⟩
    cases h
    exact .unexpected List.nil_suffix (by simp [Flush])
  | case2 => exact ⟨.of_faultless rfl, fun h => by cases h⟩
  | case3 s hne _ first e hfirst =>
    refine ⟨hx.noted hs hne, fun h => ?_⟩
    cases h
    exact hx.failed hs hne hfirst
  | case4 s hne _ first trees rest hfirst _ more ih =>
    obtain ⟨htold, hsound⟩ := ih ((hitems.within.rest hfirst).trans hs)
    refine ⟨(hx.noted hs hne).append htold, fun h => ?_⟩
    cases hmore : more.result with
    | error f =>
      rw [hmore] at h
      cases h
      exact hsound hmore
    | ok a =>
      rw [hmore] at h
      cases h
  | case5 s hne _ first trees rest hfirst _ =>
    exact ⟨hx.noted hs hne, fun h => by cases h⟩

/-- The opening tag of an element is read from its bracket to behind a token. -/
theorem header_reports
    (ho : ∀ extent, Passes source (operand extent)) :
    Passes source (Part.readAll operand header) ∧
      Passes source (Part.readAll operand headerEnd) :=
  ⟨Part.readAll_reports ho _ (by decide +kernel), Part.readAll_reports ho _ (by decide +kernel)⟩

/-- The bracket of an element is read where it stands. -/
theorem opener_reports :
    Reports source (fun s => s <:+ source ∧ (Token.scanText s).kind = .tagOpen) opener.read fun _ =>
      BehindToken source :=
  (Terminal.read_opener_reports rfl rfl).mono (fun _ hs => hs) fun _ _ hs => hs.behind_bracket

/-- A closing tag is read where its bracket stands. -/
theorem footer_reports
    (ho : ∀ extent, Passes source (operand extent)) :
    Reports source (fun s => s <:+ source ∧ (Token.scanText s).kind = .endTagOpen)
      (Part.readAll operand footer) fun _ => BehindToken source := by
  have htail := Part.readAll_reports ho footer.tail (by decide +kernel)
  have hbracket : Reports source (fun s => s <:+ source ∧ (Token.scanText s).kind = .endTagOpen)
      (Terminal.read ⟨none, .punctuation, .text, .kind .endTagOpen, "closing tag"⟩) fun _ =>
        BehindToken source := by
    refine (Terminal.read_opener_reports rfl rfl).mono (fun _ hs => hs) fun _ _ hs => ?_
    exact BehindToken.of_append (hs.append (o := ['<', '/']) (by decide)) ⟨['<'], '/', rfl, rfl⟩
  exact (hbracket.map _).bind fun _ => htail.map _

/-- The body of an element begins behind a token. -/
theorem Opened.behindToken
    (ho : ∀ extent, Passes source (operand extent))
    {tag stop : List Tree} (hs : s <:+ source) (hk : (Token.scanText s).kind = .tagOpen)
    (h : Opened operand s tag stop rest) : BehindToken source rest := by
  obtain ⟨first, s₁, inner, s₂, hfirst, hinner, hstop, -⟩ := h
  obtain ⟨hheader, hheaderEnd⟩ := header_reports ho
  exact hheaderEnd.rest (hheader.rest (opener_reports.rest ⟨hs, hk⟩ hfirst) hinner) hstop

/-- An element reports what is so. -/
theorem element_told
    (ho : ∀ extent, Passes source (operand extent))
    (hx : Tells source x) (hitems : ReadsItems x) (hs : s <:+ source)
    (hk : (Token.scanText s).kind = .tagOpen) :
    Told source (element operand x s).events ∧
      ∀ {e}, (element operand x).parser s = .error e → e.toFault.Sound source := by
  have hopener := atOpener_of_kind hk (by decide)
  obtain ⟨hheader, hheaderEnd⟩ := header_reports ho
  have hreply := element_reply operand x s
  simp only [Reading.parser]
  generalize element operand x s = reply at hreply
  cases hreply with
  | unopened h => exact absurd h (opener_read_ne_error hk)
  | malformed hfirst h =>
    refine ⟨.of_faultless rfl, fun herror => ?_⟩
    cases herror
    have hbehind := opener_reports.rest ⟨hs, hk⟩ hfirst
    refine Fault.Sound.inside ?_ hs hopener
    rcases h with h | ⟨inner, s₂, hinner, h⟩
    · exact hheader.sound hbehind h
    · exact hheaderEnd.sound (hheader.rest hbehind hinner) h
  | selfClosing => exact ⟨.of_faultless rfl, fun herror => by cases herror⟩
  | unclosed htag h =>
    obtain ⟨htold, hsound⟩ := body_told hx hitems (htag.behindToken ho hs hk).suffix
    refine ⟨htold, fun herror => ?_⟩
    cases herror
    exact (hsound h).inside hs hopener
  | footer htag hbody h =>
    have hbegin := (htag.behindToken ho hs hk).suffix
    refine ⟨(body_told hx hitems hbegin).1, fun herror => ?_⟩
    cases herror
    -- The body stops at the bracket of a closing tag.
    have hend := ((body_within hitems).rest hbody).trans hbegin
    have hkind := kind_of_atFooter (atFooter_of_body hitems hbody)
    exact ((footer_reports ho).sound ⟨hend, hkind⟩ h).inside hs hopener
  | closed htag hbody h =>
    exact ⟨(body_told hx hitems (htag.behindToken ho hs hk).suffix).1,
      fun herror => by cases herror⟩

/-- An element that is refused is too deep. -/
theorem tooDeep_sound {e : Failure} (hs : s <:+ source) (hk : (Token.scanText s).kind = .tagOpen)
    (h : tooDeep.parser s = .error e) : e.toFault.Sound source := by
  have heq : tooDeep.parser s =
      (opener.read >>= fun _ => Parser.fail .nestingTooDeep s : Parser Tree) s := rfl
  rw [heq] at h
  rcases Parser.bind_eq_error.1 h with h | ⟨first, s₁, -, h⟩
  · exact absurd h (opener_read_ne_error hk)
  · cases h
    exact .element hs (atOpener_of_kind hk (by decide))

/-- Items report what is so, if the elements that they may be do. -/
theorem itemOf_tells
    (ho : ∀ extent, Passes source (operand extent))
    {element : Reading Tree}
    (helement : ∀ {s}, s <:+ source → (Token.scanText s).kind = .tagOpen →
      Told source (element s).events ∧
        ∀ {e}, element.parser s = .error e → e.toFault.Sound source) :
    Tells source (itemOf operand element) := by
  constructor
  · intro s hs _
    rw [itemOf_eq]
    split
    case h_3 => exact .of_faultless (statement_agrees s).faultless
    case h_4 =>
      rw [(Reading.events_map comment (fun t => [t]) s).1]
      exact .of_faultless (comment_agrees s).faultless
    case h_5 hk =>
      rw [(Reading.events_map element (fun t => [t]) s).1]
      exact (helement hs hk).1
    all_goals exact .of_faultless rfl
  · intro s e hs hne h
    simp only [Reading.parser, itemOf_eq] at h
    split at h
    case h_1 => cases h
    case h_2 hk => exact (Part.read_value_reports ho).sound ⟨hs, hk⟩ h
    case h_3 hk => exact statement_sound ho hs hk h
    case h_4 hk =>
      exact comment_sound hs (atOpener_of_kind hk (by decide))
        (Reading.parser_single_eq_error.1 h)
    case h_5 hk => exact (helement hs hk).2 (Reading.parser_single_eq_error.1 h)
    case h_6 htext _ _ _ _ =>
      cases h
      exact .unexpected hs (flush_of_atOpener (atOpener_of_ne_text hne htext))

/-- Items report what is so, however deep elements and operands may nest. -/
theorem item_tells (source : Input) (depth : Nat) : Tells source (item true depth) := by
  induction depth with
  | zero =>
    refine itemOf_tells (expression_reports source 0) fun hs hk => ⟨?_, tooDeep_sound hs hk⟩
    exact .of_faultless (tooDeep_agrees _).faultless
  | succ depth ih =>
    have hinner := recovering_tells ih (item_settles true depth)
    exact itemOf_tells (expression_reports source (depth + 1)) fun hs hk =>
      element_told (expression_reports source depth) hinner
        (recovering_readsItems (item_readsItems true depth)) hs hk

end Markup

/-! ## What causes say -/

/-- Behind the opening quote of a string that does not end, every quote is behind a backslash. -/
theorem Quotation.getLast?_of_close? {q : Char} (hq : q ≠ '\\') {s front after : List Char}
    (h : close? q s = none) (hs : s = front ++ q :: after) : front.getLast? = some '\\' := by
  -- What is left of the string in front of a quote ends as the string does.
  have last : ∀ {c : Char} {front : List Char}, front.getLast? = some '\\' →
      (c :: front).getLast? = some '\\' := by
    intro c front hfront
    rw [List.getLast?_cons, hfront]
    rfl
  fun_induction close? q s generalizing front with
  | case1 => simp at hs
  | case2 s ih =>
    have hmore := Option.map_eq_none_iff.1 h
    cases front with
    | nil => exact absurd (List.cons_eq_cons.1 hs).1.symm hq
    | cons c front =>
      obtain ⟨rfl, hrest⟩ := List.cons_eq_cons.1 hs
      cases front with
      | nil => rfl
      | cons d front => exact last (last (ih hmore (List.cons_eq_cons.1 hrest).2))
  | case3 d s hd ih =>
    have hmore := Option.map_eq_none_iff.1 h
    cases front with
    | nil => exact absurd (List.cons_eq_cons.1 hs).1.symm hq
    | cons c front => exact last (ih hmore (List.cons_eq_cons.1 hs).2)
  | case4 => cases h
  | case5 d s _ hd ih =>
    have hmore := Option.map_eq_none_iff.1 h
    cases front with
    | nil => exact absurd (List.cons_eq_cons.1 hs).1 hd
    | cons c front => exact last (ih hmore (List.cons_eq_cons.1 hs).2)

/-- A number begins with a digit, perhaps behind a sign, a point, or both. -/
theorem Numeral.exists_of_starts (h : starts s = true) :
    ∃ sign ∈ [[], ['+'], ['-']], ∃ point ∈ [[], ['.']], ∃ (d : Char) (more : List Char),
      d.isDigit = true ∧ s = sign ++ (point ++ d :: more) := by
  have unsigned : ∀ {s : Input}, startsUnsigned s = true →
      ∃ point ∈ [[], ['.']], ∃ (d : Char) (more : List Char),
        d.isDigit = true ∧ s = point ++ d :: more := by
    intro s h
    unfold startsUnsigned at h
    split at h
    · exact ⟨['.'], by simp, _, _, h, rfl⟩
    · exact ⟨[], by simp, _, _, h, rfl⟩
    · cases h
  unfold starts at h
  split at h
  · obtain ⟨point, hpoint, d, more, hd, rfl⟩ := unsigned h
    exact ⟨['+'], by simp, point, hpoint, d, more, hd, rfl⟩
  · obtain ⟨point, hpoint, d, more, hd, rfl⟩ := unsigned h
    exact ⟨['-'], by simp, point, hpoint, d, more, hd, rfl⟩
  · obtain ⟨point, hpoint, d, more, hd, rfl⟩ := unsigned h
    exact ⟨[], by simp, point, hpoint, d, more, hd, rfl⟩

/-- What a cause says of the place in front of `found` and behind `before`. -/
def Cause.Holds (before found : List Char) : Cause → Prop
  -- An opener stands here.
  | unterminatedDelimiter => ∃ opener ∈ itemOpeners, opener <+: found
  -- There is something here that does not fit.
  | unexpectedToken _ => found ≠ []
  -- Behind the delimiter of a statement, and perhaps a hyphen and blanks, stands no keyword.
  | unknownStatementKeyword => found ≠ [] ∧
      (∃ front leading b, (∀ c ∈ b, isBlank c = true) ∧
        before = front ++ ("\x7b%".toList ++ (hyphen leading ++ b))) ∧
      ∀ w ∈ Statement.keywords, wordAt found ≠ w.toList
  -- A number begins here.
  | malformedNumericLiteral =>
      ∃ sign ∈ [[], ['+'], ['-']], ∃ point ∈ [[], ['.']], ∃ (d : Char) (more : List Char),
        d.isDigit = true ∧ found = sign ++ (point ++ d :: more)
  -- A quote stands here, and behind it there are none but behind backslashes.
  | unterminatedStringLiteral =>
      ∃ q more, (q = '"' ∨ q = '\'') ∧ found = q :: more ∧
        ∀ front after, more = front ++ q :: after → front.getLast? = some '\\'
  | nestingTooDeep => True

/-- There is a place behind text in the source. -/
theorem exists_before (hs : s <:+ source) : ∃ before, source = before ++ s := by
  obtain ⟨before, h⟩ := hs
  exact ⟨before, h.symm⟩

/-- What a sound fault says holds at its place. -/
theorem Fault.Sound.holds {f : Fault} (h : f.Sound source) (hsettled : f.Settled) :
    ∃ before, source = before ++ f.found ∧ f.cause.Holds before f.found := by
  cases h with
  | unterminated hs hopener =>
    obtain ⟨before, rfl⟩ := exists_before hs
    exact ⟨before, rfl, itemOpener_of_atOpener hopener⟩
  | unexpected hs _ =>
    obtain ⟨before, rfl⟩ := exists_before hs
    exact ⟨before, rfl, hsettled _ rfl⟩
  | @keyword b s hopen hb hne _ hother =>
    obtain ⟨front, leading, rfl⟩ := hopen
    refine ⟨front ++ ("\x7b%".toList ++ (hyphen leading ++ b)), ?_,
      hne, ⟨front, leading, b, hb, rfl⟩, hother⟩
    simp only [List.append_assoc]
  | numeral hs hstarts =>
    obtain ⟨before, rfl⟩ := exists_before hs
    exact ⟨before, rfl, Numeral.exists_of_starts hstarts⟩
  | @quotation q s hs hq hclose =>
    obtain ⟨before, rfl⟩ := exists_before hs
    have hslash : q ≠ '\\' := by rcases hq with rfl | rfl <;> decide
    exact ⟨before, rfl, q, s, hq, rfl, fun _ _ h => Quotation.getLast?_of_close? hslash hclose h⟩
  | element hs _ =>
    obtain ⟨before, rfl⟩ := exists_before hs
    exact ⟨before, rfl, trivial⟩
  | operand hs =>
    obtain ⟨before, rfl⟩ := exists_before hs.suffix
    exact ⟨before, rfl, trivial⟩

/-- At the place of a sound fault stands something else than a blank, or the fault is an operand
that is too deep. -/
theorem Fault.Sound.points {f : Fault} (h : f.Sound source) (hsettled : f.Settled) :
    (∃ c more, f.found = c :: more ∧ isBlank c = false) ∨
      f.cause = .nestingTooDeep ∧ BehindToken source f.found ∧
        ∀ c ∈ f.found.head?, isBlank c = true := by
  have first : ∀ {s : Input}, s ≠ [] → Flush s → ∃ c more, s = c :: more ∧ isBlank c = false := by
    intro s hne hflush
    obtain ⟨c, more, rfl⟩ := List.exists_cons_of_ne_nil hne
    exact ⟨c, more, rfl, hflush c rfl⟩
  cases h with
  | unterminated hs hopener | element hs hopener =>
    exact .inl (first (by rintro rfl; cases hopener) (flush_of_atOpener hopener))
  | unexpected _ hflush => exact .inl (first (hsettled _ rfl) hflush)
  | keyword _ _ hne hflush => exact .inl (first hne hflush)
  | numeral _ hstarts =>
    exact .inl (first (by rintro rfl; cases hstarts) (flush_of_starts hstarts))
  | quotation _ hq _ => exact .inl ⟨_, _, rfl, by rcases hq with rfl | rfl <;> rfl⟩
  | @operand s hs =>
    cases s with
    | nil => exact .inr ⟨rfl, hs, by simp⟩
    | cons c more =>
      cases hblank : isBlank c with
      | false => exact .inl ⟨c, more, rfl, hblank⟩
      | true => exact .inr ⟨rfl, hs, fun d hd => by cases hd; exact hblank⟩

/-! ## Templates -/

namespace Template

variable {options : Options}

/-- The steps of a template report what is so. -/
theorem steps_told (options : Options) {s : Input} (hs : s <:+ source) :
    Told source ((steps options s).flatMap Step.events) := by
  -- What a reader reports that does not recover is reported by one that does.
  suffices hlenient : ∀ {maxDepth hpos s}, s <:+ source →
      Told source ((steps ⟨true, maxDepth, hpos⟩ s).flatMap Step.events) by
    obtain ⟨recover, maxDepth, hpos⟩ := options
    cases recover with
    | true => exact hlenient hs
    | false =>
      exact fun f hf => hlenient hs f ((steps_agree ⟨false, maxDepth, hpos⟩ s).subset f hf)
  clear hs s options
  intro maxDepth hpos s hs
  induction s using steps_induction ⟨true, maxDepth, hpos⟩ with
  | nil =>
    rw [steps_nil]
    exact .of_faultless rfl
  | cons s hne ih =>
    rw [steps_eq_cons _ hne, List.flatMap_cons]
    have hstep := step_reads ⟨true, maxDepth, hpos⟩ hne
    have hrest : (step ⟨true, maxDepth, hpos⟩ s).rest <:+ source :=
      List.IsSuffix.trans ⟨_, hstep.source⟩ hs
    refine Told.append ?_ (ih hrest)
    exact Markup.settle_told (Markup.item_tells source maxDepth)
      (Markup.item_settles true maxDepth) hs hne

/-- The diagnostics of a template are those of sound faults. -/
theorem exists_sound {source : Input} {d : Diagnostic} (hd : d ∈ (parse options source).errors) :
    ∃ f : Fault, f.Sound source ∧ f.Settled ∧ d = f.diagnose (byteLength source) := by
  obtain ⟨f, hf, rfl⟩ := mem_errors_ofSteps.1 hd
  obtain ⟨hsound, hsettled⟩ := steps_told options (List.suffix_refl source) f hf
  exact ⟨f, hsound, hsettled, rfl⟩

/-- A place lies behind the text before it. -/
theorem pos_diagnose (f : Fault) (before : List Char) :
    (f.diagnose (byteLength (before ++ f.found))).pos = byteLength before := by
  show offset (byteLength (before ++ f.found)) f.found = _
  rw [offset, byteLength_append]
  omega

/-- Every diagnostic of a template is true of its place, and something is left to read there unless
elements or operands nest too deep. -/
theorem parse_truthful (options : Options) (source : Input) :
    ∀ d ∈ (parse options source).errors, ∃ before found, source = before ++ found ∧
      d.pos = byteLength before ∧ d.cause.Holds before found ∧
        (d.cause ≠ .nestingTooDeep → d.pos < byteLength source) := by
  intro d hd
  obtain ⟨f, hsound, hsettled, rfl⟩ := exists_sound hd
  have hpoints := hsound.points hsettled
  obtain ⟨before, rfl, hholds⟩ := hsound.holds hsettled
  have hpos := pos_diagnose f before
  refine ⟨before, f.found, rfl, hpos, hholds, fun hcause => ?_⟩
  rcases hpoints with ⟨c, more, hfound, -⟩ | ⟨hdeep, -⟩
  · have hsize := c.utf8Size_pos
    rw [hpos, byteLength_append, hfound, byteLength]
    omega
  · exact absurd hdeep hcause

/-- An operand is missing, and behind that a string does not end: both are reported, with what is
true of the one place and of the other. -/
theorem parse_truthful_string :
    let options : Options := ⟨true, 8, by decide⟩
    let source : Input :=
      ['{', '{', ' ', '1', ' ', '+', ' ', '}', '}', '{', '{', '\'', 'a', ' ', '}', '}']
    (⟨.unexpectedToken "expression", 7⟩ ∈ (parse options source).errors ∧
      ∃ before found, source = before ++ found ∧ 7 = byteLength before ∧
        Cause.Holds before found (.unexpectedToken "expression") ∧
          (Cause.unexpectedToken "expression" ≠ .nestingTooDeep → 7 < byteLength source)) ∧
    (⟨.unterminatedStringLiteral, 11⟩ ∈ (parse options source).errors ∧
      ∃ before found, source = before ++ found ∧ 11 = byteLength before ∧
        Cause.Holds before found .unterminatedStringLiteral ∧
          (Cause.unterminatedStringLiteral ≠ .nestingTooDeep → 11 < byteLength source)) := by
  intro options source
  have herrors : (parse options source).errors =
      [⟨.unexpectedToken "expression", 7⟩, ⟨.unterminatedStringLiteral, 11⟩] := by
    unfold parse ofSteps
    dsimp only
    cbv
  have hoperand : ⟨.unexpectedToken "expression", 7⟩ ∈ (parse options source).errors := by
    simp [herrors]
  have hstring : ⟨.unterminatedStringLiteral, 11⟩ ∈ (parse options source).errors := by
    simp [herrors]
  exact ⟨⟨hoperand, parse_truthful options source _ hoperand⟩,
    ⟨hstring, parse_truthful options source _ hstring⟩⟩

/-- Every diagnostic points at a character that is no blank, or it reports an operand that is too
deep: then the place is directly behind something that is no blank, and it is the end of the input
or a blank stands there. -/
theorem parse_pointed (options : Options) (source : Input) :
    ∀ d ∈ (parse options source).errors, ∃ before found, source = before ++ found ∧
      d.pos = byteLength before ∧
        ((∃ c more, found = c :: more ∧ isBlank c = false) ∨
          d.cause = .nestingTooDeep ∧ Trimmed before ∧ ∀ c ∈ found.head?, isBlank c = true) := by
  intro d hd
  obtain ⟨f, hsound, hsettled, rfl⟩ := exists_sound hd
  rcases hsound.points hsettled with hfirst | ⟨hcause, ⟨before, hsource, htrimmed⟩, hblank⟩
  · obtain ⟨before, rfl, -⟩ := hsound.holds hsettled
    exact ⟨before, f.found, rfl, pos_diagnose f before, .inl hfirst⟩
  · subst hsource
    exact ⟨before, f.found, rfl, pos_diagnose f before, .inr ⟨hcause, htrimmed, hblank⟩⟩

/-- An operand that is too deep is reported behind the operator before it. -/
theorem parse_pointed_operand :
    let options : Options := ⟨false, 2, by decide⟩
    let source : Input := ['{', '{', ' ', '-', ' ', '-', ' ', 'a', ' ', '}', '}']
    ⟨.nestingTooDeep, 6⟩ ∈ (parse options source).errors ∧
      ∃ before found, source = before ++ found ∧ 6 = byteLength before ∧
        ((∃ c more, found = c :: more ∧ isBlank c = false) ∨
          Cause.nestingTooDeep = .nestingTooDeep ∧ Trimmed before ∧
            ∀ c ∈ found.head?, isBlank c = true) := by
  intro options source
  have herrors : (parse options source).errors = [⟨.nestingTooDeep, 6⟩] := by
    unfold parse ofSteps
    dsimp only
    cbv
  have hdeep : ⟨.nestingTooDeep, 6⟩ ∈ (parse options source).errors := by simp [herrors]
  exact ⟨hdeep, parse_pointed options source _ hdeep⟩

/-- Such an operand is not pointed at: a blank stands at the place. -/
theorem parse_pointed_blank :
    let options : Options := ⟨false, 1, by decide⟩
    let source : Input := ['{', '{', ' ', '-', ' ', 'a', ' ', '}', '}']
    ¬∀ d ∈ (parse options source).errors, ∃ before c more, source = before ++ c :: more ∧
      d.pos = byteLength before ∧ isBlank c = false := by
  intro options source hall
  have herrors : (parse options source).errors = [⟨.nestingTooDeep, 4⟩] := by
    unfold parse ofSteps
    dsimp only
    cbv
  obtain ⟨before, c, more, hsource, hpos, hc⟩ := hall _ (by rw [herrors]; exact List.mem_cons_self)
  -- The text before the place is four characters long.
  have hbefore : ['{', '{', ' ', '-'] = before :=
    @eq_of_byteLength_eq _ _ [' ', 'a', ' ', '}', '}'] _ hsource hpos
  subst hbefore
  have hrest : [' ', 'a', ' ', '}', '}'] = c :: more :=
    @List.append_cancel_left _ ['{', '{', ' ', '-'] _ _ hsource
  cases hrest
  cases hc

end Template

end Stencil
