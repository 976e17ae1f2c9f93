import Stencil.Proofs.Faults
import Stencil.Proofs.Forward

/-!
# Malformed items

The faults that a reader which recovers reports for an item lie in what it takes for the item
(`Markup.item_faultsLie`): those that it reports on the way, in the bodies of elements, and the one
with which the item fails. A reader that has entered an item reports a fault at the place where the
item begins only if the item does not end (`Failure.Entered`); where it enters none, because a
closing tag stands there, it says so with a cause of its own (`Markup.item_found`).
-/

namespace Stencil

/-! ## Faults on the way -/

/-- Where reading stops: behind what is read, or where the reader gives up. -/
def Reply.stop {α : Type} (reply : Reply α) : Input :=
  match reply.result with
  | .ok (_, rest) => rest
  | .error e => e.stopped

namespace Reading

variable {α β : Type}

/-- Reading that goes on or stops at an end of the input, and reports faults on the way in what it
reads. -/
structure Notes (x : Reading α) : Prop where
  within : x.parser.Within
  lies : ∀ ⦃s : Input⦄ ⦃f : Fault⦄, f ∈ faultsOf (x s).events → f.Lies s (x s).stop

/-- Where a reader stops is an end of the input. -/
theorem stop_suffix {x : Reading α} (hx : x.parser.Within) (s : Input) : (x s).stop <:+ s := by
  have hs := hx s
  unfold Reply.stop
  simp only [parser] at hs
  split at hs <;> simp_all

/-- A reader that reports no fault on the way. -/
theorem Notes.of_faultless {x : Reading α} (hx : x.parser.Within)
    (h : ∀ s, faultsOf (x s).events = []) : x.Notes := by
  refine ⟨hx, fun s f hf => ?_⟩
  rw [h s] at hf
  cases hf

/-- A parser reports no fault on the way. -/
theorem Notes.quiet {p : Parser α} (hp : p.Within) : (quiet p).Notes :=
  .of_faultless hp fun _ => rfl

/-- Finding what is left to read reports no fault. -/
theorem Notes.here : here.Notes := .of_faultless (fun s => List.suffix_refl s) fun _ => rfl

/-- Answering a value reports no fault. -/
theorem Notes.pure (a : α) : (pure a : Reading α).Notes :=
  .of_faultless (Parser.Within.pure a) fun _ => rfl

/-- Reading that goes on reports faults where its halves do. -/
theorem Notes.bind {x : Reading α} {g : α → Reading β} (hx : x.Notes) (hg : ∀ a, (g a).Notes) :
    (x >>= g).Notes := by
  constructor
  · rw [parser_bind]
    exact hx.within.bind fun a => (hg a).within
  · intro s f hf
    rw [events_bind, faultsOf_append] at hf
    cases hresult : (x s).result with
    | error e =>
      have hstop : ((x >>= g) s).stop = (x s).stop := by
        simp only [Reply.stop, Bind.bind, hresult]
      rw [hresult] at hf
      rw [hstop]
      rcases List.mem_append.1 hf with hf | hf
      · exact hx.lies hf
      · cases hf
    | ok a =>
      obtain ⟨a, rest⟩ := a
      have hstop : ((x >>= g) s).stop = (g a rest).stop := by
        simp only [Reply.stop, Bind.bind, hresult]
      rw [hresult] at hf
      rw [hstop]
      rcases List.mem_append.1 hf with hf | hf
      · have hrest : (x s).stop = rest := by rw [Reply.stop, hresult]
        exact (hx.lies hf).mono (List.suffix_refl s) (hrest ▸ stop_suffix (hg a).within rest)
      · exact ((hg a).lies hf).mono (hx.within.rest hresult) (List.suffix_refl _)

/-- Reading inside an opener reports the faults that it does without. -/
theorem Notes.inside {x : Reading α} (opener : Input) (hx : x.Notes) :
    (inside opener x).Notes := by
  refine ⟨hx.within.inside opener, fun s f hf => ?_⟩
  have hstop : (Reading.inside opener x s).stop = (x s).stop := by
    simp only [Reply.stop, Reading.inside]
    cases (x s).result with
    | ok a => rfl
    | error e =>
      show (e.inside opener).stopped = e.stopped
      unfold Failure.inside
      split <;> rfl
  rw [hstop]
  exact hx.lies hf

/-- After a parser that reads something, a reader reports faults behind the place where that
begins. -/
theorem Notes.found_lt {p : Parser α} {g : α → Reading β} (hg : ∀ a, (g a).Notes) {s : Input}
    (hp : ∀ {a rest}, p s = .ok (a, rest) → rest.length < s.length) {f : Fault}
    (hf : f ∈ faultsOf ((Reading.quiet p >>= g) s).events) : f.found.length < s.length := by
  rw [events_bind, faultsOf_append] at hf
  rcases List.mem_append.1 hf with hf | hf
  · cases hf
  · cases hresult : (Reading.quiet p s).result with
    | error e =>
      rw [hresult] at hf
      cases hf
    | ok a =>
      rw [hresult] at hf
      have hlength := ((hg a.1).lies hf).within.length_le
      have hlt := hp hresult
      omega

/-- What is made of a value says nothing of what is reported. -/
theorem events_map (x : Reading α) (g : α → β) (s : Input) :
    ((x >>= fun a => pure (g a)) s).events = (x s).events ∧
      ((x >>= fun a => pure (g a)) s).stop = (x s).stop := by
  simp only [Bind.bind, Pure.pure, Reply.stop]
  cases (x s).result <;> simp

end Reading

/-! ## Items that are entered -/

/-- How a reader fails that has entered the item at `s`: not where the item begins, unless with the
cause that the item does not end. -/
structure Failure.Entered (s : Input) (e : Failure) : Prop where
  lies : e.toFault.Lies s (nextItem e.stopped)
  stopped : e.stopped.length < s.length
  found : e.cause = .unterminatedDelimiter ∨ e.found.length < s.length

/-- Running out of input where something is left to read is noticed behind the place. -/
theorem Failure.entered_of_unterminated {s stopped : Input} (h : stopped <:+ s)
    (hlt : stopped.length < s.length) :
    (⟨⟨.unterminatedDelimiter, s⟩, stopped⟩ : Failure).Entered s := by
  have hsuffix := nextItem_suffix stopped
  refine ⟨⟨List.suffix_refl s, hsuffix.trans h, fun hs => ?_⟩, hlt, .inl rfl⟩
  have hs : s = nextItem stopped := hs
  have hlength := hsuffix.length_le
  rw [← hs] at hlength
  omega

/-- Reading goes on where the failed parser stopped, or behind it. -/
theorem Failure.resume_suffix_stopped {s : Input} {e : Failure} (h : e.stopped <:+ s) :
    e.resume s <:+ e.stopped := by
  unfold resume
  dsimp only
  split
  · exact nextItem_suffix _
  · rename_i hlt
    rw [h.eq_of_length_le (by omega)]
    exact (nextItem_suffix _).trans (List.tail_suffix s)

namespace Markup

/-- What stands between a token of text and its counterpart fails when it is entered, if that token
is there. -/
theorem enclosed_entered {depth : Nat} {field : Option Field} {kind : Kind} {opening : Terminal}
    {parts : List Part} {k : TokenKind} (hmode : opening.mode = .text)
    (hpattern : opening.pattern = .kind k)
    (hinner : (Part.enclosed field kind opening parts).isInner) {s : Input} {e : Failure}
    (hk : (Token.scanText s).kind = k)
    (h : (Part.enclosed field kind opening parts).read (expression depth) s = .error e) :
    e.Entered s := by
  simp only [Part.isInner, Bool.and_eq_true] at hinner
  obtain ⟨⟨-, htext⟩, hparts⟩ := hinner
  have hscan : Token.scan opening.mode s = .ok (Token.scanText s) := by
    rw [hmode]
    rfl
  have htake : opening.pattern.take? (Token.scanText s) = some (Token.scanText s) := by
    rw [hpattern, Pattern.take?, if_pos hk]
  have hskips := Part.readAll_skips (expression_within depth) (expression_skips depth) parts hparts
  have hwithin := Part.readAll_within (expression_within depth) parts
  rcases Part.lies_of_enclosed hskips hwithin htext hscan h with hopening |
    ⟨hlies, hstopped, hfound⟩
  · rw [Terminal.read_of_scan hscan htake] at hopening
    cases hopening
  · rw [Token.scanText_start] at hlies hstopped hfound
    exact ⟨hlies, hstopped, hfound⟩

/-- A comment fails when it is entered. -/
theorem comment_entered {s : Input} {e : Failure} (hk : (Token.scanText s).kind = .commentOpen)
    (h : comment.parser s = .error e) : e.Entered s := by
  have hlt : (Token.scanText s).rest.length < s.length := by
    have hscan : Token.scan .text s = .ok (Token.scanText s) := rfl
    have htext := List.length_pos_iff.2 (Token.text_ne_nil hscan (by simp [hk]) (by simp [hk]))
    have hlength := congrArg List.length (Token.scanText_start s)
    rw [Token.start, List.length_append] at hlength
    omega
  obtain ⟨stopped, hstopped, rfl⟩ := comment_eq_error h
  exact Failure.entered_of_unterminated (hstopped.trans (rest_scanText_suffix s))
    (Nat.lt_of_le_of_lt hstopped.length_le hlt)

/-- A statement fails when it is entered, or in the body of the raw block that it begins. -/
theorem statement_entered {depth : Nat} {s : Input} {e : Failure}
    (hk : (Token.scanText s).kind = .statementOpen)
    (h : (statement (expression depth)).parser s = .error e) : e.Entered s := by
  have hinner : Part.statement.isInner = true := by decide +kernel
  obtain h | ⟨read, s', -, h⟩ := statement_eq_error h
  · exact enclosed_entered rfl rfl hinner hk h
  · -- The block does not end.
    obtain rfl := rawBody_eq_error h
    refine Failure.entered_of_unterminated List.nil_suffix (List.length_pos_iff.2 ?_)
    rintro rfl
    cases hk

/-! ## Elements -/

/-- A reader of items that never gives up where something is left to read, and that reports faults
in what it reads. -/
structure Recovers (y : Reading (List Tree)) : Prop where
  items : ReadsItems y
  ok : ∀ {s e}, s ≠ [] → y.parser s ≠ .error e
  lies : ∀ {s f}, s ≠ [] → f ∈ faultsOf (y s).events → f.Lies s (y s).stop

/-- The items of a body report faults in what is read. -/
theorem body_notes {y : Reading (List Tree)} (hy : Recovers y) : (body y).Notes := by
  refine ⟨body_within hy.items, fun s f hf => ?_⟩
  fun_induction body y s with
  | case1 | case2 => cases hf
  | case3 s hs _ first e =>
    rename_i hfirst
    have hlies := hy.lies hs hf
    rwa [Reply.stop, hfirst] at hlies
  | case4 s hs _ first trees rest hfirst _ =>
    rename_i more ih
    -- What the first item reports lies before the items after it.
    have hlies : f.Lies s more.stop := by
      rw [faultsOf_append] at hf
      rcases List.mem_append.1 hf with hf | hf
      · have hrest : (y s).stop = rest := by rw [Reply.stop, hfirst]
        have hmore := Reading.stop_suffix (body_within hy.items) rest
        exact (hy.lies hs hf).mono (List.suffix_refl s) (hrest ▸ hmore)
      · exact (ih hf).mono (hy.items.within.rest hfirst) (List.suffix_refl _)
    unfold Reply.stop at hlies ⊢
    cases hmore : more.result with
    | error e => rwa [hmore] at hlies
    | ok a => rwa [hmore] at hlies
  | case5 s hs _ first trees rest =>
    rename_i hfirst _
    have hlies := hy.lies hs hf
    rwa [Reply.stop, hfirst] at hlies

/-- The items of a body fail at the end of the input only. -/
theorem body_skips {y : Reading (List Tree)} (hy : Recovers y) : (body y).parser.Skips := by
  intro s e h
  obtain rfl | ⟨s', -, hs', he⟩ := body_failure (fun _ => True) (fun _ _ => trivial) trivial h
  · exact ⟨List.nil_suffix, List.suffix_refl _, fun _ => rfl⟩
  · exact absurd he (hy.ok hs')

/-- Reading the bracket of an element leaves less than there was. -/
theorem opener_rest_lt {s rest : Input} {first : Tree} (h : opener.read s = .ok (first, rest)) :
    rest <:+ s ∧ rest.length < s.length := by
  have hscan : Token.scan opener.mode s = .ok (Token.scanText s) := rfl
  have hrest := Terminal.read_rest_lt rfl hscan h
  rwa [Token.scanText_start] at hrest

/-- The bracket of an element is read where it stands. -/
theorem opener_read_ne_error {s : Input} {e : Failure} (hk : (Token.scanText s).kind = .tagOpen) :
    opener.read s ≠ .error e := by
  have hscan : Token.scan opener.mode s = .ok (Token.scanText s) := rfl
  have htake : opener.pattern.take? (Token.scanText s) = some (Token.scanText s) := if_pos hk
  rw [Terminal.read_of_scan hscan htake]
  nofun

/-- An element is its bracket and what follows it, which reports faults in what it reads, be it on
the way or by failing. -/
theorem element_eq (depth : Nat) {y : Reading (List Tree)} (hy : Recovers y) :
    ∃ inner : Tree → Reading Tree,
      (element (expression depth) y = Reading.here >>= fun s =>
        Reading.quiet opener.read >>= fun first => Reading.inside s (inner first)) ∧
      ∀ first, (inner first).Notes ∧ (inner first).parser.Skips := by
  have hw : ∀ ps, (Part.readAll (expression depth) ps).Within :=
    Part.readAll_within (expression_within depth)
  have hskips : ∀ ps, Part.areInner ps = true → (Part.readAll (expression depth) ps).Skips :=
    Part.readAll_skips (expression_within depth) (expression_skips depth)
  have hheader : Part.areInner header = true := by decide +kernel
  have hheaderEnd : Part.areInner headerEnd = true := by decide +kernel
  have hfooter : Part.areInner footer = true := by decide +kernel
  refine ⟨_, rfl, fun first => ⟨?_, ?_⟩⟩
  · refine .bind (.quiet (hw header)) fun tag => .bind (.quiet (hw headerEnd)) fun stop => ?_
    split
    · exact .pure _
    · exact .bind (body_notes hy) fun items => .bind (.quiet (hw footer)) fun closing => .pure _
  · simp only [Reading.parser_bind, Reading.parser_quiet]
    refine (hskips header hheader).bind (hw header) fun tag => ?_
    refine (hskips headerEnd hheaderEnd).bind (hw headerEnd) fun stop => ?_
    split
    · exact Parser.Skips.pure _
    · simp only [Reading.parser_bind, Reading.parser_quiet]
      refine (body_skips hy).bind (body_within hy.items) fun items => ?_
      exact (hskips footer hfooter).bind (hw footer) fun closing => Parser.Skips.pure _

/-- An element reports faults behind its bracket, in what it reads. -/
theorem element_lies {depth : Nat} {y : Reading (List Tree)} (hy : Recovers y) {s : Input}
    {f : Fault} (hf : f ∈ faultsOf (element (expression depth) y s).events) :
    f.Lies s (element (expression depth) y s).stop ∧ f.found.length < s.length := by
  obtain ⟨inner, heq, hinner⟩ := element_eq depth hy
  rw [heq] at hf ⊢
  have hnotes : ∀ s first, (Reading.inside s (inner first)).Notes :=
    fun s first => .inside s (hinner first).1
  refine ⟨(Reading.Notes.bind .here fun s =>
    .bind (.quiet opener.read_within) (hnotes s)).lies hf, ?_⟩
  exact Reading.Notes.found_lt (hnotes s) (fun h => (opener_rest_lt h).2) hf

/-- An element fails when it is entered. -/
theorem element_entered {depth : Nat} {y : Reading (List Tree)} (hy : Recovers y) {s : Input}
    {e : Failure} (hk : (Token.scanText s).kind = .tagOpen)
    (h : (element (expression depth) y).parser s = .error e) : e.Entered s := by
  obtain ⟨inner, heq, hinner⟩ := element_eq depth hy
  rw [heq] at h
  simp only [Reading.parser_bind, Reading.parser_quiet, Reading.parser_inside] at h
  rcases Parser.bind_eq_error.1 h with h | ⟨here, s', hhere, hread⟩
  · cases h
  obtain ⟨rfl, rfl⟩ := Reading.parser_here_eq_ok.1 hhere
  rcases Parser.bind_eq_error.1 hread with h | ⟨first, s₁, hfirst, h⟩
  · exact absurd h (opener_read_ne_error hk)
  · obtain ⟨hsuffix, hlt⟩ := opener_rest_lt hfirst
    obtain ⟨hnotes, hskips⟩ := hinner first
    obtain ⟨hlies, hcause⟩ := hskips.inside hnotes.within hsuffix hlt h
    have hstopped := ((hnotes.within.inside _).stopped h).length_le
    refine ⟨hlies, by omega, hcause.imp_right fun hfound => ?_⟩
    have := hfound.length_le
    omega

/-- An element that is refused fails behind its bracket, because of the place where it begins. -/
theorem tooDeep_eq_error {s : Input} {e : Failure} (hk : (Token.scanText s).kind = .tagOpen)
    (h : tooDeep.parser s = .error e) :
    e.toFault.Lies s (nextItem e.stopped) ∧ e.stopped.length < s.length := by
  have heq : tooDeep.parser s =
      (opener.read >>= fun _ => Parser.fail .nestingTooDeep s : Parser Tree) s := rfl
  rw [heq] at h
  rcases Parser.bind_eq_error.1 h with h | ⟨first, s₁, hfirst, h⟩
  · exact absurd h (opener_read_ne_error hk)
  · cases h
    obtain ⟨hsuffix, hlt⟩ := opener_rest_lt hfirst
    exact ⟨⟨List.suffix_refl s, (nextItem_suffix s₁).trans hsuffix, fun _ => rfl⟩, hlt⟩

/-! ## Items -/

/-- The faults of an item lie in what the reader takes for it: those that it reports on the way
behind the place where it begins, and that of its failure before the place where reading goes on. -/
structure FaultsLie (x : Reading (List Tree)) : Prop where
  noted : ∀ {s f}, f ∈ faultsOf (x s).events → f.Lies s (x s).stop ∧ f.found.length < s.length
  failed : ∀ {s e}, s ≠ [] → x.parser s = .error e → e.toFault.Lies s (e.resume s)

/-- What becomes of an item reports faults in what it skips or reads. -/
theorem settle_lies {x : Reading (List Tree)} (hx : FaultsLie x) (hw : x.parser.Within) {s : Input}
    (hs : s ≠ []) {f : Fault} (hf : f ∈ faultsOf ((x s).settle true s).events) :
    f.Lies s ((x s).settle true s).rest ∧
      (f.found.length < s.length ∨ ∃ e, x.parser s = .error e ∧ f = e.toFault) := by
  cases hresult : (x s).result with
  | ok a =>
    obtain ⟨trees, rest⟩ := a
    rw [Reply.settle, hresult] at hf ⊢
    obtain ⟨hlies, hlt⟩ := hx.noted hf
    rw [Reply.stop, hresult] at hlies
    exact ⟨hlies, .inl hlt⟩
  | error e =>
    rw [Reply.settle, hresult] at hf ⊢
    rw [faultsOf_append] at hf
    rcases List.mem_append.1 hf with hf | hf
    · obtain ⟨hlies, hlt⟩ := hx.noted hf
      rw [Reply.stop, hresult] at hlies
      have hresume := Failure.resume_suffix_stopped (hw.stopped hresult)
      exact ⟨hlies.mono (List.suffix_refl s) hresume, .inl hlt⟩
    · obtain rfl := List.mem_singleton.1 hf
      exact ⟨hx.failed hs hresult, .inr ⟨e, hresult, rfl⟩⟩

/-- A reader that recovers reports faults in what it reads. -/
theorem recovering_recovers {x : Reading (List Tree)} (hx : FaultsLie x) (hitems : ReadsItems x) :
    Recovers x.recovering where
  items := recovering_readsItems hitems
  ok _ h := by cases h
  lies hs hf := (settle_lies hx hitems.within hs hf).1

/-- An item that fails is entered, or it is an element that fails, or no item begins there. -/
theorem itemOf_eq_error {depth : Nat} {element : Reading Tree} {s : Input} {e : Failure}
    (h : (itemOf (expression depth) element).parser s = .error e) :
    e.Entered s ∨ ((Token.scanText s).kind = .tagOpen ∧ element.parser s = .error e) ∨
      e = ⟨⟨.unexpectedToken "text, element or template tag", s⟩, s⟩ := by
  have hvalue : (Part.value none .text "`\x7b\x7b`").isInner = true := by decide +kernel
  simp only [Reading.parser, itemOf_eq] at h
  split at h
  case h_1 => cases h
  case h_2 hk => exact .inl (enclosed_entered rfl rfl hvalue hk h)
  case h_3 hk => exact .inl (statement_entered hk h)
  case h_4 hk => exact .inl (comment_entered hk (Reading.parser_single_eq_error.1 h))
  case h_5 hk => exact .inr (.inl ⟨hk, Reading.parser_single_eq_error.1 h⟩)
  case h_6 =>
    cases h
    exact .inr (.inr rfl)

/-- The faults of an item lie in it, if those of the elements that it may be do. -/
theorem itemOf_faultsLie {depth : Nat} {element : Reading Tree}
    (hlies : ∀ {s f}, f ∈ faultsOf (element s).events →
      f.Lies s (element s).stop ∧ f.found.length < s.length)
    (hfailed : ∀ {s e}, (Token.scanText s).kind = .tagOpen → element.parser s = .error e →
      e.toFault.Lies s (nextItem e.stopped) ∧ e.stopped.length < s.length) :
    FaultsLie (itemOf (expression depth) element) := by
  constructor
  · intro s f hf
    rw [itemOf_eq] at hf ⊢
    split at hf
    case h_3 =>
      rw [(statement_agrees s).faultless] at hf
      cases hf
    case h_4 =>
      rw [(Reading.events_map comment (fun t => [t]) s).1, (comment_agrees s).faultless] at hf
      cases hf
    case h_5 =>
      obtain ⟨hevents, hstop⟩ := Reading.events_map element (fun t => [t]) s
      rw [hevents] at hf
      rw [hstop]
      exact hlies hf
    all_goals cases hf
  · intro s e hs h
    -- Reading goes on at the next place after the one where the reader gave up.
    have hresume : e.stopped.length < s.length → e.resume s = nextItem e.stopped :=
      fun hlt => by rw [Failure.resume, if_pos hlt, nextItem]
    rcases itemOf_eq_error h with hentered | ⟨hk, h⟩ | rfl
    · rw [hresume hentered.stopped]
      exact hentered.lies
    · obtain ⟨hlies, hlt⟩ := hfailed hk h
      rw [hresume hlt]
      exact hlies
    · -- Reading goes on behind the place, since no item begins there.
      have hstopped : (⟨⟨.unexpectedToken "text, element or template tag", s⟩, s⟩ :
          Failure).stopped <:+ s := List.suffix_refl s
      obtain ⟨hsuffix, hlt⟩ := resume_suffix hs hstopped
      refine ⟨List.suffix_refl s, hsuffix, fun hfound => ?_⟩
      have hfound : s = Failure.resume s _ := hfound
      rw [← hfound] at hlt
      omega

/-- The faults of an item lie in it. -/
theorem item_faultsLie (depth : Nat) : FaultsLie (item true depth) := by
  induction depth with
  | zero =>
    refine itemOf_faultsLie (fun {s f} hf => ?_) tooDeep_eq_error
    rw [(tooDeep_agrees s).faultless] at hf
    cases hf
  | succ depth ih =>
    have hinner := recovering_recovers ih (item_readsItems true depth)
    refine itemOf_faultsLie (element_lies hinner) fun hk h => ?_
    have hentered := element_entered hinner hk h
    exact ⟨hentered.lies, hentered.stopped⟩

/-- An item that fails where it begins does so because it does not end, or because no item begins
there; elements that are refused stand in others. -/
theorem item_found {depth : Nat} {s : Input} {e : Failure}
    (h : (item true (depth + 1)).parser s = .error e) (hfound : e.found = s) :
    e.cause.isOfItem = true := by
  have hinner := recovering_recovers (item_faultsLie depth) (item_readsItems true depth)
  have entered : e.Entered s → e.cause.isOfItem = true := by
    intro hentered
    rcases hentered.found with hcause | hlt
    · rw [hcause]
      rfl
    · rw [hfound] at hlt
      omega
  rcases itemOf_eq_error h with hentered | ⟨hk, h⟩ | rfl
  · exact entered hentered
  · exact entered (element_entered hinner hk h)
  · rfl

end Markup

end Stencil
