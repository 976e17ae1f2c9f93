import Stencil.Proofs.Members

/-!
# How canonical expressions begin

The first token of a canonical expression neither ends nor separates the members of a list, and with
the one after it, it names no argument. Where no operand may stand, a number with a sign is no
token, but its sign is one, and so the first token of any expression is found there too
(`Token.exists_code_of_operand`).
-/

namespace Stencil

/-- A word begins a member of a list. -/
theorem IsWord.beginsMember {w : List Char} (h : IsWord w) (gap : List Char) (rest : Input) :
    Token.BeginsMember ⟨.word, gap, w, rest⟩ := by
  obtain ⟨c, s, rfl, hc, -⟩ := h
  refine ⟨nofun, nofun, fun b hb => ?_⟩
  obtain rfl := Option.some.inj hb
  cases b <;> cases hc

/-- A number begins with a digit, a sign or a point. A hyphen that begins it ends no statement. -/
theorem Numeral.of_starts {c : Char} {s : Input} (h : starts (c :: s) = true) :
    c.isDigit = true ∨ c = '+' ∨ c = '.' ∨ c = '-' ∧ ∃ d s', s = d :: s' ∧ d ≠ '%' := by
  unfold starts at h
  split at h
  · rename_i heq
    exact .inr (.inl (List.cons_eq_cons.1 heq).1)
  · rename_i heq
    obtain ⟨rfl, rfl⟩ := List.cons_eq_cons.1 heq
    refine .inr (.inr (.inr ⟨rfl, ?_⟩))
    cases s with
    | nil => cases h
    | cons d s =>
      refine ⟨d, s, rfl, ?_⟩
      rintro rfl
      cases s <;> cases h
  · unfold startsUnsigned at h
    split at h
    · rename_i heq
      exact .inr (.inr (.inl (List.cons_eq_cons.1 heq).1))
    · rename_i heq
      obtain ⟨rfl, rfl⟩ := List.cons_eq_cons.1 heq
      exact .inl h
    · rename_i heq
      cases heq

/-- Where an operand may stand a token of code is read as elsewhere, or it begins with a sign or a
point. -/
theorem Token.scanCode_operand (c : Char) (s : Input) :
    scanCode false (c :: s) = scanCode true (c :: s) ∨
      c = '+' ∨ c = '.' ∨ c = '-' ∧ ∃ d s', s = d :: s' ∧ d ≠ '%' := by
  by_cases hclose : ∃ s', c = '-' ∧ s = '%' :: '}' :: s'
  · obtain ⟨s', rfl, rfl⟩ := hclose
    exact .inl rfl
  have hopen : ∀ s', c = '-' → s = '%' :: '}' :: s' → False := fun s' hc hs => hclose ⟨s', hc, hs⟩
  rw [scanCode.eq_3 _ _ _ hopen, scanCode.eq_3 _ _ _ hopen]
  by_cases hdigit : c.isDigit = true
  · -- A number that begins with a digit does not depend on what may stand here.
    left
    simp only [hdigit, Bool.true_or]
  by_cases hstarts : Numeral.starts (c :: s) = true
  · exact .inr ((Numeral.of_starts hstarts).resolve_left hdigit)
  · left
    simp only [hstarts, Bool.and_false]

/-- The kinds of the tokens with which expressions begin. -/
def Primary.firstKinds : List TokenKind :=
  [.word, .plus, .minus, .quoted, .integer, .float, .leftBracket, .leftBrace]

/-- An expression begins with a token of one of these kinds. -/
theorem Primary.kind_mem_firstKinds {t : Token} (h : of? t ≠ none) : t.kind ∈ firstKinds := by
  unfold of? at h
  split at h
  case h_9 => exact absurd rfl h
  all_goals
    rename_i hkind
    simp [firstKinds, hkind]

/-- A token that begins an expression begins a member of a list. -/
theorem Token.beginsMember_of_primary {t : Token} (h : Written t.kind t.text)
    (hof : Primary.of? t ≠ none) : t.BeginsMember := by
  have hkind := Primary.kind_mem_firstKinds hof
  have hother : ∀ k ∈ Primary.firstKinds, k ≠ .comma ∧ k ≠ .assign ∧ k ≠ .trim := by decide
  obtain ⟨hcomma, hassign, htrim⟩ := hother _ hkind
  refine ⟨hcomma, hassign, fun b hb => ?_⟩
  obtain ⟨more, htext⟩ : ∃ more, t.text = b.closer :: more := by
    cases hcons : t.text with
    | nil =>
      rw [hcons] at hb
      cases hb
    | cons c more =>
      rw [hcons] at hb
      exact ⟨more, by rw [Option.some.inj hb]⟩
  have hclosers : b.closer ∈ [')', ']', '}'] := by cases b <;> decide
  rw [htext] at h
  generalize t.kind = kind at *
  generalize b.closer = c at *
  have hno : ∀ c ∈ [')', ']', '}'], ¬Numeral.IsChar c ∧ isWordStart c = false ∧ c ≠ '"' ∧
      c ≠ '\'' := by
    simp only [List.mem_cons, List.not_mem_nil, or_false, Numeral.IsChar]
    rintro c (rfl | rfl | rfl) <;> decide
  obtain ⟨hchar, hstart, hdouble, hsingle⟩ := hno c hclosers
  cases h with
  | trim => exact htrim rfl
  | number _ hchars => exact hchar (hchars c List.mem_cons_self)
  | quoted hq _ => exact hq.elim hdouble hsingle
  | word hc _ =>
    rw [hstart] at hc
    cases hc
  | symbol hmem =>
    have hsymbols : ∀ symbol ∈ symbols, symbol.2 ∈ Primary.firstKinds →
        [')', ']', '}'].all (fun c => symbol.1.head? ≠ some c) = true := by decide
    simpa using List.all_eq_true.1 (hsymbols _ hmem hkind) c hclosers

/-- Where an expression begins, the token that is read elsewhere in code begins a member of a list
too. If it is a word, it is the token with which the expression begins. -/
theorem Token.exists_code_of_operand {s : Input} {t : Token} (hscan : scan .operand s = .ok t)
    (hof : Primary.of? t ≠ none) :
    ∃ next, scan .code s = .ok next ∧ next.BeginsMember ∧ (next.kind = .word → next = t) := by
  have hother : ∀ (kind : TokenKind) (c : Char) (more : Input),
      scanCode false (s.dropWhile isBlank) = .ok ⟨kind, [], [c], more⟩ → kind ≠ .comma →
        kind ≠ .assign → kind ≠ .word → (∀ b : Bracket, c ≠ b.closer) →
          ∃ next, scan .code s = .ok next ∧ next.BeginsMember ∧ (next.kind = .word → next = t) := by
    intro kind c more hnext hcomma hassign hword hcloser
    refine ⟨⟨kind, s.takeWhile isBlank, [c], more⟩, ?_,
      ⟨hcomma, hassign, fun b hb => hcloser b (Option.some.inj hb)⟩, fun h => absurd h hword⟩
    rw [scan, afterBlanks, hnext]
  cases hs : s.dropWhile isBlank with
  | nil =>
    rw [scan, afterBlanks, hs] at hscan
    cases hscan
    exact absurd rfl hof
  | cons c more =>
    rw [hs] at hother
    rcases scanCode_operand c more with hsame | rfl | rfl | ⟨rfl, d, more, rfl, hd⟩
    · have hwritten : Written t.kind t.text := @afterBlanks_written s true t hscan
      refine ⟨t, ?_, beginsMember_of_primary hwritten hof, fun _ => rfl⟩
      simp only [scan, afterBlanks, hs, hsame] at hscan ⊢
      exact hscan
    · exact hother .plus '+' more rfl (by decide) (by decide) (by decide)
        fun b => by cases b <;> decide
    · exact hother .dot '.' more rfl (by decide) (by decide) (by decide)
        fun b => by cases b <;> decide
    · refine hother .minus '-' (d :: more) ?_ (by decide) (by decide) (by decide)
        fun b => by cases b <;> decide
      rw [scanCode.eq_3 _ _ _ fun _ _ h => hd (List.cons_eq_cons.1 h).1]
      rfl

/-- In code a literal begins a member of a list. -/
theorem IsLiteral.scan_code {kind : Kind} {text : List Char} (h : IsLiteral kind text)
    (x : Input) : ∃ next, Token.scan .code (' ' :: (text ++ ' ' :: x)) = .ok next ∧
      next.BeginsMember ∧ (next.kind = .word → next.rest = ' ' :: x) := by
  have hwhole : ∀ {tokenKind : TokenKind}, Token.IsWhole true tokenKind text →
      Primary.of? ⟨tokenKind, [' '], text, ' ' :: x⟩ ≠ none → ∃ next,
        Token.scan .code (' ' :: (text ++ ' ' :: x)) = .ok next ∧
          next.BeginsMember ∧ (next.kind = .word → next.rest = ' ' :: x) := by
    intro tokenKind hwhole hof
    obtain ⟨next, hscan, hbegins, hsame⟩ :=
      Token.exists_code_of_operand (hwhole.scan_operand x) hof
    exact ⟨next, hscan, hbegins, fun hword => by rw [hsame hword]⟩
  cases h with
  | string h => exact hwhole h nofun
  | integer h => exact hwhole h nofun
  | float h => exact hwhole h nofun
  | bool h =>
    simp only [List.mem_cons, List.not_mem_nil, or_false] at h
    rcases h with rfl | rfl
    · exact hwhole (IsWord.isWhole ⟨'T', "rue".toList, rfl, rfl, List.all_eq_true.1 rfl⟩ true) nofun
    · exact hwhole (IsWord.isWhole ⟨'F', "alse".toList, rfl, rfl, List.all_eq_true.1 rfl⟩ true)
        nofun

/-- An expression that is extended begins as it did. -/
theorem Tree.Begins.extend {t u : Tree} {s : Input} (h : t.Begins)
    (hsource : u.source = t.source ++ ' ' :: s) : u.Begins := by
  obtain ⟨s', hs'⟩ := h.space
  refine ⟨⟨s' ++ ' ' :: s, by rw [hsource, hs', List.cons_append]⟩, fun x => ?_⟩
  rw [hsource, List.append_assoc]
  exact h.first (s ++ ' ' :: x)

/-- An expression that a tail extends begins as it did. -/
theorem Tree.Begins.attach {t : Tree} (h : t.Begins) {tail : Tail Tree} {s : Input}
    (htail : sources tail.more = ' ' :: s) : (Tail.attach t tail).Begins :=
  h.extend (by rw [Tail.source_attach, htail])

/-- A tree may be a member of a list if its first token begins one. -/
theorem Tree.begins_of_isWhole {t : Tree} {kind : TokenKind} {text s : List Char}
    (h : Token.IsWhole false kind text)
    (hbegins : ∀ rest, Token.BeginsMember ⟨kind, [' '], text, rest⟩)
    (hsource : t.source = ' ' :: (text ++ s)) (hs : s = [] ∨ ∃ s', s = ' ' :: s') : t.Begins := by
  refine ⟨⟨_, hsource⟩, fun x => ?_⟩
  obtain ⟨y, hy⟩ : ∃ y, s ++ ' ' :: x = ' ' :: y := by
    rcases hs with rfl | ⟨s', rfl⟩ <;> exact ⟨_, rfl⟩
  rw [hsource, List.cons_append, List.append_assoc, hy]
  exact ⟨_, h.scan_code y, hbegins _⟩

/-- A node whose children stand between brackets may be a member of a list. -/
theorem Tree.begins_bracketed (b : Bracket) (kind : Kind) (trailing : Bool) {ts : List Tree}
    (hts : ∀ t ∈ ts, t.Begins) :
    (node none kind (bracketed b trailing ts)).Begins := by
  obtain ⟨y, hy⟩ := sources_separated trailing hts [b.closer]
  refine begins_of_isWhole (b.isWhole_first false) (fun rest => ?_) (s := ' ' :: y) ?_
    (.inr ⟨y, rfl⟩)
  · refine ⟨?_, ?_, fun c hc => ?_⟩
    · cases b <;> nofun
    · cases b <;> nofun
    · cases b <;> cases c <;> cases hc
  · rw [source, sources_bracketed, hy]
    rfl

/-- A word may be a member of a list, and so may what begins with one. -/
theorem Tree.begins_of_isWord {t : Tree} {w s : List Char} (hw : IsWord w)
    (hsource : t.source = ' ' :: (w ++ s)) (hs : s = [] ∨ ∃ s', s = ' ' :: s') : t.Begins :=
  begins_of_isWhole (hw.isWhole false) (hw.beginsMember [' ']) hsource hs

/-- A sign is one token, with which an operator before its operand begins. -/
theorem sign_isWhole {sign : String} (h : sign ∈ signs) :
    ∃ kind, (∀ operand, Token.IsWhole operand kind sign.toList) ∧
      ∀ rest, Token.BeginsMember ⟨kind, [' '], sign.toList, rest⟩ ∧
        Primary.of? ⟨kind, [' '], sign.toList, rest⟩ =
          some (.unary ⟨kind, [' '], sign.toList, rest⟩) := by
  have hbegins : ∀ {kind : TokenKind} {c : Char} {text : List Char} {rest : Input},
      kind ≠ .comma → kind ≠ .assign → (∀ b : Bracket, c ≠ b.closer) →
        Token.BeginsMember ⟨kind, [' '], c :: text, rest⟩ :=
    fun hcomma hassign hcloser => ⟨hcomma, hassign, fun b hb => hcloser b (Option.some.inj hb)⟩
  simp only [signs, List.mem_cons, List.not_mem_nil, or_false] at h
  rcases h with rfl | rfl | rfl
  · refine ⟨.word, fun operand => ⟨nofun, by cases operand <;> rfl⟩, fun rest => ⟨?_, rfl⟩⟩
    exact hbegins nofun nofun fun b => by cases b <;> decide
  · refine ⟨.minus, fun operand => ⟨nofun, by cases operand <;> rfl⟩, fun rest => ⟨?_, rfl⟩⟩
    exact hbegins nofun nofun fun b => by cases b <;> decide
  · refine ⟨.plus, fun operand => ⟨nofun, by cases operand <;> rfl⟩, fun rest => ⟨?_, rfl⟩⟩
    exact hbegins nofun nofun fun b => by cases b <;> decide

/-- A pair may be a member of a dictionary if its key may. -/
theorem Tree.Begins.pair {key : Tree} (h : key.Begins) (value : Tree) : (pair key value).Begins :=
  h.extend (source_pair key value)

/-- An argument may be a member of a list if its value may. -/
theorem Tree.Begins.argument {w : Option (List Char)} {value : Tree} (h : value.Begins)
    (hw : ∀ v ∈ w, IsWord v) : (argument w value).Begins := by
  cases w with
  | none => exact h
  | some v => exact begins_of_isWord (hw v rfl) (source_argument_some v value) (.inr ⟨_, rfl⟩)

/-- Pairs may be members of a dictionary if their keys may. -/
theorem Tree.begins_pairs {pairs : List (Tree × Tree)} (h : ∀ p ∈ pairs, p.1.Begins) :
    ∀ t ∈ pairs.map fun p => pair p.1 p.2, t.Begins := by
  intro t ht
  obtain ⟨p, hp, rfl⟩ := List.mem_map.1 ht
  exact (h p hp).pair p.2

/-- Arguments may be members of a list if their values may. -/
theorem Tree.begins_arguments {arguments : List (Option (List Char) × Tree)}
    (hnames : ∀ a ∈ arguments, ∀ w ∈ a.1, IsWord w) (h : ∀ a ∈ arguments, a.2.Begins) :
    ∀ t ∈ arguments.map fun a => argument a.1 a.2, t.Begins := by
  intro t ht
  obtain ⟨a, ha, rfl⟩ := List.mem_map.1 ht
  exact (h a ha).argument (hnames a ha)

/-- Canonical expressions may be members of a list. -/
theorem Canonical.begins {g : Grade} {t : Tree} (h : Canonical g t) : t.Begins := by
  induction h with
  | name hw _ => exact Tree.begins_of_isWord hw (List.append_nil _).symm (.inl rfl)
  | @literal _ text h =>
    refine ⟨⟨text, rfl⟩, fun x => ?_⟩
    obtain ⟨next, hscan, hnext, -⟩ := h.scan_code x
    exact ⟨next, hscan, hnext⟩
  | list trailing _ ih => exact Tree.begins_bracketed .square _ trailing ih
  | dict trailing _ _ ihkeys ihvalues =>
    exact Tree.begins_bracketed .curly _ trailing (Tree.begins_pairs ihkeys)
  | property _ _ _ ih => exact ih.attach rfl
  | subscript _ _ _ ih _ => exact ih.attach rfl
  | tight _ ih | signed _ ih | called _ ih => exact ih
  | unary hsign _ ih =>
    obtain ⟨s, hs⟩ := ih.space
    obtain ⟨kind, hwhole, hfirst⟩ := sign_isWhole hsign
    refine Tree.begins_of_isWhole (hwhole false) (fun rest => (hfirst rest).1) ?_ (.inr ⟨s, rfl⟩)
    rw [Tree.source_unary, hs]
  | call _ _ _ _ ih _ => exact ih.attach rfl
  | binary _ _ _ ih _ => exact ih.attach rfl

/-- A word that no sign of assignment follows names no argument, and no other token does. -/
theorem atNamed_eq_false {s : Input} {next : Token} (hscan : Token.scan .code s = .ok next)
    (hnext : next.kind = .word → NoAssign next.rest) : atNamed s = false := by
  rw [atNamed, hscan]
  by_cases hword : next.kind = .word
  · have hsign := hnext hword
    simp only [hword, decide_true, Bool.true_and]
    split
    · rename_i sign hscan'
      exact decide_eq_false (hsign sign hscan')
    · rfl
  · simp [hword]

/-- No sign of assignment follows an operand of an operator. -/
theorem noAssign_operator {kind : Kind} {op : String} (h : (kind, op) ∈ operators) (x : Input) :
    NoAssign (' ' :: (op.toList ++ ' ' :: x)) := by
  simp only [operators, List.mem_cons, List.not_mem_nil, or_false, Prod.mk.injEq] at h
  rcases h with ⟨-, rfl⟩ | ⟨-, rfl⟩ | ⟨-, rfl⟩ | ⟨-, rfl⟩ | ⟨-, rfl⟩ | ⟨-, rfl⟩ | ⟨-, rfl⟩ |
    ⟨-, rfl⟩ | ⟨-, rfl⟩ | ⟨-, rfl⟩ | ⟨-, rfl⟩ | ⟨-, rfl⟩ | ⟨-, rfl⟩ | ⟨-, rfl⟩ | ⟨-, rfl⟩
  all_goals exact noAssign_of_scan rfl nofun

/-- An expression that a tail extends is no named argument, if the expression before the tail is
none and the tail does not begin with a sign of assignment. -/
theorem Tail.not_atNamed_attach {t : Tree} {tail : Tail Tree} {s : Input}
    (ht : ∀ {x}, NoAssign (' ' :: x) → atNamed (t.source ++ ' ' :: x) = false)
    (htail : Tree.sources tail.more = ' ' :: s) (hs : ∀ x, NoAssign (' ' :: (s ++ ' ' :: x)))
    (x : Input) : atNamed ((Tail.attach t tail).source ++ ' ' :: x) = false := by
  rw [Tail.source_attach, htail, List.append_assoc]
  exact ht (hs x)

/-- What stands between brackets begins with no word, so that it is no named argument. -/
theorem Tree.not_atNamed_bracketed (b : Bracket) (kind : Kind) (trailing : Bool) {ts : List Tree}
    (hts : ∀ t ∈ ts, t.Begins) (x : Input) :
    atNamed ((node none kind (bracketed b trailing ts)).source ++ ' ' :: x) = false := by
  obtain ⟨y, hy⟩ := sources_separated trailing hts (b.closer :: ' ' :: x)
  have hinput : (node none kind (bracketed b trailing ts)).source ++ ' ' :: x =
      ' ' :: ([b.first] ++ ' ' :: y) := by
    rw [← hy]
    simp [source, sources_bracketed]
  rw [hinput]
  refine atNamed_eq_false ((b.isWhole_first false).scan_code y) fun hword => ?_
  cases b <;> cases hword

/-- A canonical expression is no named argument. -/
theorem Canonical.not_atNamed {g : Grade} {t : Tree} (h : Canonical g t) {x : Input}
    (hx : NoAssign (' ' :: x)) : atNamed (t.source ++ ' ' :: x) = false := by
  induction h generalizing x with
  | name hw _ => exact atNamed_eq_false ((hw.isWhole false).scan_code x) fun _ => hx
  | literal h =>
    obtain ⟨next, hscan, -, hrest⟩ := h.scan_code x
    refine atNamed_eq_false hscan fun hword => ?_
    rw [hrest hword]
    exact hx
  | list trailing h =>
    exact Tree.not_atNamed_bracketed .square _ trailing (fun t ht => (h t ht).begins) x
  | dict trailing hkeys _ =>
    have hbegins := Tree.begins_pairs fun p hp => (hkeys p hp).begins
    exact Tree.not_atNamed_bracketed .curly _ trailing hbegins x
  | property _ _ _ ih =>
    exact Tail.not_atNamed_attach ih (Tail.sources_propertyTree _)
      (fun _ => noAssign_mark isWhole_dot nofun _) x
  | subscript _ _ h ih _ =>
    obtain ⟨s, hs⟩ := h.source_eq
    refine Tail.not_atNamed_attach ih (Tail.sources_subscriptTree _) (fun x => ?_) x
    rw [hs]
    exact noAssign_mark (Bracket.square.isWhole_first false) nofun _
  | tight _ ih | signed _ ih | called _ ih => exact ih hx
  | unary hsign h _ =>
    obtain ⟨kind, hwhole, -⟩ := sign_isWhole hsign
    obtain ⟨next, hscan, hnext⟩ := h.begins.first x
    obtain ⟨s, hs⟩ := h.source_eq
    rw [hs] at hscan
    rw [Tree.source_unary, hs, List.cons_append, List.append_assoc]
    exact atNamed_eq_false ((hwhole false).scan_code _) fun _ => noAssign_of_scan hscan hnext.assign
  | @call trailing _ arguments _ hnames harguments ih _ =>
    refine Tail.not_atNamed_attach ih (Tail.sources_callTree _ _) (fun x => ?_) x
    have hbegins := Tree.begins_arguments hnames fun a ha => (harguments a ha).begins
    obtain ⟨y, hy⟩ := Tree.sources_separated trailing hbegins (')' :: ' ' :: x)
    rw [List.cons_append, List.append_assoc, List.cons_append, List.singleton_append, hy]
    exact noAssign_mark (Bracket.round.isWhole_first false) nofun y
  | binary hop _ hright ih _ =>
    obtain ⟨s, hs⟩ := hright.source_eq
    refine Tail.not_atNamed_attach ih (Tail.sources_binaryTree _ _ _) (fun x => ?_) x
    rw [hs, List.append_assoc]
    exact noAssign_operator hop _

end Stencil
