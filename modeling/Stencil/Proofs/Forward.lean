import Stencil.Grammar.Expression

/-!
# Reading forward

What a production is read into where it is known what each of its parts is read into. Every form of
a part has its rule here, so that a proof that some input can be read goes through the production
part by part. The other way round, where a production was read its parts were, one after the other
(`Part.exists_of_readAll_cons`).
-/

namespace Stencil

namespace Parser

variable {α β : Type}

/-- A parser that goes on does so after what the first half reads. -/
theorem bind_of_ok {p : Parser α} {f : α → Parser β} {s s' : Input} {a : α}
    (h : p s = .ok (a, s')) : (p >>= f) s = f a s' := by
  show StateT.bind p f s = f a s'
  unfold StateT.bind
  rw [h]
  rfl

/-- Looking at a token answers it. -/
theorem peek_of_scan {mode : Mode} {s : Input} {t : Token} (h : Token.scan mode s = .ok t) :
    peek mode s = .ok (t, s) := by
  rw [peek, h]

/-- A round that answers nothing is the last one. -/
theorem many_of_none {round : Parser (Option α)} {s rest : Input}
    (h : round s = .ok (none, rest)) : many round s = .ok ([], rest) := by
  rw [many, h]

/-- A round that answers something is followed by others. -/
theorem many_of_some {round : Parser (Option α)} {s rest stop : Input} {a : α} {as : List α}
    (h : round s = .ok (some a, rest)) (hlt : rest.length < s.length)
    (hmore : many round rest = .ok (as, stop)) : many round s = .ok (a :: as, stop) := by
  rw [many, h]
  simp only [if_pos hlt, hmore]

end Parser

/-- A token that fits its pattern becomes a leaf. -/
theorem Terminal.read_of_scan {t : Terminal} {s : Input} {next taken : Token}
    (hscan : Token.scan t.mode s = .ok next) (htake : t.pattern.take? next = some taken) :
    t.read s = .ok (taken.leaf t.field t.kind, taken.rest) := by
  rw [read, Parser.bind_of_ok (Parser.peek_of_scan hscan), htake]
  rfl

/-- Looking at a token tells whether it fits. -/
theorem Look.holds_of_scan {mode : Mode} {pattern : Pattern} {s : Input} {t : Token}
    (h : Token.scan mode s = .ok t) :
    (next mode pattern).holds s = .ok ((pattern.take? t).isSome, s) := by
  rw [holds, Parser.bind_of_ok (Parser.peek_of_scan h)]
  rfl

/-- Looking tells whether a named argument begins. -/
theorem Look.holds_named (s : Input) : named.holds s = .ok (atNamed s, s) := rfl

namespace Part

variable {operand : Extent → Parser Tree} {s s' rest : Input} {ts more : List Tree}

/-- A token. -/
theorem read_token {t : Terminal} {leaf : Tree} (h : t.read s = .ok (leaf, rest)) :
    (token t).read operand s = .ok ([leaf], rest) := by
  rw [read, Parser.bind_of_ok h]
  rfl

/-- An operand. -/
theorem read_operand (field : Option Field) {extent : Extent} {t : Tree}
    (h : operand extent s = .ok (t, rest)) :
    (Part.operand field extent).read operand s = .ok ([t.under field], rest) := by
  rw [read, Parser.bind_of_ok h]
  rfl

/-- A node. -/
theorem read_node {field : Option Field} {kind : Kind} {parts : List Part}
    (h : readAll operand parts s = .ok (ts, rest)) :
    (node field kind parts).read operand s = .ok ([.node field kind ts], rest) := by
  rw [read, Parser.bind_of_ok h]
  rfl

/-- A node that an opening token begins. -/
theorem read_enclosed {field : Option Field} {kind : Kind} {opening : Terminal} {parts : List Part}
    {first : Tree} (hopening : opening.read s = .ok (first, s'))
    (h : readAll operand parts s' = .ok (ts, rest)) :
    (enclosed field kind opening parts).read operand s =
      .ok ([.node field kind (first :: ts)], rest) := by
  have hfirst := hopening
  rw [Terminal.read] at hfirst
  obtain ⟨next, s₁, hnext, -⟩ := Parser.bind_eq_ok.1 hfirst
  obtain ⟨-, rfl⟩ := Parser.peek_eq_ok.1 hnext
  rw [read, Parser.bind_of_ok hnext, Parser.bind_of_ok hopening,
    Parser.bind_of_ok (Parser.inside_eq_ok.2 h)]
  rfl

/-- A choice in which what is looked for comes next. -/
theorem read_choice_yes {look : Look} {yes no : List Part} (hlook : look.holds s = .ok (true, s))
    (h : readAll operand yes s = .ok (ts, rest)) :
    (choice look yes no).read operand s = .ok (ts, rest) := by
  rw [read, Parser.bind_of_ok hlook, if_pos rfl, h]

/-- A choice in which something else comes next. -/
theorem read_choice_no {look : Look} {yes no : List Part} (hlook : look.holds s = .ok (false, s))
    (h : readAll operand no s = .ok (ts, rest)) :
    (choice look yes no).read operand s = .ok (ts, rest) := by
  rw [read, Parser.bind_of_ok hlook, if_neg (by simp), h]

/-- One round of repeated parts. -/
def round (operand : Extent → Parser Tree) (look : Look) (parts : List Part) :
    Parser (Option (List Tree)) := do
  let found ← look.holds
  if found then
    let ts ← readAll operand parts
    return some ts
  else return none

/-- Repeated parts are read in rounds. -/
theorem read_repeated (look : Look) (parts : List Part) :
    (repeated look parts).read operand =
      Parser.many (round operand look parts) >>= fun rounds => pure rounds.flatten := by
  rw [read]
  rfl

/-- Parts that are not repeated any more. -/
theorem read_repeated_nil {look : Look} {parts : List Part}
    (hlook : look.holds s = .ok (false, s)) :
    (repeated look parts).read operand s = .ok ([], s) := by
  have hround : round operand look parts s = .ok (none, s) := by
    rw [round, Parser.bind_of_ok hlook]
    rfl
  rw [read_repeated, Parser.bind_of_ok (Parser.many_of_none hround)]
  rfl

/-- Parts that are repeated once more. -/
theorem read_repeated_cons {look : Look} {parts : List Part}
    (hlook : look.holds s = .ok (true, s)) (hfirst : readAll operand parts s = .ok (ts, s'))
    (hlt : s'.length < s.length)
    (hmore : (repeated look parts).read operand s' = .ok (more, rest)) :
    (repeated look parts).read operand s = .ok (ts ++ more, rest) := by
  have hround : round operand look parts s = .ok (some ts, s') := by
    rw [round, Parser.bind_of_ok hlook, if_pos rfl, Parser.bind_of_ok hfirst]
    rfl
  rw [read_repeated] at hmore ⊢
  obtain ⟨rounds, s₁, hrounds, hmore⟩ := Parser.bind_eq_ok.1 hmore
  obtain ⟨rfl, rfl⟩ := Parser.pure_eq_ok.1 hmore
  rw [Parser.bind_of_ok (Parser.many_of_some hround hlt hrounds)]
  rfl

/-- No parts. -/
theorem readAll_nil : readAll operand [] s = .ok ([], s) := rfl

/-- A part and those after it. -/
theorem readAll_cons {p : Part} {ps : List Part} (hfirst : p.read operand s = .ok (ts, s'))
    (hmore : readAll operand ps s' = .ok (more, rest)) :
    readAll operand (p :: ps) s = .ok (ts ++ more, rest) := by
  rw [readAll, Parser.bind_of_ok hfirst, Parser.bind_of_ok hmore]
  rfl

/-- One part. -/
theorem readAll_singleton {p : Part} (h : p.read operand s = .ok (ts, rest)) :
    readAll operand [p] s = .ok (ts, rest) := by
  rw [readAll_cons h readAll_nil, List.append_nil]

/-- Parts in two rows. -/
theorem readAll_both {ps qs : List Part} (hfirst : readAll operand ps s = .ok (ts, s'))
    (hmore : readAll operand qs s' = .ok (more, rest)) :
    readAll operand (ps ++ qs) s = .ok (ts ++ more, rest) := by
  induction ps generalizing s ts with
  | nil =>
    cases hfirst
    exact hmore
  | cons p ps ih =>
    rw [readAll] at hfirst
    obtain ⟨first, s₁, hp, hfirst⟩ := Parser.bind_eq_ok.1 hfirst
    obtain ⟨others, s₂, hps, hfirst⟩ := Parser.bind_eq_ok.1 hfirst
    obtain ⟨rfl, rfl⟩ := Parser.pure_eq_ok.1 hfirst
    rw [List.cons_append, List.append_assoc]
    exact readAll_cons hp (ih hps)

/-! ### What was read of a production -/

/-- The first part of a row was read, and then the others. -/
theorem exists_of_readAll_cons {p : Part} {ps : List Part}
    (h : readAll operand (p :: ps) s = .ok (ts, rest)) :
    ∃ first s' more, p.read operand s = .ok (first, s') ∧
      readAll operand ps s' = .ok (more, rest) ∧ ts = first ++ more := by
  obtain ⟨first, s', hfirst, h⟩ := Parser.bind_eq_ok.1 h
  obtain ⟨more, _, hmore, h⟩ := Parser.bind_eq_ok.1 h
  obtain ⟨rfl, rfl⟩ := Parser.pure_eq_ok.1 h
  exact ⟨first, s', more, hfirst, hmore, rfl⟩

/-- Parts in two rows are read one after the other. -/
theorem exists_of_readAll_append {ps qs : List Part}
    (h : readAll operand (ps ++ qs) s = .ok (ts, rest)) :
    ∃ first s' more, readAll operand ps s = .ok (first, s') ∧
      readAll operand qs s' = .ok (more, rest) ∧ ts = first ++ more := by
  induction ps generalizing s ts with
  | nil => exact ⟨[], s, ts, rfl, h, rfl⟩
  | cons p ps ih =>
    obtain ⟨first, s₁, others, hp, hothers, rfl⟩ := exists_of_readAll_cons h
    obtain ⟨second, s', more, hps, hqs, rfl⟩ := ih hothers
    exact ⟨_, s', more, readAll_cons hp hps, hqs, (List.append_assoc _ _ _).symm⟩

/-- A part that stands alone was read by itself. -/
theorem read_of_readAll_singleton {p : Part} (h : readAll operand [p] s = .ok (ts, rest)) :
    p.read operand s = .ok (ts, rest) := by
  obtain ⟨first, s', more, hfirst, hmore, rfl⟩ := exists_of_readAll_cons h
  obtain ⟨rfl, rfl⟩ := Parser.pure_eq_ok.1 hmore
  rwa [List.append_nil]

/-- An operand is the expression that is read, under its field. -/
theorem exists_of_read_operand {field : Option Field} {extent : Extent}
    (h : (Part.operand field extent).read operand s = .ok (ts, rest)) :
    ∃ t, operand extent s = .ok (t, rest) ∧ ts = [t.under field] := by
  obtain ⟨t, _, ht, h⟩ := Parser.bind_eq_ok.1 h
  obtain ⟨rfl, rfl⟩ := Parser.pure_eq_ok.1 h
  exact ⟨t, ht, rfl⟩

/-- A part that is a token was read into its leaf. -/
theorem exists_of_read_token {t : Terminal} (h : (token t).read operand s = .ok (ts, rest)) :
    ∃ next taken, Token.scan t.mode s = .ok next ∧ t.pattern.take? next = some taken ∧
      ts = [taken.leaf t.field t.kind] ∧ rest = taken.rest := by
  obtain ⟨leaf, _, hleaf, h⟩ := Parser.bind_eq_ok.1 h
  obtain ⟨rfl, rfl⟩ := Parser.pure_eq_ok.1 h
  obtain ⟨next, taken, hscan, htake, rfl, rfl⟩ := Terminal.exists_of_read hleaf
  exact ⟨next, taken, hscan, htake, rfl, rfl⟩

/-- A word is read into its leaf. -/
theorem exists_of_read_word {w : String}
    (h : (token (.keyword w)).read operand s = .ok (ts, rest)) :
    ∃ b, ts = [.leaf none .keyword b w.toList] := by
  obtain ⟨next, taken, -, htake, rfl, -⟩ := exists_of_read_token h
  obtain ⟨hword, rfl⟩ : next.isWord w = true ∧ next = taken := by
    simpa [Terminal.keyword, Pattern.take?] using htake
  exact ⟨next.gap, by rw [Token.leaf, (Token.isWord_iff.1 hword).2]; rfl⟩

/-- Where parts were chosen by the next token there is one, and the first ones were read if it
fits. -/
theorem exists_of_read_choice {mode : Mode} {p : Pattern} {yes no : List Part}
    (h : (choice (.next mode p) yes no).read operand s = .ok (ts, rest)) :
    ∃ t, Token.scan mode s = .ok t ∧
      ((∃ taken, p.take? t = some taken) ∧ readAll operand yes s = .ok (ts, rest) ∨
        p.take? t = none ∧ readAll operand no s = .ok (ts, rest)) := by
  obtain ⟨found, s', hlook, h⟩ := Parser.bind_eq_ok.1 h
  obtain ⟨t, _, hpeek, hfound⟩ := Parser.bind_eq_ok.1 hlook
  obtain ⟨hscan, rfl⟩ := Parser.peek_eq_ok.1 hpeek
  obtain ⟨rfl, rfl⟩ := Parser.pure_eq_ok.1 hfound
  refine ⟨t, hscan, ?_⟩
  cases htake : p.take? t with
  | none =>
    simp only [htake] at h
    exact .inr ⟨rfl, h⟩
  | some taken =>
    simp only [htake] at h
    exact .inl ⟨⟨taken, rfl⟩, h⟩

/-- A sign and the operand behind it were read one after the other. -/
theorem exists_of_read_operation {sign : Terminal} {field : Option Field} {extent : Extent}
    (h : readAll operand [.token sign, .operand field extent] s = .ok (ts, rest)) :
    ∃ next taken t, Token.scan sign.mode s = .ok next ∧ sign.pattern.take? next = some taken ∧
      operand extent taken.rest = .ok (t, rest) ∧
        ts = [taken.leaf sign.field sign.kind, t.under field] := by
  obtain ⟨_, _, _, hsign, hmore, rfl⟩ := exists_of_readAll_cons h
  obtain ⟨next, taken, hscan, htake, rfl, rfl⟩ := exists_of_read_token hsign
  obtain ⟨t, ht, rfl⟩ := exists_of_read_operand (read_of_readAll_singleton hmore)
  exact ⟨next, taken, t, hscan, htake, ht, rfl⟩

end Part

section Expressions

variable {operand : Extent → Parser Tree} {extent : Extent} {s s' rest : Input} {t : Token}

/-- A primary that is a token. -/
theorem Primary.read_leaf {kind : Kind} (hscan : Token.scan .operand s = .ok t)
    (hof : of? t = some (.leaf kind)) : read operand s = .ok (t.leaf none kind, t.rest) := by
  rw [read, Parser.bind_of_ok (Parser.peek_of_scan hscan), hof]
  rfl

/-- A primary that is made of parts. -/
theorem Primary.read_node {kind : Kind} {parts : List Part} {ts : List Tree}
    (hscan : Token.scan .operand s = .ok t) (hof : of? t = some (.node kind parts))
    (hparts : Part.readAll operand parts s = .ok (ts, rest)) :
    read operand s = .ok (.node none kind ts, rest) := by
  rw [read, Parser.bind_of_ok (Parser.peek_of_scan hscan), hof]
  dsimp only
  rw [Parser.bind_of_ok hparts]
  rfl

/-- The tail that comes next where an expression of an extent may go on with `t`. -/
def Tail.next? (extent : Extent) (t : Token) : Option (Tail Part) :=
  if admits extent t then of? t else none

/-- The tail that comes next begins with its token, and the expression goes on through it. -/
theorem Tail.of?_of_next? {form : Tail Part} (h : next? extent t = some form) :
    admits extent t = true ∧ of? t = some form := by
  rw [next?] at h
  split at h
  · exact ⟨‹_›, h⟩
  · cases h

/-- A tail. -/
theorem Tail.read_some {tail : Tail Part} {more : List Tree}
    (hscan : Token.scan (mode extent) s = .ok t) (hadmits : admits extent t = true)
    (hof : of? t = some tail) (hmore : Part.readAll operand tail.more s = .ok (more, rest)) :
    read operand extent s = .ok (some ⟨tail.kind, tail.slot, more⟩, rest) := by
  rw [read, Parser.bind_of_ok (Parser.peek_of_scan hscan), if_pos hadmits, hof]
  dsimp only
  rw [Parser.bind_of_ok hmore]
  rfl

/-- No tail. -/
theorem Tail.read_none (hscan : Token.scan (mode extent) s = .ok t)
    (hof : (if admits extent t then of? t else none) = none) :
    read operand extent s = .ok (none, s) := by
  rw [read, Parser.bind_of_ok (Parser.peek_of_scan hscan), hof]
  rfl

/-- How a primary is read: the token that comes first is all of it, or the parts that begin with the
token are. -/
inductive Primary.IsRead (operand : Extent → Parser Tree) (s : Input) : Tree → Input → Prop
  | leaf {next : Token} {kind : Kind} (hscan : Token.scan .operand s = .ok next)
    (hform : of? next = some (.leaf kind)) : IsRead operand s (next.leaf none kind) next.rest
  | node {next : Token} {kind : Kind} {parts : List Part} {ts : List Tree} {rest : Input}
    (hscan : Token.scan .operand s = .ok next) (hform : of? next = some (.node kind parts))
    (hparts : Part.readAll operand parts s = .ok (ts, rest)) :
    IsRead operand s (.node none kind ts) rest

/-- A primary is read in one of its two ways. -/
theorem Primary.read_eq_ok {t : Tree} :
    read operand s = .ok (t, rest) ↔ IsRead operand s t rest := by
  constructor
  · intro h
    obtain ⟨next, _, hpeek, h⟩ := Parser.bind_eq_ok.1 h
    obtain ⟨hscan, rfl⟩ := Parser.peek_eq_ok.1 hpeek
    cases hform : of? next with
    | none =>
      rw [hform] at h
      cases h
    | some form =>
      rw [hform] at h
      cases form with
      | leaf kind =>
        cases h
        exact .leaf hscan hform
      | node kind parts =>
        obtain ⟨ts, _, hparts, h⟩ := Parser.bind_eq_ok.1 h
        obtain ⟨rfl, rfl⟩ := Parser.pure_eq_ok.1 h
        exact .node hscan hform hparts
  · rintro (⟨hscan, hform⟩ | ⟨hscan, hform, hparts⟩)
    · exact read_leaf hscan hform
    · exact read_node hscan hform hparts

/-- How the next tail is looked for behind an expression: there is none, or it is read part by
part. -/
inductive Tail.IsRead (operand : Extent → Parser Tree) (extent : Extent) (s : Input) :
    Option (Tail Tree) → Input → Prop
  | none {next : Token} (hscan : Token.scan (mode extent) s = .ok next)
    (hnone : next? extent next = .none) : IsRead operand extent s .none s
  | some {next : Token} {form : Tail Part} {more : List Tree} {rest : Input}
    (hscan : Token.scan (mode extent) s = .ok next) (hnext : next? extent next = .some form)
    (hmore : Part.readAll operand form.more s = .ok (more, rest)) :
    IsRead operand extent s (.some ⟨form.kind, form.slot, more⟩) rest

/-- A tail is looked for in one of the two ways. -/
theorem Tail.read_eq_ok {tail : Option (Tail Tree)} :
    read operand extent s = .ok (tail, rest) ↔ IsRead operand extent s tail rest := by
  constructor
  · intro h
    obtain ⟨next, _, hpeek, h⟩ := Parser.bind_eq_ok.1 h
    obtain ⟨hscan, rfl⟩ := Parser.peek_eq_ok.1 hpeek
    rw [show (if admits extent next then of? next else .none) = next? extent next from rfl] at h
    cases hnext : next? extent next with
    | none =>
      rw [hnext] at h
      obtain ⟨rfl, rfl⟩ := Parser.pure_eq_ok.1 h
      exact .none hscan hnext
    | some form =>
      rw [hnext] at h
      obtain ⟨more, _, hmore, h⟩ := Parser.bind_eq_ok.1 h
      obtain ⟨rfl, rfl⟩ := Parser.pure_eq_ok.1 h
      exact .some hscan hnext hmore
  · rintro (⟨hscan, hnone⟩ | ⟨hscan, hnext, hmore⟩)
    · exact read_none hscan hnone
    · obtain ⟨hadmits, hof⟩ := of?_of_next? hnext
      exact read_some hscan hadmits hof hmore

/-- An expression: a primary and the tails after it. -/
theorem expression_of_tails {depth : Nat} {head : Tree} {tails : List (Tail Tree)}
    (hhead : Primary.read (expression depth) s = .ok (head, s'))
    (htails : Parser.many (Tail.read (expression depth) extent) s' = .ok (tails, rest)) :
    expression (depth + 1) extent s = .ok (tails.foldl Tail.attach head, rest) := by
  rw [expression, Parser.bind_of_ok hhead, Parser.bind_of_ok htails]
  rfl

/-- An expression was read as a primary and the tails after it. -/
theorem exists_of_expression {depth : Nat} {t : Tree}
    (h : expression (depth + 1) extent s = .ok (t, rest)) :
    ∃ head s' tails, Primary.read (expression depth) s = .ok (head, s') ∧
      Parser.many (Tail.read (expression depth) extent) s' = .ok (tails, rest) ∧
        t = tails.foldl Tail.attach head := by
  obtain ⟨head, s', hhead, h⟩ := Parser.bind_eq_ok.1 h
  obtain ⟨tails, _, htails, h⟩ := Parser.bind_eq_ok.1 h
  obtain ⟨rfl, rfl⟩ := Parser.pure_eq_ok.1 h
  exact ⟨head, s', tails, hhead, htails, rfl⟩

end Expressions

end Stencil
