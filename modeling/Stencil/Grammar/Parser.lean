import Stencil.Token.Scan

/-!
# Parsers

A parser reads from what is left of the input and either answers a value and what is left after
it, or fails. A failure keeps where the reading had stopped, because that is where a reader that
recovers looks for the next item.
-/

namespace Stencil

/-- Why and where a parser gave up. -/
structure Failure extends Fault where
  /-- What was left to read when the parser gave up: the fault may lie ahead of it. -/
  stopped : Input
deriving DecidableEq, Repr

/-- Running out of input inside an opener is reported as the opener not being closed: every
unexpected token at the end of the input becomes an unterminated delimiter at `opener`. -/
def Failure.inside (opener : Input) (failure : Failure) : Failure :=
  match failure.cause, failure.found with
  | .unexpectedToken _, [] => ⟨⟨.unterminatedDelimiter, opener⟩, failure.stopped⟩
  | _, _ => failure

/-- A parser of values of type `α`. -/
abbrev Parser := StateT Input (Except Failure)

namespace Parser

/-- A parser that goes on after another succeeds where both do. -/
theorem bind_eq_ok {α β : Type} {p : Parser α} {f : α → Parser β} {s rest : Input} {b : β} :
    (p >>= f) s = .ok (b, rest) ↔ ∃ a s', p s = .ok (a, s') ∧ f a s' = .ok (b, rest) := by
  show (StateT.bind p f) s = _ ↔ _
  unfold StateT.bind
  cases p s with
  | error e => simp [bind, Except.bind]
  | ok x =>
    constructor
    · exact fun h => ⟨x.1, x.2, rfl, h⟩
    · rintro ⟨a, s', h, h'⟩
      cases h
      exact h'

/-- A parser that answers a value reads nothing. -/
theorem pure_eq_ok {α : Type} {a b : α} {s rest : Input} :
    (pure a : Parser α) s = .ok (b, rest) ↔ a = b ∧ s = rest := by
  show Except.ok (a, s) = _ ↔ _
  simp

/-- A parser that goes on after another fails where the first one does, or else where the other one
does. -/
theorem bind_eq_error {α β : Type} {p : Parser α} {f : α → Parser β} {s : Input} {e : Failure} :
    (p >>= f) s = .error e ↔ p s = .error e ∨ ∃ a s', p s = .ok (a, s') ∧ f a s' = .error e := by
  show (StateT.bind p f) s = _ ↔ _
  unfold StateT.bind
  cases p s with
  | error e' => simp [bind, Except.bind]
  | ok x =>
    constructor
    · exact fun h => .inr ⟨x.1, x.2, rfl, h⟩
    · rintro (h | ⟨a, s', h, h'⟩)
      · cases h
      · cases h
        exact h'

/-- Fails with a cause at the place where `found` is left to read. -/
def fail {α : Type} (cause : Cause) (found : Input) : Parser α :=
  fun s => .error ⟨⟨cause, found⟩, s⟩

/-- The next token in a mode, which is not read yet. -/
def peek (mode : Mode) : Parser Token := fun s =>
  match Token.scan mode s with
  | .ok t => .ok (t, s)
  | .error fault => .error ⟨fault, s⟩

/-- Looking at a token reads nothing. -/
theorem peek_eq_ok {mode : Mode} {s rest : Input} {t : Token} :
    peek mode s = .ok (t, rest) ↔ Token.scan mode s = .ok t ∧ s = rest := by
  unfold peek
  split <;> simp_all

/-- Looking at a token fails where there is none. -/
theorem peek_eq_error {mode : Mode} {s : Input} {e : Failure} :
    peek mode s = .error e ↔ ∃ fault, Token.scan mode s = .error fault ∧ e = ⟨fault, s⟩ := by
  unfold peek
  cases Token.scan mode s <;> simp [eq_comm]

/-- Goes on after a token. -/
def skip (t : Token) : Parser Unit := fun _ => .ok ((), t.rest)

/-- Reads inside an opener. -/
def inside {α : Type} (opener : Input) (p : Parser α) : Parser α := fun s =>
  (p s).mapError (Failure.inside opener)

/-- A parser inside an opener succeeds where it does without. -/
theorem inside_eq_ok {α : Type} {opener s rest : Input} {p : Parser α} {a : α} :
    inside opener p s = .ok (a, rest) ↔ p s = .ok (a, rest) := by
  show (p s).mapError (Failure.inside opener) = _ ↔ _
  cases p s with
  | error failure => exact ⟨nofun, nofun⟩
  | ok x => exact Iff.rfl

/-- A parser inside an opener fails where it does without, and the failure is seen from the
opener. -/
theorem inside_eq_error {α : Type} {opener s : Input} {p : Parser α} {e : Failure} :
    inside opener p s = .error e ↔ ∃ f, p s = .error f ∧ e = f.inside opener := by
  show (p s).mapError (Failure.inside opener) = _ ↔ _
  cases p s with
  | error failure =>
    show Except.error (failure.inside opener) = .error e ↔ _
    simp [eq_comm]
  | ok x => exact ⟨nofun, nofun⟩

/-- Reads rounds until one answers nothing, and collects what they answer. A round that reads no
character would repeat forever and is therefore the last one. -/
def many {α : Type} (round : Parser (Option α)) : Parser (List α) := fun s =>
  match round s with
  | .error failure => .error failure
  | .ok (none, rest) => .ok ([], rest)
  | .ok (some a, rest) =>
    if rest.length < s.length then
      match many round rest with
      | .error failure => .error failure
      | .ok (as, stop) => .ok (a :: as, stop)
    else .ok ([a], rest)
termination_by s => s.length

/-- What the rounds read, in a row, is what is read of the input, if that is so for each round. -/
theorem many_append {α : Type} {round : Parser (Option α)} (text : α → List Char)
    (hr : ∀ {s a rest}, round s = .ok (a, rest) → a.elim [] text ++ rest = s)
    {s rest : Input} {as : List α} (h : many round s = .ok (as, rest)) :
    as.flatMap text ++ rest = s := by
  fun_induction many round s generalizing as rest with
  | case1 | case3 => cases h
  | case2 s r hround =>
    cases h
    exact hr hround
  | case4 s a r hround _ bs stop hmore ih =>
    -- The first round, and the rounds after it.
    cases h
    have hfirst := hr hround
    have hmore := ih hmore
    simp_all
  | case5 s a r hround =>
    -- A round that reads no character is the last one, and what it answers is kept.
    cases h
    simpa using hr hround

/-- What rounds answer is what one of them answers. -/
theorem many_mem {α : Type} {round : Parser (Option α)} {s rest : Input} {as : List α}
    (h : many round s = .ok (as, rest)) : ∀ a ∈ as, ∃ s' rest', round s' = .ok (some a, rest') := by
  fun_induction many round s generalizing as rest with
  | case1 | case3 => cases h
  | case2 =>
    cases h
    simp
  | case4 s a r hround _ bs stop hmore ih =>
    cases h
    intro b hb
    rcases List.mem_cons.1 hb with rfl | hb
    · exact ⟨s, r, hround⟩
    · exact ih hmore b hb
  | case5 s a r hround =>
    cases h
    intro b hb
    obtain rfl := List.mem_singleton.1 hb
    exact ⟨s, r, hround⟩

/-- What each round keeps holds where the rounds end, if it holds where they begin. -/
theorem many_rest {α : Type} {round : Parser (Option α)} (holds : Input → Prop)
    (hr : ∀ {s a rest}, holds s → round s = .ok (a, rest) → holds rest)
    {s rest : Input} {as : List α} (hs : holds s) (h : many round s = .ok (as, rest)) :
    holds rest := by
  fun_induction many round s generalizing as rest with
  | case1 | case3 => cases h
  | case2 s r hround | case5 s a r hround =>
    cases h
    exact hr hs hround
  | case4 s a r hround _ bs stop hmore ih =>
    cases h
    exact ih (hr hs hround) hmore

/-- Rounds fail where one of them does, at a place that what holds of the beginning holds of too, if
each round keeps it. -/
theorem many_eq_error {α : Type} {round : Parser (Option α)} (holds : Input → Prop)
    (hr : ∀ {s a rest}, holds s → round s = .ok (a, rest) → holds rest)
    {s : Input} {e : Failure} (hs : holds s) (h : many round s = .error e) :
    ∃ s', holds s' ∧ round s' = .error e := by
  fun_induction many round s with
  | case1 s f hround =>
    cases h
    exact ⟨s, hs, hround⟩
  | case2 | case4 | case5 => cases h
  | case3 s a rest hround _ f hmore ih =>
    cases h
    exact ih (hr hs hround) hmore

end Parser

end Stencil
