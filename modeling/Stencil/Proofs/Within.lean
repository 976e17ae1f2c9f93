import Stencil.Proofs.Lossless

/-!
# Where parsers stop

A parser looks ahead but never goes back: what it leaves to read when it succeeds, and what was
left to read when it gave up, are ends of its input. A reader that recovers relies on the second
half, since it looks for the next item from where the failed parser stopped. The main statements
are `Part.read_within` for productions and `expression_within` for expressions of every depth.
-/

namespace Stencil

namespace Parser

/-- What is left after a parser, and where it stops if it fails, are ends of its input. -/
def Within {α : Type} (p : Parser α) : Prop :=
  ∀ s, match p s with
    | .ok (_, rest) => rest <:+ s
    | .error failure => failure.stopped <:+ s

/-- What is left after a parser is an end of the input. -/
theorem Within.rest {α : Type} {p : Parser α} {s rest : Input} {a : α} (hp : p.Within)
    (h : p s = .ok (a, rest)) : rest <:+ s := by
  simpa [h] using hp s

/-- A parser that fails stops at an end of the input. -/
theorem Within.stopped {α : Type} {p : Parser α} {s : Input} {failure : Failure} (hp : p.Within)
    (h : p s = .error failure) : failure.stopped <:+ s := by
  simpa [h] using hp s

/-- A parser is within its input if both its outcomes are. -/
theorem Within.intro {α : Type} {p : Parser α}
    (hok : ∀ {s a rest}, p s = .ok (a, rest) → rest <:+ s)
    (herror : ∀ {s failure}, p s = .error failure → failure.stopped <:+ s) : p.Within := by
  intro s
  split
  · exact hok ‹_›
  · exact herror ‹_›

/-- A parser that goes on after another is within its input if both are. -/
theorem Within.bind {α β : Type} {p : Parser α} {f : α → Parser β} (hp : p.Within)
    (hf : ∀ a, (f a).Within) : (p >>= f).Within := by
  apply Within.intro
  · intro s b rest h
    obtain ⟨a, s', h₁, h₂⟩ := bind_eq_ok.1 h
    exact ((hf a).rest h₂).trans (hp.rest h₁)
  · intro s failure h
    rcases bind_eq_error.1 h with h | ⟨a, s', h₁, h₂⟩
    · exact hp.stopped h
    · exact ((hf a).stopped h₂).trans (hp.rest h₁)

/-- A parser that answers a value leaves its input as it is. -/
theorem Within.pure {α : Type} (a : α) : (pure a : Parser α).Within :=
  fun s => List.suffix_refl s

/-- A parser that fails at once stops where it is. -/
theorem Within.fail {α : Type} (cause : Cause) (found : Input) :
    (fail cause found : Parser α).Within :=
  fun s => List.suffix_refl s

/-- Looking at a token leaves the input as it is. -/
theorem Within.peek (mode : Mode) : (peek mode).Within := by
  apply Within.intro
  · intro s t rest h
    obtain ⟨_, rfl⟩ := peek_eq_ok.1 h
    exact List.suffix_refl s
  · intro s failure h
    obtain ⟨fault, _, rfl⟩ := peek_eq_error.1 h
    exact List.suffix_refl s

/-- A parser inside an opener stops where it does without. -/
theorem Within.inside {α : Type} {p : Parser α} (opener : Input) (hp : p.Within) :
    (inside opener p).Within := by
  apply Within.intro
  · intro s a rest h
    exact hp.rest (inside_eq_ok.1 h)
  · intro s failure h
    obtain ⟨f, hf, rfl⟩ := inside_eq_error.1 h
    have hstopped : (f.inside opener).stopped = f.stopped := by
      unfold Failure.inside
      split <;> rfl
    rw [hstopped]
    exact hp.stopped hf

/-- Rounds are within their input if each of them is. -/
theorem Within.many {α : Type} {round : Parser (Option α)} (hr : round.Within) :
    (many round).Within := by
  have hkeep : ∀ {s s' a rest}, s' <:+ s → round s' = .ok (a, rest) → rest <:+ s :=
    fun hs h => (hr.rest h).trans hs
  apply Within.intro
  · intro s as rest h
    exact many_rest (· <:+ s) hkeep (List.suffix_refl s) h
  · intro s failure h
    obtain ⟨s', hs', hround⟩ := many_eq_error (· <:+ s) hkeep (List.suffix_refl s) h
    exact (hr.stopped hround).trans hs'

end Parser

open Stencil.Parser (Within)

/-! ## Productions -/

/-- A token is read within the input. -/
theorem Terminal.read_within (t : Terminal) : t.read.Within := by
  apply Within.intro
  · intro s leaf rest h
    exact ⟨leaf.source, Terminal.read_append h⟩
  · intro s failure h
    rcases Parser.bind_eq_error.1 h with h | ⟨next, s', h₁, h₂⟩
    · exact (Within.peek _).stopped h
    · obtain ⟨_, rfl⟩ := Parser.peek_eq_ok.1 h₁
      cases htake : t.pattern.take? next with
      | none =>
        rw [htake] at h₂
        exact (Within.fail _ _).stopped h₂
      | some token =>
        rw [htake] at h₂
        rcases Parser.bind_eq_error.1 h₂ with h | ⟨_, _, _, h⟩ <;> cases h

/-- Looking leaves the input as it is. -/
theorem Look.holds_within (look : Look) : look.holds.Within := by
  cases look with
  | next mode pattern => exact (Within.peek mode).bind fun _ => Within.pure _
  | named => exact fun s => List.suffix_refl s

namespace Part

mutual

/-- A part is read within the input, if operands are. -/
theorem read_within {operand : Extent → Parser Tree} (ho : ∀ extent, (operand extent).Within) :
    ∀ p : Part, (p.read operand).Within
  | token t => t.read_within.bind fun _ => Within.pure _
  | .operand _ extent => (ho extent).bind fun _ => Within.pure _
  | callee => (ho .whole).bind fun _ => Within.pure _
  | node _ _ parts => (readAll_within ho parts).bind fun _ => Within.pure _
  | enclosed _ _ opening parts => by
    refine (Within.peek _).bind fun next => opening.read_within.bind fun first => ?_
    exact ((readAll_within ho parts).inside next.start).bind fun _ => Within.pure _
  | choice look yes no => by
    refine look.holds_within.bind fun found => ?_
    cases found with
    | true => exact readAll_within ho yes
    | false => exact readAll_within ho no
  | repeated look parts => by
    refine (Within.many ?_).bind fun _ => Within.pure _
    refine look.holds_within.bind fun found => ?_
    cases found with
    | true => exact (readAll_within ho parts).bind fun _ => Within.pure _
    | false => exact Within.pure _
  | refuse cause => (Within.peek _).bind fun next => Within.fail cause next.start

/-- A production is read within the input, if operands are. -/
theorem readAll_within {operand : Extent → Parser Tree} (ho : ∀ extent, (operand extent).Within) :
    ∀ ps : List Part, (readAll operand ps).Within
  | [] => Within.pure _
  | p :: ps =>
    (read_within ho p).bind fun _ => (readAll_within ho ps).bind fun _ => Within.pure _

end

end Part

/-! ## Expressions -/

/-- A primary is read within the input, if operands are. -/
theorem Primary.read_within {operand : Extent → Parser Tree}
    (ho : ∀ extent {s t rest}, operand extent s = .ok (t, rest) → t.source ++ rest = s)
    (hw : ∀ extent, (operand extent).Within) : (Primary.read operand).Within := by
  apply Within.intro
  · intro s t rest h
    exact ⟨t.source, Primary.read_append (fun h => ho _ h) h⟩
  · intro s failure h
    rcases Parser.bind_eq_error.1 h with h | ⟨next, _, hpeek, h⟩
    · exact (Within.peek _).stopped h
    · obtain ⟨_, rfl⟩ := Parser.peek_eq_ok.1 hpeek
      cases hform : Primary.of? next with
      | none =>
        rw [hform] at h
        exact (Within.fail _ _).stopped h
      | some form =>
        rw [hform] at h
        cases form with
        | leaf kind =>
          -- Going on after a token that is known does not fail.
          rcases Parser.bind_eq_error.1 h with h | ⟨_, _, _, h⟩ <;> cases h
        | node kind parts =>
          exact ((Part.readAll_within hw parts).bind fun _ => Within.pure _).stopped h

/-- A tail is read within the input, if operands are. -/
theorem Tail.read_within {operand : Extent → Parser Tree} (extent : Extent)
    (hw : ∀ extent, (operand extent).Within) : (Tail.read operand extent).Within := by
  refine (Within.peek _).bind fun next => ?_
  cases if admits extent next then of? next else none with
  | none => exact Within.pure _
  | some tail => exact (Part.readAll_within hw tail.more).bind fun _ => Within.pure _

/-- An expression is read within the input. -/
theorem expression_within (depth : Nat) (extent : Extent) : (expression depth extent).Within := by
  induction depth generalizing extent with
  | zero => exact fun s => List.suffix_refl s
  | succ depth ih =>
    have hhead := Primary.read_within (fun _ _ _ _ h => expression_append depth h) ih
    have htails := Within.many (Tail.read_within extent ih)
    exact hhead.bind fun _ => htails.bind fun _ => Within.pure _

end Stencil
