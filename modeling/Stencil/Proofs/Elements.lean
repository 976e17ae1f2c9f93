import Stencil.Proofs.Malformed

/-!
# How elements end

Reading an element comes out in one of six ways (`Markup.ElementReply`): its bracket is missing, its
tag is malformed, it closes itself, its body fails, its closing tag is malformed, or it is closed.
Only its body writes to the journal, so that each way says what is noted too. Every fact about the
faults that elements report is shown by cases on it.
-/

namespace Stencil

namespace Reading

variable {α β : Type}

/-- Reading that goes on after a success does what its second half does. -/
theorem bind_of_ok {x : Reading α} {f : α → Reading β} {s rest : Input} {a : α}
    (h : (x s).result = .ok (a, rest)) :
    (x >>= f) s = ⟨(x s).events ++ (f a rest).events, (f a rest).result⟩ := by
  simp only [Bind.bind, h]

/-- Reading that goes on after a failure fails. -/
theorem bind_of_error {x : Reading α} {f : α → Reading β} {s : Input} {e : Failure}
    (h : (x s).result = .error e) : (x >>= f) s = ⟨(x s).events, .error e⟩ := by
  simp only [Bind.bind, h]

/-- A parser that succeeds is followed by what goes on after it. -/
theorem quiet_bind_of_ok {p : Parser α} {f : α → Reading β} {s rest : Input} {a : α}
    (h : p s = .ok (a, rest)) : (quiet p >>= f) s = f a rest :=
  bind_of_ok (x := quiet p) h

/-- A parser that fails is followed by nothing. -/
theorem quiet_bind_of_error {p : Parser α} {f : α → Reading β} {s : Input} {e : Failure}
    (h : p s = .error e) : (quiet p >>= f) s = ⟨[], .error e⟩ :=
  bind_of_error (x := quiet p) h

/-- Reading inside an opener notes what it does without, and fails where it does without. -/
theorem inside_eq (opener : Input) (x : Reading α) (s : Input) :
    inside opener x s = ⟨(x s).events, (x s).result.mapError (Failure.inside opener)⟩ := rfl

end Reading

namespace Markup

variable {operand : Extent → Parser Tree}

/-- The opening tag of the element at `s` is read as the trees `tag`, of which those of its end are
`stop`, and `rest` is left after it. -/
def Opened (operand : Extent → Parser Tree) (s : Input) (tag stop : List Tree) (rest : Input) :
    Prop :=
  ∃ first s₁ inner s₂, opener.read s = .ok (first, s₁) ∧
    Part.readAll operand header s₁ = .ok (inner, s₂) ∧
    Part.readAll operand headerEnd s₂ = .ok (stop, rest) ∧ tag = first :: inner ++ stop

/-- How reading the element at `s` comes out. -/
inductive ElementReply (operand : Extent → Parser Tree) (x : Reading (List Tree)) (s : Input) :
    Reply Tree → Prop
  /-- The bracket is missing. -/
  | unopened {e : Failure} (h : opener.read s = .error e) : ElementReply operand x s ⟨[], .error e⟩
  /-- What follows the bracket is no tag. -/
  | malformed {first : Tree} {s₁ : Input} {e : Failure} (hfirst : opener.read s = .ok (first, s₁))
    (h : Part.readAll operand header s₁ = .error e ∨ ∃ inner s₂,
      Part.readAll operand header s₁ = .ok (inner, s₂) ∧
        Part.readAll operand headerEnd s₂ = .error e) :
    ElementReply operand x s ⟨[], .error (e.inside s)⟩
  /-- The tag closes itself. -/
  | selfClosing {tag stop : List Tree} {rest : Input} (htag : Opened operand s tag stop rest) :
    ElementReply operand x s ⟨[], .ok (.node none .element tag, rest)⟩
  /-- The body fails. -/
  | unclosed {tag stop : List Tree} {s' : Input} {e : Failure} (htag : Opened operand s tag stop s')
    (h : (body x).parser s' = .error e) :
    ElementReply operand x s ⟨(body x s').events, .error (e.inside s)⟩
  /-- The closing tag is malformed. -/
  | footer {tag stop items : List Tree} {s' s'' : Input} {e : Failure}
    (htag : Opened operand s tag stop s') (hbody : (body x).parser s' = .ok (items, s''))
    (h : Part.readAll operand footer s'' = .error e) :
    ElementReply operand x s ⟨(body x s').events, .error (e.inside s)⟩
  /-- The element is closed. -/
  | closed {tag stop items closing : List Tree} {s' s'' rest : Input}
    (htag : Opened operand s tag stop s') (hbody : (body x).parser s' = .ok (items, s''))
    (h : Part.readAll operand footer s'' = .ok (closing, rest)) :
    ElementReply operand x s
      ⟨(body x s').events, .ok (.node none .element (tag ++ items ++ closing), rest)⟩

/-- An element is read inside its bracket. -/
theorem element_eq_inside (operand : Extent → Parser Tree) (x : Reading (List Tree)) (s : Input) :
    element operand x s = (Reading.quiet opener.read >>= fun first =>
      Reading.inside s (Reading.quiet (Part.readAll operand header) >>= fun tag =>
        Reading.quiet (Part.readAll operand headerEnd) >>= fun stop =>
          if stop.any fun t => t.text = ['/', '>'] then
            pure (.node none .element (first :: tag ++ stop))
          else body x >>= fun items =>
            Reading.quiet (Part.readAll operand footer) >>= fun closing =>
              pure (.node none .element (first :: tag ++ stop ++ items ++ closing)))) s :=
  Reading.bind_of_ok (x := Reading.here) rfl

/-- Reading an element comes out in one of these ways. -/
theorem element_reply (operand : Extent → Parser Tree) (x : Reading (List Tree)) (s : Input) :
    ElementReply operand x s (element operand x s) := by
  rw [element_eq_inside]
  cases hfirst : opener.read s with
  | error e =>
    rw [Reading.quiet_bind_of_error hfirst]
    exact .unopened hfirst
  | ok r =>
    obtain ⟨first, s₁⟩ := r
    rw [Reading.quiet_bind_of_ok hfirst, Reading.inside_eq]
    cases htag : Part.readAll operand header s₁ with
    | error e =>
      rw [Reading.quiet_bind_of_error htag]
      exact .malformed hfirst (.inl htag)
    | ok r =>
      obtain ⟨inner, s₂⟩ := r
      rw [Reading.quiet_bind_of_ok htag]
      cases hstop : Part.readAll operand headerEnd s₂ with
      | error e =>
        rw [Reading.quiet_bind_of_error hstop]
        exact .malformed hfirst (.inr ⟨inner, s₂, htag, hstop⟩)
      | ok r =>
        obtain ⟨stop, s₃⟩ := r
        have hopened : Opened operand s (first :: inner ++ stop) stop s₃ :=
          ⟨first, s₁, inner, s₂, hfirst, htag, hstop, rfl⟩
        rw [Reading.quiet_bind_of_ok hstop]
        split
        · exact .selfClosing hopened
        · cases hbody : (body x s₃).result with
          | error e =>
            rw [Reading.bind_of_error hbody]
            exact .unclosed hopened hbody
          | ok r =>
            obtain ⟨items, s₄⟩ := r
            rw [Reading.bind_of_ok hbody]
            cases hclosing : Part.readAll operand footer s₄ with
            | error e =>
              rw [Reading.quiet_bind_of_error hclosing, List.append_nil]
              exact .footer hopened hbody hclosing
            | ok r =>
              obtain ⟨closing, rest⟩ := r
              rw [Reading.quiet_bind_of_ok hclosing]
              show ElementReply operand x s ⟨(body x s₃).events ++ [], _⟩
              rw [List.append_nil]
              exact .closed hopened hbody hclosing

/-- An element that is refused is not read. -/
theorem tooDeep_ne_ok {s rest : Input} {t : Tree} : tooDeep.parser s ≠ .ok (t, rest) := by
  intro h
  have heq : tooDeep.parser =
      fun s => (opener.read >>= fun _ => Parser.fail .nestingTooDeep s : Parser Tree) s := rfl
  rw [heq] at h
  obtain ⟨_, _, _, h⟩ := Parser.bind_eq_ok.1 h
  cases h

end Markup

end Stencil
