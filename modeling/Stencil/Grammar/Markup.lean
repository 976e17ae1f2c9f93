import Stencil.Grammar.Statement
import Stencil.Journal

/-!
# Markup

Items are what a template and the body of an element are sequences of: text, values, statements,
comments and elements. Reading an item also writes the journal, which is kept when the item turns
out to be malformed; `settle` then puts an error in place of the item, and reading goes on at the
next place where an item may begin.
-/

namespace Stencil

/-- What comes of reading. -/
structure Reply (α : Type) where
  /-- What was noted. -/
  events : List Event
  /-- The value and what is left to read after it, or the failure. -/
  result : Except Failure (α × Input)

/-- Reading that keeps a journal. What was noted stands even if the reading fails. -/
def Reading (α : Type) := Input → Reply α

namespace Reading

instance : Monad Reading where
  pure a := fun s => ⟨[], .ok (a, s)⟩
  bind x f := fun s =>
    let r := x s
    match r.result with
    | .ok (a, rest) =>
      let more := f a rest
      ⟨r.events ++ more.events, more.result⟩
    | .error failure => ⟨r.events, .error failure⟩

/-- What comes of reading, without what was noted. -/
def parser {α : Type} (x : Reading α) : Parser α := fun s => (x s).result

/-- What is left to read here. -/
def here : Reading Input := fun s => ⟨[], .ok (s, s)⟩

/-- Reading that notes nothing. -/
def quiet {α : Type} (p : Parser α) : Reading α := fun s => ⟨[], p s⟩

/-- Reads inside an opener. -/
def inside {α : Type} (opener : Input) (x : Reading α) : Reading α := fun s =>
  let r := x s
  ⟨r.events, r.result.mapError (Failure.inside opener)⟩

/-- Reading that answers a value does what the parser does. -/
@[simp]
theorem parser_pure {α : Type} (a : α) : (pure a : Reading α).parser = pure a := rfl

/-- Reading that goes on does what the parsers do. -/
@[simp]
theorem parser_bind {α β : Type} (x : Reading α) (f : α → Reading β) :
    (x >>= f).parser = x.parser >>= fun a => (f a).parser := by
  funext s
  show ((x >>= f) s).result = StateT.bind x.parser (fun a => (f a).parser) s
  unfold StateT.bind
  simp only [bind, parser]
  cases (x s).result with
  | error failure => rfl
  | ok a => rfl

/-- Reading that notes nothing does what the parser does. -/
@[simp]
theorem parser_quiet {α : Type} (p : Parser α) : (quiet p).parser = p := rfl

/-- Reading inside an opener does what the parser does inside it. -/
@[simp]
theorem parser_inside {α : Type} (opener : Input) (x : Reading α) :
    (inside opener x).parser = Parser.inside opener x.parser := rfl

/-- What is left is what there is. -/
theorem parser_here_eq_ok {s s' rest : Input} :
    here.parser s = .ok (s', rest) ↔ s' = s ∧ rest = s := by
  show Except.ok (s, s) = _ ↔ _
  constructor
  · intro h
    cases h
    exact ⟨rfl, rfl⟩
  · rintro ⟨rfl, rfl⟩
    rfl

/-- Reading that answers a row of one tree succeeds where it does without the row. -/
theorem parser_single_eq_ok {x : Reading Tree} {s rest : Input} {ts : List Tree} :
    (x >>= fun t => pure [t]).parser s = .ok (ts, rest) ↔
      ∃ t, x.parser s = .ok (t, rest) ∧ ts = [t] := by
  simp only [parser_bind, parser_pure, Parser.bind_eq_ok, Parser.pure_eq_ok]
  constructor
  · rintro ⟨t, _, ht, rfl, rfl⟩
    exact ⟨t, ht, rfl⟩
  · rintro ⟨t, ht, rfl⟩
    exact ⟨t, rest, ht, rfl, rfl⟩

/-- Reading that answers a row of one tree fails where it does without the row. -/
theorem parser_single_eq_error {x : Reading Tree} {s : Input} {e : Failure} :
    (x >>= fun t => pure [t]).parser s = .error e ↔ x.parser s = .error e := by
  rw [parser_bind, Parser.bind_eq_error]
  refine ⟨fun h => ?_, .inl⟩
  rcases h with h | ⟨_, _, _, h⟩
  · exact h
  · cases h

/-- Reading that goes on notes what its first half notes, and what its second half notes if the
first half succeeds. -/
theorem events_bind {α β : Type} (x : Reading α) (f : α → Reading β) (s : Input) :
    ((x >>= f) s).events = (x s).events ++
      match (x s).result with
      | .ok (a, rest) => (f a rest).events
      | .error _ => [] := by
  simp only [bind]
  cases (x s).result <;> simp

end Reading

/-- A part of the template that is done with. -/
structure Step where
  /-- The trees that were read. -/
  trees : List Tree
  /-- What was noted. -/
  events : List Event
  /-- What is left to read. -/
  rest : Input

/-- Where reading goes on after the item at `s` failed: at the next opener after the beginning of
the item that the failed parser had not passed yet. -/
def Failure.resume (s : Input) (failure : Failure) : Input :=
  let start := if failure.stopped.length < s.length then failure.stopped else s.tail
  (splitBefore atOpener start).2

/-- What becomes of the item at `s`. A malformed item is skipped and an error stands for it: up to
where reading resumes if the reader recovers, and else to the end of the input. -/
def Reply.settle (recover : Bool) (s : Input) (reply : Reply (List Tree)) : Step :=
  match reply.result with
  | .ok (trees, rest) => ⟨trees, reply.events, rest⟩
  | .error failure =>
    -- A reader that does not recover gives up what is left.
    let rest := if recover then failure.resume s else []
    let skipped := s.take (s.length - rest.length)
    ⟨[.leaf none .error [] skipped],
      reply.events ++ [.skipped failure.toFault ⟨s, skipped⟩], rest⟩

/-- Reads an item, or what stands for it if it is malformed. -/
def Reading.recovering (item : Reading (List Tree)) : Reading (List Tree) := fun s =>
  let step := (item s).settle true s
  ⟨step.events, .ok (step.trees, step.rest)⟩

namespace Markup

/-! ## Comments and raw blocks -/

/-- Reads a comment, whose opener comes next. Its first token is noted. -/
def comment : Reading Tree := fun s =>
  let opener := Token.scanText s
  let first := Token.scanComment opener.rest
  let (content, last) :=
    if first.kind = .commentContent then
      ([first.leaf (some .content) .commentContent], Token.scanComment first.rest)
    else ([], first)
  { events := [.comment ⟨opener.rest, first.text⟩]
    result :=
      if last.kind = .commentClose then
        .ok (.node none .comment
          (opener.leaf (some .openDelimiter) .delimiter :: content
            ++ [last.leaf (some .closeDelimiter) .delimiter]), last.rest)
      else .error ⟨⟨.unterminatedDelimiter, s⟩, last.rest⟩ }

/-- What is left after a token of text is an end of the input. -/
theorem rest_scanText_suffix (s : Input) : (Token.scanText s).rest <:+ s :=
  ⟨(Token.scanText s).text, Token.scanText_start s⟩

/-- What is left after a token of a comment is an end of the input. -/
theorem rest_scanComment_suffix (s : Input) : (Token.scanComment s).rest <:+ s :=
  ⟨(Token.scanComment s).text, Token.scanComment_start s⟩

/-- A comment that is read, and what is left after it: its content, unless there is none, stands
between its delimiters. -/
inductive CommentTree (s : Input) : Tree → Input → Prop
  /-- The comment ends right behind its opener. -/
  | empty {opener last : Token} (hopener : Token.scanText s = opener)
    (hlast : Token.scanComment opener.rest = last) (hclose : last.kind = .commentClose) :
    CommentTree s (.node none .comment [opener.leaf (some .openDelimiter) .delimiter,
      last.leaf (some .closeDelimiter) .delimiter]) last.rest
  /-- There is content before the end. -/
  | filled {opener content last : Token} (hopener : Token.scanText s = opener)
    (hcontent : Token.scanComment opener.rest = content) (hkind : content.kind = .commentContent)
    (hlast : Token.scanComment content.rest = last) (hclose : last.kind = .commentClose) :
    CommentTree s (.node none .comment [opener.leaf (some .openDelimiter) .delimiter,
      content.leaf (some .content) .commentContent,
      last.leaf (some .closeDelimiter) .delimiter]) last.rest

/-- What is read of a comment is one. -/
theorem commentTree_of_comment {s rest : Input} {t : Tree} (h : comment.parser s = .ok (t, rest)) :
    CommentTree s t rest := by
  simp only [Reading.parser, comment] at h
  by_cases hcontent : (Token.scanComment (Token.scanText s).rest).kind = .commentContent
  · simp only [if_pos hcontent] at h
    split at h
    · rename_i hclose
      cases h
      exact .filled rfl rfl hcontent rfl hclose
    · cases h
  · simp only [if_neg hcontent] at h
    split at h
    · rename_i hclose
      cases h
      exact .empty rfl rfl hclose
    · cases h

/-- A comment that fails is not matched, and reading stops behind its opener. -/
theorem comment_eq_error {s : Input} {e : Failure} (h : comment.parser s = .error e) :
    ∃ stopped, stopped <:+ (Token.scanText s).rest ∧
      e = ⟨⟨.unterminatedDelimiter, s⟩, stopped⟩ := by
  have hfirst := rest_scanComment_suffix (Token.scanText s).rest
  have hlast := rest_scanComment_suffix (Token.scanComment (Token.scanText s).rest).rest
  simp only [Reading.parser, comment] at h
  repeat' split at h
  all_goals cases h
  · exact ⟨_, hlast.trans hfirst, rfl⟩
  · exact ⟨_, hfirst, rfl⟩

/-- Reads the body of a raw block that `opener` began. An empty body is no node. -/
def rawBody (opener : Input) : Reading (List Tree) := fun s =>
  let body := Token.scanRaw s
  let event := Event.raw ⟨s, body.text⟩
  -- Only the statement that ends the block stops the body before the end of the input.
  match body.rest with
  | [] => ⟨[event], .error ⟨⟨.unterminatedDelimiter, opener⟩, []⟩⟩
  | rest => ⟨[event], .ok (if body.text = [] then [] else [body.leaf none .text], rest)⟩

/-- The body of a raw block ends before the input does, and is text if it is not empty. -/
theorem rawBody_result (opener s : Input) :
    (rawBody opener s).result =
      if (Token.scanRaw s).rest = [] then .error ⟨⟨.unterminatedDelimiter, opener⟩, []⟩
      else .ok (if (Token.scanRaw s).text = [] then [] else [(Token.scanRaw s).leaf none .text],
        (Token.scanRaw s).rest) := by
  rw [rawBody]
  cases h : (Token.scanRaw s).rest with
  | nil => rfl
  | cons c rest => rfl

/-- The body of a raw block is its text, unless that is empty, if something is left behind it. -/
theorem rawBody_eq_ok {opener s rest : Input} {ts : List Tree} :
    (rawBody opener).parser s = .ok (ts, rest) ↔
      rest ≠ [] ∧ rest = (Token.scanRaw s).rest ∧
        ts = if (Token.scanRaw s).text = [] then [] else [(Token.scanRaw s).leaf none .text] := by
  rw [Reading.parser, rawBody_result]
  constructor
  · intro h
    split at h
    · cases h
    · rename_i hrest
      cases h
      exact ⟨hrest, rfl, rfl⟩
  · rintro ⟨hrest, rfl, rfl⟩
    rw [if_neg hrest]

/-- The body of a raw block fails if nothing is left behind it. -/
theorem rawBody_eq_error {opener s : Input} {e : Failure}
    (h : (rawBody opener).parser s = .error e) : e = ⟨⟨.unterminatedDelimiter, opener⟩, []⟩ := by
  rw [Reading.parser, rawBody_result] at h
  split at h
  · cases h
    rfl
  · cases h

/-- Whether some trees are a statement that begins a raw block. -/
def opensRaw (ts : List Tree) : Bool :=
  ts.any fun t => t.children.any fun body => body.kind = .rawStatement

/-- Reads a statement, and the body of the raw block that it may begin. -/
def statement (operand : Extent → Parser Tree) : Reading (List Tree) := do
  let opener ← Reading.here
  let ts ← Reading.quiet (Part.statement.read operand)
  if opensRaw ts then
    let body ← rawBody opener
    return ts ++ body
  else return ts

/-- A statement is read as its production says, and the body of the raw block that it may begin is
read behind it. -/
theorem statement_eq_ok {operand : Extent → Parser Tree} {s rest : Input} {ts : List Tree} :
    (statement operand).parser s = .ok (ts, rest) ↔
      ∃ read s', Part.statement.read operand s = .ok (read, s') ∧
        (opensRaw read = false ∧ ts = read ∧ rest = s' ∨
          opensRaw read = true ∧
            ∃ body, (rawBody s).parser s' = .ok (body, rest) ∧ ts = read ++ body) := by
  simp only [statement, Reading.parser_bind, Reading.parser_quiet, Parser.bind_eq_ok,
    Reading.parser_here_eq_ok]
  constructor
  · rintro ⟨_, _, ⟨rfl, rfl⟩, read, s', hread, h⟩
    refine ⟨read, s', hread, ?_⟩
    cases hraw : opensRaw read with
    | false =>
      rw [hraw, if_neg Bool.false_ne_true] at h
      obtain ⟨rfl, rfl⟩ := Parser.pure_eq_ok.1 h
      exact .inl ⟨rfl, rfl, rfl⟩
    | true =>
      rw [hraw, if_pos rfl, Reading.parser_bind] at h
      obtain ⟨body, _, hbody, h⟩ := Parser.bind_eq_ok.1 h
      obtain ⟨rfl, rfl⟩ := Parser.pure_eq_ok.1 h
      exact .inr ⟨rfl, body, hbody, rfl⟩
  · rintro ⟨read, s', hread, h⟩
    refine ⟨_, _, ⟨rfl, rfl⟩, read, s', hread, ?_⟩
    obtain ⟨hraw, rfl, rfl⟩ | ⟨hraw, body, hbody, rfl⟩ := h
    · rw [hraw]
      rfl
    · rw [hraw, if_pos rfl, Reading.parser_bind]
      exact Parser.bind_eq_ok.2 ⟨body, rest, hbody, rfl⟩

/-- A statement fails as its production does, or in the body of the raw block that it begins. -/
theorem statement_eq_error {operand : Extent → Parser Tree} {s : Input} {e : Failure}
    (h : (statement operand).parser s = .error e) :
    Part.statement.read operand s = .error e ∨
      ∃ read s', Part.statement.read operand s = .ok (read, s') ∧
        (rawBody s).parser s' = .error e := by
  simp only [statement, Reading.parser_bind, Reading.parser_quiet] at h
  rcases Parser.bind_eq_error.1 h with h | ⟨opener, _, hhere, hstatement⟩
  · cases h
  obtain ⟨rfl, rfl⟩ := Reading.parser_here_eq_ok.1 hhere
  rcases Parser.bind_eq_error.1 hstatement with h | ⟨read, s', hread, h⟩
  · exact .inl h
  · split at h
    · rw [Reading.parser_bind] at h
      rcases Parser.bind_eq_error.1 h with h | ⟨_, _, _, h⟩
      · exact .inr ⟨read, s', hread, h⟩
      · cases h
    · cases h

/-! ## Elements -/

/-- An attribute of an element: a name, and perhaps a value. That is a string, or a value between
its delimiters. -/
def attributePart : Part :=
  .node none .tagAttribute
    [.token ⟨some .name, .attributeName, .tag, .kind .word, "attribute name"⟩,
      .choice (.next .tag (.kind .assign))
        [.token ⟨none, .punctuation, .tag, .kind .assign, "`=`"⟩,
          .choice (.next .tag (.kind .quoted))
            [.token ⟨some .value, .string, .tag, .kind .quoted, "string literal"⟩]
            [Part.value (some .value) .tag "quoted attribute value or `\x7b\x7b`"]]
        []]

/-- The bracket that opens a tag. -/
def opener : Terminal := ⟨none, .punctuation, .text, .kind .tagOpen, "`<`"⟩

/-- The opening tag after its bracket and up to its attributes. The name touches the bracket. -/
def header : List Part :=
  [.token ⟨some .name, .tagName, .tag, .touching (.kind .word), "tag name"⟩,
    .repeated (.next .tag (.kind .word)) [attributePart]]

/-- The end of the opening tag. -/
def headerEnd : List Part :=
  [.choice (.next .tag (.kind .selfClose))
    [.token ⟨none, .punctuation, .tag, .kind .selfClose, "`/>`"⟩]
    [.token ⟨none, .punctuation, .tag, .kind .tagClose, "attribute, `>` or `/>`"⟩]]

/-- The closing tag. Its name need not be that of the opening tag. -/
def footer : List Part :=
  [.token ⟨none, .punctuation, .text, .kind .endTagOpen, "closing tag"⟩,
    .token ⟨some .closeName, .tagName, .tag, .kind .word, "tag name"⟩,
    .token ⟨none, .punctuation, .tag, .kind .tagClose, "`>`"⟩]

/-- Whether a closing tag begins here. -/
def atFooter : Input → Bool
  | '<' :: '/' :: _ => true
  | _ => false

/-- Reads the items of a body, up to the closing tag. -/
def body (item : Reading (List Tree)) : Reading (List Tree) := fun s =>
  if s = [] then ⟨[], .error ⟨⟨.unexpectedToken "closing tag", []⟩, []⟩⟩
  else if atFooter s then ⟨[], .ok ([], s)⟩
  else
    let first := item s
    match first.result with
    | .error failure => ⟨first.events, .error failure⟩
    | .ok (trees, rest) =>
      if rest.length < s.length then
        let more := body item rest
        ⟨first.events ++ more.events, more.result.map fun (ts, stop) => (trees ++ ts, stop)⟩
      else ⟨first.events, .ok (trees, rest)⟩
termination_by s => s.length

/-- A relation between the beginning of a body, its trees and what is left after it holds of every
body if it holds of no items before a closing tag, goes over from the items behind an item to all of
them, and holds of an item that reads nothing, which is the last one. -/
theorem body_induction {x : Reading (List Tree)} {motive : Input → List Tree → Input → Prop}
    (stop : ∀ s, atFooter s = true → motive s [] s)
    (next : ∀ {s r rest ts others}, s ≠ [] → x.parser s = .ok (ts, r) →
      (body x).parser r = .ok (others, rest) → motive r others rest → motive s (ts ++ others) rest)
    (stuck : ∀ {s r ts}, s ≠ [] → x.parser s = .ok (ts, r) → ¬r.length < s.length → motive s ts r)
    {s rest : Input} {ts : List Tree} (h : (body x).parser s = .ok (ts, rest)) :
    motive s ts rest := by
  simp only [Reading.parser] at h
  fun_induction body x s generalizing ts rest with
  | case1 | case3 => cases h
  | case2 s _ hfooter =>
    cases h
    exact stop s hfooter
  | case4 s hs _ first trees r hfirst _ =>
    rename_i more ih
    cases hmore : more.result with
    | error failure =>
      rw [hmore] at h
      cases h
    | ok a =>
      rw [hmore] at h
      cases h
      exact next hs hfirst hmore (ih hmore)
  | case5 s hs _ first trees r hfirst =>
    rename_i hlt
    cases h
    exact stuck hs hfirst hlt

/-- Reading a body fails because the input ends before a closing tag, or where an item fails, at a
place that what holds of the beginning holds of too, if each item keeps it. -/
theorem body_failure {x : Reading (List Tree)} (holds : Input → Prop)
    (hx : ∀ {s ts rest}, holds s → x.parser s = .ok (ts, rest) → holds rest)
    {s : Input} {e : Failure} (hs : holds s) (h : (body x).parser s = .error e) :
    e = ⟨⟨.unexpectedToken "closing tag", []⟩, []⟩ ∨
      ∃ s', holds s' ∧ s' ≠ [] ∧ x.parser s' = .error e := by
  simp only [Reading.parser] at h
  fun_induction body x s with
  | case1 =>
    cases h
    exact .inl rfl
  | case2 | case5 => cases h
  | case3 s hne _ first f hfirst =>
    cases h
    exact .inr ⟨s, hs, hne, hfirst⟩
  | case4 s _ _ first trees r hfirst _ =>
    rename_i more ih
    cases hmore : more.result with
    | error f =>
      rw [hmore] at h
      cases h
      exact ih (hx hs hfirst) hmore
    | ok a =>
      rw [hmore] at h
      cases h

/-- Reads an element, whose opening bracket comes next. When the input ends inside it, the fault is
that this bracket is not matched. -/
def element (operand : Extent → Parser Tree) (item : Reading (List Tree)) : Reading Tree := do
  let s ← Reading.here
  let first ← Reading.quiet opener.read
  Reading.inside s do
    let tag ← Reading.quiet (Part.readAll operand header)
    let stop ← Reading.quiet (Part.readAll operand headerEnd)
    -- A tag that closes itself has no body and no closing tag.
    if stop.any fun t => t.text = ['/', '>'] then
      return .node none .element (first :: tag ++ stop)
    else
      let items ← body item
      let closing ← Reading.quiet (Part.readAll operand footer)
      return .node none .element (first :: tag ++ stop ++ items ++ closing)

/-- Refuses an element, whose opening bracket comes next, because no more elements may nest. -/
def tooDeep : Reading Tree := do
  let s ← Reading.here
  Reading.quiet do
    let _ ← opener.read
    Parser.fail .nestingTooDeep s

/-! ## Items -/

/-- Reads an item, given how operands and elements are read. -/
def itemOf (operand : Extent → Parser Tree) (element : Reading Tree) :
    Reading (List Tree) := do
  let s ← Reading.here
  let t := Token.scanText s
  match t.kind with
  | .text => Reading.quiet do
    Parser.skip t
    return [t.leaf none .text]
  | .valueOpen => Reading.quiet ((Part.value none .text "`\x7b\x7b`").read operand)
  | .statementOpen => statement operand
  | .commentOpen =>
    let t ← comment
    return [t]
  | .tagOpen =>
    let t ← element
    return [t]
  | _ => Reading.quiet (Parser.fail (.unexpectedToken "text, element or template tag") s)

/-- What an item is, by the token that begins it. -/
theorem itemOf_eq (operand : Extent → Parser Tree) (element : Reading Tree) (s : Input) :
    itemOf operand element s =
      match (Token.scanText s).kind with
      | .text => ⟨[], .ok ([(Token.scanText s).leaf none .text], (Token.scanText s).rest)⟩
      | .valueOpen => Reading.quiet ((Part.value none .text "`\x7b\x7b`").read operand) s
      | .statementOpen => statement operand s
      | .commentOpen => (comment >>= fun t => pure [t]) s
      | .tagOpen => (element >>= fun t => pure [t]) s
      | _ => ⟨[], .error ⟨⟨.unexpectedToken "text, element or template tag", s⟩, s⟩⟩ := by
  show Reply.mk _ _ = _
  dsimp only [Reading.here]
  generalize (Token.scanText s).kind = kind
  cases kind <;> rfl

/-- Reads an item in which elements and operands nest at most `depth` deep. A reader that recovers
does so inside the bodies of elements too; for another one a malformed item in a body makes the
element malformed. -/
def item (recover : Bool) : Nat → Reading (List Tree)
  | 0 => itemOf (expression 0) tooDeep
  | depth + 1 =>
    let inner := item recover depth
    -- Values of attributes stand inside the element, so one level of depth is used up.
    itemOf (expression (depth + 1))
      (element (expression depth) (if recover then inner.recovering else inner))

end Markup

end Stencil
