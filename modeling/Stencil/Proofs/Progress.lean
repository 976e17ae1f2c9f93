import Stencil.Proofs.Descent
import Stencil.Proofs.Grouping

/-!
# Progress

Every item that is read or skipped, every round of a loop and every descent takes a byte of the
source at least. The loops are defined with a test that ends them where a round takes nothing, and
nesting is bounded by a depth; neither decides what is read. Without the test the loops read the
same (`Parser.Progresses`, `Markup.body_eq_bind`, `Template.steps_eq_cons`), and a bound on the
depth makes no difference once it is greater than the number of characters. The main statement is
`Template.parse_progress`.
-/

namespace Stencil

/-! ## Loops of productions -/

/-- Each round of a loop takes a byte at least, and the loop goes on for as long as rounds answer
something. -/
structure Parser.Progresses {α : Type} (round : Parser (Option α)) : Prop where
  advances : ∀ {s a rest}, round s = .ok (some a, rest) → Advances s rest
  unbounded : ∀ s, many round s = (do
    match ← round with
    | some a =>
      let as ← many round
      return a :: as
    | none => return [] : Parser (List α)) s

/-- A loop whose rounds take a byte at least goes on for as long as they answer something. -/
theorem Parser.progresses_of_advances {α : Type} {round : Parser (Option α)}
    (h : ∀ {s a rest}, round s = .ok (some a, rest) → Advances s rest) : Progresses round := by
  refine ⟨h, fun s => ?_⟩
  rw [many]
  cases hround : round s with
  | error e => exact (bind_eq_error.2 (.inl hround)).symm
  | ok r =>
    obtain ⟨found, rest⟩ := r
    rw [bind_of_ok hround]
    cases found with
    | none => rfl
    | some a =>
      dsimp only
      rw [if_pos (h hround).length_lt]
      cases hmore : many round rest with
      | error e => exact (bind_eq_error.2 (.inl hmore)).symm
      | ok r =>
        rw [bind_of_ok hmore]
        rfl

namespace Part

mutual

/-- The productions that a part repeats, each with what is looked for before a round. -/
def loops : Part → List (Look × List Part)
  | repeated look parts => (look, parts) :: loopsOf parts
  | node _ _ parts | enclosed _ _ _ parts => loopsOf parts
  | choice _ yes no => loopsOf yes ++ loopsOf no
  | token _ | .operand _ _ | callee | refuse _ => []

/-- The productions that some parts repeat, each with what is looked for before a round. -/
def loopsOf : List Part → List (Look × List Part)
  | [] => []
  | p :: ps => p.loops ++ loopsOf ps

end

end Part

namespace Grammar

/-- The loops of the grammar: clauses for other conditions, imported names, members of lists behind
a comma, and attributes. -/
def loops : List (Look × List Part) := Part.loopsOf (roots ++ Markup.header)

example : loops.map Prod.fst =
    [Part.atWord "elif", Part.atComma, Part.atComma, Part.atComma, Part.atComma, Part.atComma,
      Part.atComma, Part.atComma, .next .tag (.kind .word)] := rfl

/-- The rounds of the loops of the grammar begin with a token that has text. -/
theorem opensAll_of_mem_loops : ∀ l ∈ loops, Part.opensAll l.2 = true := by decide

/-- The lists of the grammar. -/
def lists : List (List Part) := [Part.list, Part.dict, Part.argumentList]

end Grammar

namespace Part

variable {operand : Extent → Parser Tree} {s rest : Input}

/-- A round of a production takes a byte, if the production begins with a token that has text. -/
theorem round_progresses (hw : ∀ extent, (operand extent).Within) (look : Look)
    {parts : List Part} (hparts : opensAll parts = true) :
    Parser.Progresses (round operand look parts) := by
  refine Parser.progresses_of_advances fun {s ts rest} h => ?_
  obtain ⟨found, _, hlook, h⟩ := Parser.bind_eq_ok.1 h
  obtain rfl := Look.holds_rest hlook
  cases found with
  | true =>
    obtain ⟨_, _, hread, h⟩ := Parser.bind_eq_ok.1 h
    obtain ⟨-, rfl⟩ := Parser.pure_eq_ok.1 h
    exact readAll_advances hw parts hparts hread
  | false => cases (Parser.pure_eq_ok.1 h).1

/-- A solid production that stands for a tree takes a byte, whatever it begins with. -/
theorem readAll_advances_of_anyPresent (ho : Operands operand) {ps : List Part}
    (hpresent : anyPresent ps = true) (hsolid : allSolid ps = true) {ts : List Tree}
    (h : readAll operand ps s = .ok (ts, rest)) : Advances s rest := by
  have hyields := readAll_yields (E := fun _ _ => True) (fun _ => trivial) ps h
  have hne := ne_nil_of_anyPresent ps hpresent hyields
  exact .of_append (readAll_append ho.source ps h)
    (Tree.sources_ne_nil hne (readAll_spaced ho hsolid h))

/-- Lists of the same production have the same members. -/
theorem bracketed_inj {b b' : Bracket} {mode mode' : Mode} {member member' : List Part}
    (h : bracketed b mode member = bracketed b' mode' member') : member = member' := by
  simp only [bracketed, List.cons.injEq, choice.injEq] at h
  obtain ⟨-, ⟨-, -, ⟨-, -, h⟩, -⟩, -⟩ := h
  exact (List.append_inj' h rfl).1

/-- The members of the lists of the grammar are solid and stand for a tree. -/
theorem member_of_mem_lists {b : Bracket} {mode : Mode} {member : List Part}
    (h : bracketed b mode member ∈ Grammar.lists) :
    anyPresent member = true ∧ allSolid member = true := by
  simp only [Grammar.lists, List.mem_cons, List.not_mem_nil, or_false] at h
  rcases h with h | h | h
  all_goals
    cases bracketed_inj h
    decide

end Part

/-- A tail that is read takes a byte at least. -/
theorem Tail.read_progresses {operand : Extent → Parser Tree} (ho : Part.Operands operand)
    (extent : Extent) : Parser.Progresses (Tail.read operand extent) :=
  Parser.progresses_of_advances fun h =>
    .of_length_lt ((Tail.read_within extent ho.within).rest h) (Tail.read_rest_lt ho h)

/-! ## Items -/

namespace Markup

variable {x : Reading (List Tree)} {s : Input}

/-- Without the test, too, a body is an item and the items after it. -/
theorem body_eq_bind (hx : ReadsItems x) (hs : s ≠ []) (hfooter : atFooter s = false) :
    body x s = (do
      let first ← x
      let more ← body x
      return first ++ more : Reading (List Tree)) s := by
  rw [body, if_neg hs, if_neg (Bool.not_eq_true _ ▸ hfooter)]
  cases hfirst : (x s).result with
  | error e =>
    rw [Reading.bind_of_error hfirst]
    simp only [hfirst]
  | ok r =>
    obtain ⟨ts, rest⟩ := r
    simp only [Reading.bind_of_ok hfirst, hfirst, if_pos (hx.rest_lt hs hfirst)]
    cases hmore : (body x rest).result with
    | error e =>
      rw [Reading.bind_of_error hmore]
      rfl
    | ok r =>
      rw [Reading.bind_of_ok hmore]
      show _ = Reply.mk (_ ++ (_ ++ [])) _
      rw [List.append_nil]
      rfl

end Markup

/-- A step takes a byte at least. -/
theorem Step.Reads.advances {step : Step} {s : Input} (h : step.Reads s) : Advances s step.rest :=
  .of_append h.source
    (Tree.sources_ne_nil h.trees_ne_nil (Tree.everyOf_iff.2 fun t ht => (h.items t ht).spaced))

/-! ## Descents -/

/-- Where reading the expression at `s` descends to operands: behind a byte of it at least. Operands
that are the same at these places may be given instead. -/
structure ExpressionDescends (depth : Nat) (extent : Extent) (s : Input) : Prop where
  advances : ∀ e place, OperandAt (expression depth) extent s e place → Advances s place
  complete : ∀ operand : Extent → Parser Tree,
    (∀ e place, OperandAt (expression depth) extent s e place →
      expression depth e place = operand e place) →
    expression (depth + 1) extent s = expressionOf operand extent s

namespace Markup

/-- Where reading the item at `s` descends to operands, if it is a value or a statement: behind a
byte of it at least. Operands that are the same at these places may be given instead. -/
structure ItemDescends (recover : Bool) (depth : Nat) (s : Input) : Prop where
  advances : ∀ e place, ItemOperandAt (expression depth) s e place → Advances s place
  complete : ∀ operand : Extent → Parser Tree,
    (∀ e place, ItemOperandAt (expression depth) s e place →
      expression depth e place = operand e place) →
    item recover depth s = itemOf operand (elementAt recover depth) s

/-- Where reading the element at `s` descends to the operands in its opening tag and to the items of
its body: behind a byte of it at least. Operands and items that are the same at these places may be
given instead. -/
structure ElementDescends (recover : Bool) (depth : Nat) (s : Input) : Prop where
  operand : ∀ e place, TagOperandAt (expression depth) s e place → Advances s place
  nested : ∀ place, NestedAt (expression depth) (nested recover depth) s place → Advances s place
  complete : ∀ (operand : Extent → Parser Tree) (x : Reading (List Tree)),
    (∀ e place, TagOperandAt (expression depth) s e place →
      expression depth e place = operand e place) →
    (∀ place, NestedAt (expression depth) (Markup.nested recover depth) s place →
      Markup.nested recover depth place = x place) →
    elementAt recover (depth + 1) s = element operand x s

end Markup

/-! ## Templates -/

/-- What makes reading a source come to an end. -/
structure Progress (options : Options) (source : Input) : Prop where
  /-- Behind an item reading goes on later than where the item begins, and no later than where the
  source ends, be the item malformed or not. -/
  item : ∀ depth {s}, s <:+ source → s ≠ [] →
    let rest := ((Markup.item options.recover depth s).settle options.recover s).rest
    rest <:+ source ∧
      offset (byteLength source) s < offset (byteLength source) rest ∧
      offset (byteLength source) rest ≤ byteLength source
  /-- A template is read item by item. -/
  template : ∀ {s}, s ≠ [] →
    Advances s (Template.step options s).rest ∧
      Template.steps options s =
        Template.step options s :: Template.steps options (Template.step options s).rest
  /-- A body is read item by item, up to a closing tag. -/
  body : ∀ depth {s}, s ≠ [] → Markup.atFooter s = false →
    (∀ {ts rest}, (Markup.nested options.recover depth).parser s = .ok (ts, rest) →
      Advances s rest) ∧
    Markup.body (Markup.nested options.recover depth) s = (do
      let first ← Markup.nested options.recover depth
      let more ← Markup.body (Markup.nested options.recover depth)
      return first ++ more : Reading (List Tree)) s
  /-- Clauses, imported names, members of lists and attributes are read one by one. -/
  loop : ∀ {look parts}, (look, parts) ∈ Grammar.loops →
    ∀ depth, Parser.Progresses (Part.round (expression depth) look parts)
  /-- A member of a list takes a byte at least, the first one too, which no comma precedes. -/
  member : ∀ {b mode member}, Part.bracketed b mode member ∈ Grammar.lists →
    ∀ {depth s rest ts}, Part.readAll (expression depth) member s = .ok (ts, rest) →
      Advances s rest
  /-- Operators, calls, properties and subscripts are read one by one. -/
  tail : ∀ depth extent, Parser.Progresses (Tail.read (expression depth) extent)
  /-- Operands of expressions are descended to behind a byte at least. -/
  expression : ∀ depth extent s, ExpressionDescends depth extent s
  /-- Operands of values and statements are descended to behind a byte at least. -/
  operand : ∀ depth s, Markup.ItemDescends options.recover depth s
  /-- Elements are descended to behind a byte at least. -/
  element : ∀ depth s, Markup.ElementDescends options.recover depth s
  /-- A bound on the depth makes no difference once it is greater than the number of characters. -/
  depth : ∀ other : Options, other.recover = options.recover →
    source.length < options.maxDepth → source.length < other.maxDepth →
    Template.parse options source = Template.parse other source

namespace Template

/-- Bounds on the depth that are greater than the number of characters make no difference to the
steps. -/
theorem steps_eq_of_length_lt {options other : Options} (hrecover : other.recover = options.recover)
    {s : Input} (h : s.length < options.maxDepth) (h' : s.length < other.maxDepth) :
    steps options s = steps other s := by
  induction s using steps_induction options with
  | nil => rw [steps_nil, steps_nil]
  | cons s hs ih =>
    have hstep : step options s = step other s := by
      rw [step, step, hrecover, Markup.item_eq_of_length_lt h h']
    have hlt := step_rest_lt options hs
    rw [steps_eq_cons options hs, steps_eq_cons other hs, ← hstep, ih (by omega) (by omega)]

/-- Reading a template goes on until the source ends: every item, every round of a loop and every
descent takes a byte at least, and no bound but that of the options decides where reading ends. -/
theorem parse_progress (options : Options) (source : Input) : Progress options source where
  item := by
    intro depth s hs hne rest
    have hreads : ((Markup.item options.recover depth s).settle options.recover s).Reads s :=
      Markup.settle_reads options.recover hne (Markup.item_readsItems options.recover depth)
    exact ⟨hreads.advances.suffix.trans hs, hreads.advances.offset_lt hs⟩
  template := fun hs => ⟨(step_reads options hs).advances, steps_eq_cons options hs⟩
  body := by
    intro depth s hs hfooter
    have hx := Markup.nested_readsItems options.recover depth
    refine ⟨fun {ts rest} h => ?_, Markup.body_eq_bind hx hs hfooter⟩
    exact .of_length_lt (hx.within.rest h) (hx.rest_lt hs h)
  loop := fun hmem depth =>
    Part.round_progresses (expression_within depth) _ (Grammar.opensAll_of_mem_loops _ hmem)
  member := by
    intro b mode member hmem depth s rest ts h
    obtain ⟨hpresent, hsolid⟩ := Part.member_of_mem_lists hmem
    exact Part.readAll_advances_of_anyPresent (Part.operands_expression depth) hpresent hsolid h
  tail := fun depth extent => Tail.read_progresses (Part.operands_expression depth) extent
  expression := fun depth extent s =>
    ⟨fun _ _ h => h.advances (Part.operands_expression depth), fun _ h => expressionOf_congr h⟩
  operand := by
    intro depth s
    refine ⟨fun _ _ h => h.advances (expression_within depth), fun operand h => ?_⟩
    rw [Markup.item_eq]
    exact Markup.itemOf_congr h fun _ => rfl
  element := by
    intro depth s
    have hw := expression_within depth
    have hx := Markup.nested_readsItems options.recover depth
    exact ⟨fun _ _ h => h.advances hw, fun _ h => h.advances hw hx.within,
      fun _ _ htag hnested => Markup.element_congr htag hnested⟩
  depth := by
    intro other hrecover h h'
    rw [parse, parse, steps_eq_of_length_lt hrecover h h']

end Template

end Stencil
