import Stencil.Proofs.Accounting
import Stencil.Proofs.Descent

/-!
# Reading under a limit

Operands and elements nest no deeper than a limit allows, and what nests deeper is refused. A lower
limit changes nothing else: reading under it does what reading under a higher one does, or else it
comes to something that it refuses (`expression_limits`, `Markup.item_limits`). A refusal is no
unexpected token, so that no opener sees it in another way and no look ahead hides it; it is
reported in the end. The main statement is `Template.parse_limited`.
-/

namespace Stencil

/-! ## Parsers -/

/-- The failure is a refusal: something nests too deep. -/
def Failure.Refuses (e : Failure) : Prop := e.cause = .nestingTooDeep

/-- A refusal is the same from outside an opener. -/
theorem Failure.Refuses.inside {e : Failure} (h : e.Refuses) (opener : Input) :
    (e.inside opener).Refuses := by
  have hsettled : e.Settled := settled_of_cause fun expected hcause => by cases h.symm.trans hcause
  rw [hsettled opener]
  exact h

namespace Parser

variable {α β : Type}

/-- The first parser does what the second one does, or it refuses what it comes to. -/
def Limits (p p' : Parser α) : Prop := ∀ s, p s = p' s ∨ ∃ e, p s = .error e ∧ e.Refuses

/-- A parser does what it does. -/
theorem Limits.refl (p : Parser α) : p.Limits p := fun _ => .inl rfl

/-- A parser that fails with a refusal limits every parser. -/
theorem Limits.of_refuses {p p' : Parser α} (h : ∀ s, ∃ e, p s = .error e ∧ e.Refuses) :
    p.Limits p' := fun s => .inr (h s)

/-- Going on after a limited parser is limited, if what goes on is. -/
theorem Limits.bind {p p' : Parser α} {f f' : α → Parser β} (hp : p.Limits p')
    (hf : ∀ a, (f a).Limits (f' a)) : (p >>= f).Limits (p' >>= f') := by
  intro s
  rcases hp s with hsame | ⟨e, he, hrefuses⟩
  · cases h : p s with
    | error e => exact .inl (bind_congr hsame fun a rest hok => by cases h.symm.trans hok)
    | ok r =>
      obtain ⟨a, rest⟩ := r
      rcases hf a rest with hmore | ⟨e, he, hrefuses⟩
      · refine .inl (bind_congr hsame fun a' rest' hok => ?_)
        cases h.symm.trans hok
        exact hmore
      · exact .inr ⟨e, bind_eq_error.2 (.inr ⟨a, rest, h, he⟩), hrefuses⟩
  · exact .inr ⟨e, bind_eq_error.2 (.inl he), hrefuses⟩

/-- Reading inside an opener is limited, if it is without. -/
theorem Limits.inside {p p' : Parser α} (h : p.Limits p') (opener : Input) :
    (inside opener p).Limits (inside opener p') := by
  intro s
  rcases h s with hsame | ⟨e, he, hrefuses⟩
  · exact .inl (inside_congr opener hsame)
  · exact .inr ⟨_, inside_eq_error.2 ⟨e, he, rfl⟩, hrefuses.inside opener⟩

/-- Rounds are limited, if each of them is. -/
theorem Limits.many {round round' : Parser (Option α)} (h : round.Limits round') :
    (many round).Limits (many round') := by
  intro s
  fun_induction Parser.many round s with
  | case1 s e hround =>
    rcases h s with hsame | hrefused
    · rw [Parser.many, ← hsame, hround]
      exact .inl rfl
    · rw [hround] at hrefused
      obtain ⟨_, heq, hrefuses⟩ := hrefused
      cases heq
      exact .inr ⟨e, rfl, hrefuses⟩
  | case2 s rest hround =>
    have hsame := (h s).resolve_right (by simp [hround])
    rw [Parser.many, ← hsame, hround]
    exact .inl rfl
  | case3 s a rest hround hlt e hmore ih =>
    have hsame := (h s).resolve_right (by simp [hround])
    rw [hmore] at ih
    rcases ih with ih | ⟨_, heq, hrefuses⟩
    · left
      rw [Parser.many, ← hsame, hround]
      simp only [if_pos hlt, ← ih]
    · cases heq
      exact .inr ⟨e, rfl, hrefuses⟩
  | case4 s a rest hround hlt as stop hmore ih =>
    have hsame := (h s).resolve_right (by simp [hround])
    rw [hmore] at ih
    have ih := ih.resolve_right (by simp)
    left
    rw [Parser.many, ← hsame, hround]
    simp only [if_pos hlt, ← ih]
  | case5 s a rest hround hlt =>
    have hsame := (h s).resolve_right (by simp [hround])
    left
    rw [Parser.many, ← hsame, hround]
    simp only [if_neg hlt]

end Parser

/-! ## Expressions -/

section Expressions

variable {operand operand' : Extent → Parser Tree}

namespace Part

mutual

/-- Reading a part is limited, if reading operands is. -/
theorem read_limits (ho : ∀ extent, (operand extent).Limits (operand' extent)) :
    ∀ p : Part, (p.read operand).Limits (p.read operand')
  | token t => by
    rw [read, read]
    exact .refl _
  | .operand field extent => by
    rw [read, read]
    exact (ho extent).bind fun _ => .refl _
  | callee => by
    rw [read, read]
    exact (ho .whole).bind fun _ => .refl _
  | node field kind parts => by
    rw [read, read]
    exact (readAll_limits ho parts).bind fun _ => .refl _
  | enclosed field kind opening parts => by
    rw [read, read]
    refine Parser.Limits.bind (.refl _) fun next => Parser.Limits.bind (.refl _) fun first => ?_
    exact ((readAll_limits ho parts).inside next.start).bind fun _ => .refl _
  | choice look yes no => by
    -- What is looked for is found or not whatever the limit is.
    rw [read, read]
    refine Parser.Limits.bind (.refl _) fun found => ?_
    cases found with
    | true => exact readAll_limits ho yes
    | false => exact readAll_limits ho no
  | repeated look parts => by
    rw [read_repeated, read_repeated]
    refine Parser.Limits.bind (Parser.Limits.many ?_) fun _ => .refl _
    refine Parser.Limits.bind (.refl _) fun found => ?_
    cases found with
    | true => exact (readAll_limits ho parts).bind fun _ => .refl _
    | false => exact .refl _
  | refuse cause => by
    rw [read, read]
    exact .refl _

/-- Reading a production is limited, if reading operands is. -/
theorem readAll_limits (ho : ∀ extent, (operand extent).Limits (operand' extent)) :
    ∀ ps : List Part, (readAll operand ps).Limits (readAll operand' ps)
  | [] => .refl _
  | p :: ps => by
    rw [readAll, readAll]
    exact (read_limits ho p).bind fun _ => (readAll_limits ho ps).bind fun _ => .refl _

end

end Part

/-- Reading a primary is limited, if reading operands is. -/
theorem Primary.read_limits (ho : ∀ extent, (operand extent).Limits (operand' extent)) :
    (read operand).Limits (read operand') := by
  refine Parser.Limits.bind (.refl _) fun t => ?_
  cases of? t with
  | none => exact .refl _
  | some form =>
    cases form with
    | leaf kind => exact .refl _
    | node kind parts => exact (Part.readAll_limits ho parts).bind fun _ => .refl _

/-- Reading a tail is limited, if reading operands is. -/
theorem Tail.read_limits (ho : ∀ extent, (operand extent).Limits (operand' extent))
    (extent : Extent) : (read operand extent).Limits (read operand' extent) := by
  refine Parser.Limits.bind (.refl _) fun t => ?_
  cases if admits extent t then of? t else none with
  | none => exact .refl _
  | some form => exact (Part.readAll_limits ho form.more).bind fun _ => .refl _

/-- An expression is what it is under a higher limit, or it is refused. -/
theorem expression_limits {low high : Nat} (hle : low ≤ high) (extent : Extent) :
    (expression low extent).Limits (expression high extent) := by
  induction low generalizing high extent with
  | zero => exact .of_refuses fun s => ⟨⟨⟨.nestingTooDeep, s⟩, s⟩, rfl, rfl⟩
  | succ low ih =>
    obtain ⟨high, rfl⟩ := Nat.exists_eq_add_of_le' (Nat.le_of_add_left_le hle)
    have ho := ih (Nat.le_of_add_le_add_right hle)
    exact (Primary.read_limits ho).bind fun _ =>
      (Tail.read_limits ho extent).many.bind fun _ => .refl _

end Expressions

/-! ## Items -/

/-- Something is refused: it fails the reading, or it is reported of an item that was skipped. -/
def Reply.Refuses {α : Type} (r : Reply α) : Prop :=
  (∃ f ∈ faultsOf r.events, f.cause = .nestingTooDeep) ∨ ∃ e, r.result = .error e ∧ e.Refuses

namespace Reading

variable {α β : Type}

/-- The first reader does and notes what the second one does, or it refuses something. -/
def Limits (x x' : Reading α) : Prop := ∀ s, x s = x' s ∨ (x s).Refuses

/-- Reading does what it does. -/
theorem Limits.refl (x : Reading α) : x.Limits x := fun _ => .inl rfl

/-- Reading that notes nothing is limited as its parser is. -/
theorem Limits.quiet {p p' : Parser α} (h : p.Limits p') : (quiet p).Limits (quiet p') := by
  intro s
  rcases h s with hsame | hrefused
  · left
    rw [Reading.quiet, Reading.quiet, hsame]
  · exact .inr (.inr hrefused)

/-- Going on after limited reading is limited, if what goes on is. -/
theorem Limits.bind {x x' : Reading α} {f f' : α → Reading β} (hx : x.Limits x')
    (hf : ∀ a, (f a).Limits (f' a)) : (x >>= f).Limits (x' >>= f') := by
  intro s
  cases hresult : (x s).result with
  | error e =>
    rw [bind_of_error hresult]
    rcases hx s with hsame | ⟨f, hmem, hcause⟩ | ⟨e', he, hrefuses⟩
    · rw [hsame] at hresult ⊢
      exact .inl (bind_of_error hresult).symm
    · exact .inr (.inl ⟨f, hmem, hcause⟩)
    · cases hresult.symm.trans he
      exact .inr (.inr ⟨e, rfl, hrefuses⟩)
  | ok r =>
    obtain ⟨a, rest⟩ := r
    rw [bind_of_ok hresult]
    rcases hx s with hsame | ⟨f, hmem, hcause⟩ | ⟨e, he, -⟩
    · rcases hf a rest with hmore | ⟨f, hmem, hcause⟩ | ⟨e, he, hrefuses⟩
      · rw [hsame] at hresult ⊢
        rw [bind_of_ok hresult, hmore]
        exact .inl rfl
      · refine .inr (.inl ⟨f, ?_, hcause⟩)
        rw [faultsOf_append]
        exact List.mem_append_right _ hmem
      · exact .inr (.inr ⟨e, he, hrefuses⟩)
    · refine .inr (.inl ⟨f, ?_, hcause⟩)
      rw [faultsOf_append]
      exact List.mem_append_left _ hmem
    · cases hresult.symm.trans he

/-- Reading inside an opener is limited, if it is without. -/
theorem Limits.inside {x x' : Reading α} (h : x.Limits x') (opener : Input) :
    (inside opener x).Limits (inside opener x') := by
  intro s
  rw [inside_eq, inside_eq]
  rcases h s with hsame | hmem | ⟨e, he, hrefuses⟩
  · rw [hsame]
    exact .inl rfl
  · exact .inr (.inl hmem)
  · refine .inr (.inr ⟨_, ?_, hrefuses.inside opener⟩)
    rw [he]
    rfl

end Reading

/-- What becomes of an item under a limit is what becomes of it under a higher one, or a refusal is
reported. -/
theorem Reply.settle_limits {r r' : Reply (List Tree)} (h : r = r' ∨ r.Refuses) (recover : Bool)
    (s : Input) : r.settle recover s = r'.settle recover s ∨
      ∃ f ∈ faultsOf (r.settle recover s).events, f.cause = .nestingTooDeep := by
  rcases h with rfl | hrefused
  · exact .inl rfl
  right
  unfold settle
  split
  · rename_i hok
    rcases hrefused with hmem | ⟨e, he, -⟩
    · exact hmem
    · cases hok.symm.trans he
  · -- The refusal has been reported already, or it is the failure for which the item is skipped.
    rename_i failure herror
    rcases hrefused with ⟨f, hmem, hcause⟩ | ⟨e, he, hrefuses⟩
    · refine ⟨f, ?_, hcause⟩
      rw [faultsOf_append]
      exact List.mem_append_left _ hmem
    · cases herror.symm.trans he
      refine ⟨failure.toFault, ?_, hrefuses⟩
      rw [faultsOf_append]
      exact List.mem_append_right _ (List.mem_singleton.2 rfl)

/-- Reading that recovers is limited, if it is without recovery. -/
theorem Reading.Limits.recovering {x x' : Reading (List Tree)} (h : x.Limits x') :
    x.recovering.Limits x'.recovering := by
  intro s
  unfold Reading.recovering
  dsimp only
  rcases Reply.settle_limits (h s) true s with hsame | hmem
  · rw [hsame]
    exact .inl rfl
  · exact .inr (.inl hmem)

namespace Markup

variable {operand operand' : Extent → Parser Tree}

/-- A statement is limited, if operands are. -/
theorem statement_limits (ho : ∀ extent, (operand extent).Limits (operand' extent)) :
    (statement operand).Limits (statement operand') := by
  refine Reading.Limits.bind (.refl _) fun opener => ?_
  refine Reading.Limits.bind (.quiet (Part.read_limits ho _)) fun ts => ?_
  exact .refl _

/-- The body of an element is limited, if its items are. -/
theorem body_limits {x x' : Reading (List Tree)} (hx : x.Limits x') :
    (body x).Limits (body x') := by
  intro s
  fun_induction body x s with
  | case1 =>
    rw [body, if_pos rfl]
    exact .inl rfl
  | case2 s hs hfooter =>
    rw [body, if_neg hs, if_pos hfooter]
    exact .inl rfl
  | case3 s hs hopen first e hfirst =>
    rcases hx s with hsame | hrefused
    · rw [body, if_neg hs, if_neg hopen, ← hsame]
      dsimp only
      rw [hfirst]
      exact .inl rfl
    · rcases hrefused with hmem | ⟨e', he, hrefuses⟩
      · exact .inr (.inl hmem)
      · cases hfirst.symm.trans he
        exact .inr (.inr ⟨e, rfl, hrefuses⟩)
  | case4 s hs hopen first trees rest hfirst hlt more ih =>
    rcases hx s with hsame | ⟨f, hmem, hcause⟩ | ⟨e, he, -⟩
    · rcases ih with ih | ⟨f, hmem, hcause⟩ | ⟨e, he, hrefuses⟩
      · rw [body, if_neg hs, if_neg hopen, ← hsame]
        dsimp only
        rw [hfirst]
        simp only [if_pos hlt, ← ih]
        exact .inl rfl
      · refine .inr (.inl ⟨f, ?_, hcause⟩)
        rw [faultsOf_append]
        exact List.mem_append_right _ hmem
      · refine .inr (.inr ⟨e, ?_, hrefuses⟩)
        simp only [more, he]
        rfl
    · refine .inr (.inl ⟨f, ?_, hcause⟩)
      rw [faultsOf_append]
      exact List.mem_append_left _ hmem
    · cases hfirst.symm.trans he
  | case5 s hs hopen first trees rest hfirst hlt =>
    rcases hx s with hsame | hmem | ⟨e, he, -⟩
    · rw [body, if_neg hs, if_neg hopen, ← hsame]
      dsimp only
      rw [hfirst]
      simp only [if_neg hlt]
      exact .inl rfl
    · exact .inr (.inl hmem)
    · cases hfirst.symm.trans he

/-- An element is limited, if operands and the items of its body are. -/
theorem element_limits (ho : ∀ extent, (operand extent).Limits (operand' extent))
    {x x' : Reading (List Tree)} (hx : x.Limits x') :
    (element operand x).Limits (element operand' x') := by
  refine Reading.Limits.bind (.refl _) fun s => Reading.Limits.bind (.refl _) fun first => ?_
  refine Reading.Limits.inside ?_ s
  refine Reading.Limits.bind (.quiet (Part.readAll_limits ho header)) fun tag => ?_
  refine Reading.Limits.bind (.quiet (Part.readAll_limits ho headerEnd)) fun stop => ?_
  split
  · exact .refl _
  · refine Reading.Limits.bind (body_limits hx) fun items => ?_
    exact Reading.Limits.bind (.quiet (Part.readAll_limits ho footer)) fun _ => .refl _

/-- Where elements are refused, an element of any kind is, once its bracket is read. -/
theorem tooDeep_limits (x : Reading (List Tree)) : tooDeep.Limits (element operand x) := by
  intro s
  show (Reading.quiet (opener.read >>= fun _ => Parser.fail .nestingTooDeep s) s : Reply Tree) =
    (Reading.quiet opener.read >>= fun first => _) s ∨ _
  cases hfirst : opener.read s with
  | error e =>
    left
    rw [Reading.quiet_bind_of_error hfirst, Reading.quiet,
      Parser.bind_eq_error.2 (.inl hfirst)]
  | ok r =>
    obtain ⟨first, rest⟩ := r
    refine .inr (.inr ⟨⟨⟨.nestingTooDeep, s⟩, rest⟩, ?_, rfl⟩)
    exact Parser.bind_eq_error.2 (.inr ⟨first, rest, hfirst, rfl⟩)

/-- An item is limited, if operands and elements are. -/
theorem itemOf_limits (ho : ∀ extent, (operand extent).Limits (operand' extent))
    {element element' : Reading Tree} (he : element.Limits element') :
    (itemOf operand element).Limits (itemOf operand' element') := by
  intro s
  rw [itemOf_eq, itemOf_eq]
  split
  case h_2 => exact Reading.Limits.quiet (Part.read_limits ho _) s
  case h_3 => exact statement_limits ho s
  case h_5 => exact he.bind (fun _ => .refl _) s
  all_goals exact .inl rfl

/-- An item is what it is under a higher limit, or something is refused. -/
theorem item_limits (recover : Bool) {low high : Nat} (hle : low ≤ high) :
    (item recover low).Limits (item recover high) := by
  induction low generalizing high with
  | zero =>
    cases high with
    | zero => exact .refl _
    | succ high => exact itemOf_limits (expression_limits hle) (tooDeep_limits _)
  | succ low ih =>
    obtain ⟨high, rfl⟩ := Nat.exists_eq_add_of_le' (Nat.le_of_add_left_le hle)
    have hle' := Nat.le_of_add_le_add_right hle
    refine itemOf_limits (expression_limits hle) (element_limits (expression_limits hle') ?_)
    cases recover with
    | true => exact (ih hle').recovering
    | false => exact ih hle'

end Markup

/-! ## Templates -/

namespace Template

variable {low high : Options}

/-- A template is read in the steps of a higher limit, or a refusal is reported. -/
theorem steps_limits (hrecover : low.recover = high.recover) (hle : low.maxDepth ≤ high.maxDepth)
    (s : Input) : steps low s = steps high s ∨
      ∃ f ∈ faultsOf ((steps low s).flatMap Step.events), f.cause = .nestingTooDeep := by
  induction s using steps_induction low with
  | nil =>
    rw [steps_nil, steps_nil]
    exact .inl rfl
  | cons s hs ih =>
    have hstep : step low s = step high s ∨
        ∃ f ∈ faultsOf (step low s).events, f.cause = .nestingTooDeep := by
      unfold step
      rw [hrecover]
      exact Reply.settle_limits (Markup.item_limits high.recover hle s) high.recover s
    rw [steps_eq_cons low hs, steps_eq_cons high hs, List.flatMap_cons, faultsOf_append]
    rcases hstep with hsame | ⟨f, hmem, hcause⟩
    · rcases ih with hmore | ⟨f, hmem, hcause⟩
      · rw [hmore, hsame]
        exact .inl rfl
      · exact .inr ⟨f, List.mem_append_right _ hmem, hcause⟩
    · exact .inr ⟨f, List.mem_append_left _ hmem, hcause⟩

/-- A parse is what it is under a higher limit, or a refusal is reported. -/
theorem parse_eq_or_refused (hrecover : low.recover = high.recover)
    (hle : low.maxDepth ≤ high.maxDepth) (source : Input) :
    parse low source = parse high source ∨
      ∃ d ∈ (parse low source).errors, d.cause = .nestingTooDeep := by
  rcases steps_limits hrecover hle source with hsame | ⟨f, hmem, hcause⟩
  · left
    rw [parse, parse, hsame]
  · exact .inr ⟨_, mem_errors_ofSteps.2 ⟨f, hmem, rfl⟩, hcause⟩

/-- Under a lower limit a parse is the same in all it says, unless it reports that something nests
too deep. A reader that does not recover then reports nothing else. -/
theorem parse_limited (source : Input) (hrecover : low.recover = high.recover)
    (hle : low.maxDepth ≤ high.maxDepth) :
    ((∀ d ∈ (parse low source).errors, d.cause ≠ .nestingTooDeep) →
        parse low source = parse high source) ∧
      (low.recover = false → parse low source = parse high source ∨
        ∃ pos, (parse low source).errors = [⟨.nestingTooDeep, pos⟩]) := by
  have hlimited := parse_eq_or_refused hrecover hle source
  refine ⟨fun hnone => hlimited.resolve_right ?_, fun hstrict => hlimited.imp_right ?_⟩
  · rintro ⟨d, hd, hcause⟩
    exact hnone d hd hcause
  · -- A reader that gives up once reports the refusal alone.
    rintro ⟨⟨cause, pos⟩, hd, rfl⟩
    have hone := (givesUpOnce hstrict source).errors
    obtain ⟨d, herrors⟩ := List.length_eq_one_iff.1
      (Nat.le_antisymm hone (List.length_pos_of_mem hd))
    rw [herrors] at hd ⊢
    obtain rfl := List.mem_singleton.1 hd
    exact ⟨pos, rfl⟩

/-- A list in a list: its member is the third operand on the way down, one more than the lower limit
allows, and a value that is not closed after it is not reported any more. -/
theorem parse_limited_list :
    let low : Options := ⟨false, 2, by decide⟩
    let high : Options := ⟨false, 3, by decide⟩
    let source : Input := ['{', '{', '[', '[', 'a', ']', ']', '}', '}', '{', '{']
    low.recover = high.recover ∧ low.maxDepth ≤ high.maxDepth ∧ low.recover = false ∧
      (parse high source).errors = [⟨.unterminatedDelimiter, 9⟩] ∧
      ∃ pos, (parse low source).errors = [⟨.nestingTooDeep, pos⟩] := by
  intro low high source
  have hhigh : (parse high source).errors = [⟨.unterminatedDelimiter, 9⟩] := by
    unfold parse ofSteps
    dsimp only
    cbv
  have hlow : (parse low source).errors = [⟨.nestingTooDeep, 4⟩] := by
    unfold parse ofSteps
    dsimp only
    cbv
  refine ⟨rfl, by decide, rfl, hhigh, ?_⟩
  refine ((@parse_limited low high source rfl (by decide)).2 rfl).resolve_left ?_
  intro hsame
  rw [hsame, hhigh] at hlow
  cases hlow

end Template

end Stencil
