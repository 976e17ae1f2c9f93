import Stencil.Proofs.Items
import Stencil.Tree.Place

/-!
# Reading with and without recovery

A reader that recovers does what one does that does not, up to the first fault. The two agree on an
item (`Markup.item_agrees`): where the strict reader succeeds, the other one does the same, and
where it fails, the other one fails too or has noted the same fault, in the body of some element. A
fault in such a body is seen by the strict reader from outside all elements around it, and it is the
same from there because the failure of an item is settled (`Markup.item_settles`): only an
unexpected end of the input is seen in another way from outside, and no item fails with that.
-/

namespace Stencil

/-- A failure is settled if it is the same from outside every opener. -/
def Failure.Settled (failure : Failure) : Prop := ∀ opener, failure.inside opener = failure

namespace Failure

/-- A failure with another cause than an unexpected token is settled. -/
theorem settled_of_cause {f : Failure} (h : ∀ expected, f.cause ≠ .unexpectedToken expected) :
    f.Settled := by
  intro opener
  unfold inside
  split
  · rename_i hcause _
    exact absurd hcause (h _)
  · rfl

/-- A failure before the end of the input is settled. -/
theorem settled_of_found {f : Failure} (h : f.found ≠ []) : f.Settled := by
  intro opener
  unfold inside
  split
  · rename_i hfound
    exact absurd hfound h
  · rfl

/-- A failure that is seen from outside an opener is settled. -/
theorem settled_inside (opener : Input) (f : Failure) : (f.inside opener).Settled := by
  by_cases h : ∃ expected, f.cause = .unexpectedToken expected ∧ f.found = []
  · obtain ⟨expected, hcause, hfound⟩ := h
    apply settled_of_cause
    intro other
    simp [inside, hcause, hfound]
  · -- The failure is the same from outside, for the reason that it is settled.
    have hsettled : f.Settled := by
      by_cases hfound : f.found = []
      · exact settled_of_cause fun expected hcause => h ⟨expected, hcause, hfound⟩
      · exact settled_of_found hfound
    rwa [hsettled opener]

end Failure

/-- The faults that some events report. -/
def faultsOf (events : List Event) : List Fault := events.filterMap Event.fault?

/-- The faults of two rows of events are those of the one row and then those of the other. -/
@[simp]
theorem faultsOf_append (a b : List Event) : faultsOf (a ++ b) = faultsOf a ++ faultsOf b :=
  List.filterMap_append

/-! ## Agreement -/

/-- What a strict reader answers agrees with what one answers that recovers. -/
structure Reply.Agrees {α : Type} (strict lenient : Reply α) : Prop where
  /-- The strict reader reports no fault in a body. -/
  faultless : faultsOf strict.events = []
  /-- Where the strict reader succeeds the other one does the same. -/
  ok : ∀ {a}, strict.result = .ok a → lenient = strict
  /-- Where the strict reader fails the other one does too, or it has reported the fault. -/
  error : ∀ {e}, strict.result = .error e →
    lenient.result = .error e ∨ e.Settled ∧ e.toFault ∈ faultsOf lenient.events

namespace Reply.Agrees

variable {x y : Reply (List Tree)} {s : Input}

/-- What a strict reader answers becomes of the item for both readers. -/
theorem settle_ok (h : x.Agrees y) {trees : List Tree} {rest : Input}
    (hx : x.result = .ok (trees, rest)) (recover : Bool) :
    y.settle recover s = ⟨trees, x.events, rest⟩ := by
  rw [h.ok hx, settle, hx]

/-- What a reader that recovers makes of an item reports the fault of the strict one. -/
theorem mem_settle (h : x.Agrees y) {e : Failure} (hx : x.result = .error e) :
    e.toFault ∈ faultsOf (y.settle true s).events := by
  unfold settle
  split
  · rename_i trees rest hy
    rcases h.error hx with hfail | ⟨-, hmem⟩
    · rw [hy] at hfail
      cases hfail
    · exact hmem
  · rename_i f hy
    rw [faultsOf_append]
    rcases h.error hx with hfail | ⟨-, hmem⟩
    · rw [hy] at hfail
      cases hfail
      exact List.mem_append_right _ (List.mem_singleton.2 rfl)
    · exact List.mem_append_left _ hmem

end Reply.Agrees

namespace Reading

variable {α β : Type}

/-- A strict reader agrees with one that recovers. -/
def Agrees (strict lenient : Reading α) : Prop := ∀ s, (strict s).Agrees (lenient s)

/-- The failures of a reader where something is left to read are settled. -/
def Settles (x : Reading α) : Prop := ∀ {s e}, s ≠ [] → x.parser s = .error e → e.Settled

/-- A reader that reports no faults agrees with itself. -/
theorem Agrees.refl {x : Reading α} (h : ∀ s, faultsOf (x s).events = []) : x.Agrees x :=
  fun s => ⟨h s, fun _ => rfl, fun he => .inl he⟩

/-- Reading that notes nothing agrees with itself. -/
theorem Agrees.quiet (p : Parser α) : (quiet p).Agrees (quiet p) := .refl fun _ => rfl

/-- Finding what is left to read agrees with itself. -/
theorem Agrees.here : here.Agrees here := .refl fun _ => rfl

/-- Answering a value agrees with itself. -/
theorem Agrees.pure (a : α) : (pure a : Reading α).Agrees (pure a) := .refl fun _ => rfl

/-- Readers that go on agree, if their halves do. -/
theorem Agrees.bind {x y : Reading α} {f g : α → Reading β} (hx : x.Agrees y)
    (hf : ∀ a, (f a).Agrees (g a)) : (x >>= f).Agrees (y >>= g) := by
  intro s
  obtain ⟨hnone, hok, herror⟩ := hx s
  cases hresult : (x s).result with
  | error e =>
    -- The strict reader fails in its first half.
    have hleft : (x >>= f) s = ⟨(x s).events, .error e⟩ := by
      simp only [Bind.bind, hresult]
    rw [hleft]
    refine ⟨hnone, nofun, fun he => ?_⟩
    cases he
    rcases herror hresult with hfail | ⟨hsettled, hmem⟩
    · left
      simp only [Bind.bind, hfail]
    · right
      refine ⟨hsettled, ?_⟩
      rw [events_bind, faultsOf_append]
      exact List.mem_append_left _ hmem
  | ok a =>
    -- Both readers do the same in the first half, and the second halves agree.
    obtain ⟨a, rest⟩ := a
    obtain ⟨hmoreNone, hmoreOk, hmoreError⟩ := hf a rest
    have hsame := hok hresult
    have hleft : (x >>= f) s = ⟨(x s).events ++ (f a rest).events, (f a rest).result⟩ := by
      simp only [Bind.bind, hresult]
    have hright : (y >>= g) s = ⟨(x s).events ++ (g a rest).events, (g a rest).result⟩ := by
      simp only [Bind.bind, hsame, hresult]
    rw [hleft, hright]
    refine ⟨?_, fun h => ?_, fun h => ?_⟩
    · rw [faultsOf_append, hnone, hmoreNone, List.append_nil]
    · rw [hmoreOk h]
    · rcases hmoreError h with hfail | ⟨hsettled, hmem⟩
      · exact .inl hfail
      · refine .inr ⟨hsettled, ?_⟩
        rw [faultsOf_append]
        exact List.mem_append_right _ hmem

/-- Readers inside an opener agree, if they do without. -/
theorem Agrees.inside {x y : Reading α} (opener : Input) (h : x.Agrees y) :
    (inside opener x).Agrees (inside opener y) := by
  intro s
  obtain ⟨hnone, hok, herror⟩ := h s
  refine ⟨hnone, fun hresult => ?_, fun hresult => ?_⟩
  · cases hx : (x s).result with
    | error e =>
      simp only [Reading.inside, hx] at hresult
      cases hresult
    | ok a => simp only [Reading.inside, hok hx]
  · cases hx : (x s).result with
    | ok a =>
      simp only [Reading.inside, hx] at hresult
      cases hresult
    | error e =>
      simp only [Reading.inside, hx] at hresult
      cases hresult
      rcases herror hx with hfail | ⟨hsettled, hmem⟩
      · left
        simp only [Reading.inside, hfail]
        rfl
      · -- The fault that was reported is the same from outside the opener.
        right
        rw [hsettled opener]
        exact ⟨hsettled, hmem⟩

end Reading

/-! ## Failures of items -/

/-- An opening token that is missing where something is left to read is a settled failure. -/
theorem Terminal.settled_of_read {t : Terminal} {s : Input} {e : Failure} (ht : t.mode = .text)
    (hs : s ≠ []) (h : t.read s = .error e) : e.Settled := by
  rcases Parser.bind_eq_error.1 h with h | ⟨next, s', hnext, h⟩
  · obtain ⟨fault, hscan, -⟩ := Parser.peek_eq_error.1 h
    rw [ht] at hscan
    cases hscan
  · obtain ⟨hscan, rfl⟩ := Parser.peek_eq_ok.1 hnext
    rw [ht] at hscan
    cases hscan
    cases htake : t.pattern.take? (Token.scanText s) with
    | some token =>
      rw [htake] at h
      cases h
    | none =>
      rw [htake] at h
      cases h
      apply Failure.settled_of_found
      show (Token.scanText s).start ≠ []
      rwa [Token.scanText_start]

/-- What stands between a token of text and its counterpart fails with a settled failure. -/
theorem Part.settled_of_enclosed {operand : Extent → Parser Tree} {field : Option Field}
    {kind : Kind} {opening : Terminal} {parts : List Part} (hmode : opening.mode = .text)
    {s : Input} {e : Failure} (hs : s ≠ [])
    (h : (enclosed field kind opening parts).read operand s = .error e) : e.Settled := by
  rw [read] at h
  rcases Parser.bind_eq_error.1 h with h | ⟨next, s', hnext, h⟩
  · obtain ⟨fault, hscan, -⟩ := Parser.peek_eq_error.1 h
    rw [hmode] at hscan
    cases hscan
  · obtain ⟨-, rfl⟩ := Parser.peek_eq_ok.1 hnext
    rcases Parser.bind_eq_error.1 h with h | ⟨first, s₁, -, h⟩
    · exact opening.settled_of_read hmode hs h
    · rcases Parser.bind_eq_error.1 h with h | ⟨_, _, _, h⟩
      · obtain ⟨f, -, rfl⟩ := Parser.inside_eq_error.1 h
        exact f.settled_inside next.start
      · cases h

namespace Markup

variable {operand : Extent → Parser Tree}

/-- A comment fails with a settled failure. -/
theorem comment_settles : comment.Settles := by
  intro s e _ h
  obtain ⟨stopped, -, rfl⟩ := comment_eq_error h
  exact Failure.settled_of_cause fun _ h => by cases h

/-- The body of a raw block fails with a settled failure. -/
theorem rawBody_settled {opener s : Input} {e : Failure}
    (h : (rawBody opener).parser s = .error e) : e.Settled := by
  obtain rfl := rawBody_eq_error h
  exact Failure.settled_of_cause fun _ h => by cases h

/-- A statement fails with a settled failure. -/
theorem statement_settles : (statement operand).Settles := by
  intro s e hs h
  obtain h | ⟨read, s', -, h⟩ := statement_eq_error h
  · exact Part.settled_of_enclosed rfl hs h
  · exact rawBody_settled h

/-- An element fails with a settled failure. -/
theorem element_settles (x : Reading (List Tree)) : (element operand x).Settles := by
  intro s e hs h
  simp only [element, Reading.parser_bind, Reading.parser_quiet, Reading.parser_inside] at h
  rcases Parser.bind_eq_error.1 h with h | ⟨here, s', hhere, hread⟩
  · cases h
  · obtain ⟨rfl, rfl⟩ := Reading.parser_here_eq_ok.1 hhere
    rcases Parser.bind_eq_error.1 hread with h | ⟨first, s₁, -, h⟩
    · exact opener.settled_of_read rfl hs h
    · obtain ⟨f, -, rfl⟩ := Parser.inside_eq_error.1 h
      exact f.settled_inside _

/-- An element that is refused fails with a settled failure. -/
theorem tooDeep_settles : tooDeep.Settles := by
  intro s e hs h
  have heq : tooDeep.parser s =
      (opener.read >>= fun _ => Parser.fail .nestingTooDeep s : Parser Tree) s := rfl
  rw [heq] at h
  rcases Parser.bind_eq_error.1 h with h | ⟨_, _, _, h⟩
  · exact opener.settled_of_read rfl hs h
  · cases h
    exact Failure.settled_of_cause nofun

/-- An item fails with a settled failure, if the elements that it may be do. -/
theorem itemOf_settles {element : Reading Tree} (he : element.Settles) :
    (itemOf operand element).Settles := by
  intro s e hs h
  simp only [Reading.parser, itemOf_eq] at h
  split at h
  case h_1 => cases h
  case h_2 => exact Part.settled_of_enclosed rfl hs h
  case h_3 => exact statement_settles hs h
  case h_4 => exact comment_settles hs (Reading.parser_single_eq_error.1 h)
  case h_5 => exact he hs (Reading.parser_single_eq_error.1 h)
  case h_6 =>
    cases h
    exact Failure.settled_of_found hs

/-- An item fails with a settled failure, where something is left to read. -/
theorem item_settles (recover : Bool) (depth : Nat) : (item recover depth).Settles := by
  cases depth with
  | zero => exact itemOf_settles tooDeep_settles
  | succ depth => exact itemOf_settles (element_settles _)

end Markup

/-! ## Items with and without recovery -/

namespace Markup

variable {operand : Extent → Parser Tree}

/-- Comments report no faults. -/
theorem comment_agrees : comment.Agrees comment := .refl fun _ => rfl

/-- The bodies of raw blocks report no faults. -/
theorem rawBody_agrees (opener : Input) : (rawBody opener).Agrees (rawBody opener) := by
  refine .refl fun s => ?_
  unfold rawBody
  dsimp only
  split <;> rfl

/-- Statements report no faults. -/
theorem statement_agrees : (statement operand).Agrees (statement operand) := by
  refine .bind .here fun s => .bind (.quiet _) fun ts => ?_
  split
  · exact .bind (rawBody_agrees s) fun _ => .pure _
  · exact .pure _

/-- The body of an element agrees with one that recovers in its items, if these items agree. -/
theorem body_agrees {x y : Reading (List Tree)} (hxy : x.Agrees y) (hx : x.Settles) :
    (body x).Agrees (body y.recovering) := by
  intro s
  induction hn : s.length using Nat.strongRecOn generalizing s with
  | ind n ih =>
    by_cases hs : s = []
    · subst hs
      rw [body, body, if_pos rfl, if_pos rfl]
      exact ⟨rfl, nofun, fun he => .inl he⟩
    by_cases hfooter : atFooter s = true
    · rw [body, body, if_neg hs, if_neg hs, if_pos hfooter, if_pos hfooter]
      exact ⟨rfl, fun _ => rfl, nofun⟩
    rw [body, body, if_neg hs, if_neg hs, if_neg hfooter, if_neg hfooter]
    cases hresult : (x s).result with
    | error e =>
      -- The first item is malformed. The reader that recovers reports that and goes on.
      have hmem := (hxy s).mem_settle hresult (s := s)
      simp only [hresult, Reading.recovering]
      refine ⟨(hxy s).faultless, nofun, fun he => .inr ?_⟩
      cases he
      refine ⟨hx hs hresult, ?_⟩
      split
      · rw [faultsOf_append]
        exact List.mem_append_left _ hmem
      · exact hmem
    | ok a =>
      -- The first item is the same for both.
      obtain ⟨trees, rest⟩ := a
      have hsame : y.recovering s = x s := by
        rw [Reading.recovering, (hxy s).settle_ok hresult]
        exact congrArg (Reply.mk _) hresult.symm
      simp only [hsame, hresult]
      split
      · rename_i hlt
        obtain ⟨hnone, hok, herror⟩ := ih rest.length (hn ▸ hlt) rest rfl
        refine ⟨?_, fun h => ?_, fun h => ?_⟩
        · rw [faultsOf_append, (hxy s).faultless, hnone, List.nil_append]
        · cases hmore : (body x rest).result with
          | error e =>
            rw [hmore] at h
            cases h
          | ok b => rw [hok hmore, hmore]
        · cases hmore : (body x rest).result with
          | ok b =>
            rw [hmore] at h
            cases h
          | error e =>
            rw [hmore] at h
            cases h
            rcases herror hmore with hfail | ⟨hsettled, hmem⟩
            · left
              rw [hfail]
              rfl
            · right
              rw [faultsOf_append]
              exact ⟨hsettled, List.mem_append_right _ hmem⟩
      · exact ⟨(hxy s).faultless, fun _ => rfl, nofun⟩

/-- Elements agree, if their bodies do. -/
theorem element_agrees {x y : Reading (List Tree)} (h : (body x).Agrees (body y)) :
    (element operand x).Agrees (element operand y) := by
  refine .bind .here fun s => .bind (.quiet _) fun first => .inside s ?_
  refine .bind (.quiet _) fun tag => .bind (.quiet _) fun stop => ?_
  split
  · exact .pure _
  · exact .bind h fun items => .bind (.quiet _) fun closing => .pure _

/-- An element that is refused reports no faults. -/
theorem tooDeep_agrees : tooDeep.Agrees tooDeep := .bind .here fun _ => .quiet _

/-- Items agree, if the elements that they may be do. -/
theorem itemOf_agrees {x y : Reading Tree} (h : x.Agrees y) :
    (itemOf operand x).Agrees (itemOf operand y) := by
  refine .bind .here fun s => ?_
  dsimp only
  split
  · exact .quiet _
  · exact .quiet _
  · exact statement_agrees
  · exact .bind comment_agrees fun _ => .pure _
  · exact .bind h fun _ => .pure _
  · exact .quiet _

/-- Reading an item without recovery agrees with reading it with recovery. -/
theorem item_agrees (depth : Nat) : (item false depth).Agrees (item true depth) := by
  induction depth with
  | zero => exact itemOf_agrees tooDeep_agrees
  | succ depth ih =>
    exact itemOf_agrees (element_agrees (body_agrees ih (item_settles false depth)))

end Markup

/-! ## Steps with and without recovery -/

/-- The steps of a strict reader agree with those of one that recovers. -/
inductive StepsAgree : List Step → List Step → Prop
  /-- No fault is reported, and the steps are the same. -/
  | same (done : List Step) (hnone : faultsOf (done.flatMap Step.events) = []) :
    StepsAgree done done
  /-- The steps are the same up to the one in which the strict reader gives up. What that reports is
  reported by the other reader too. -/
  | parted (kept : List Step) (last first : Step) (more : List Step) (fault : Fault)
    (skipped : List Char) (hone : faultsOf ((kept ++ [last]).flatMap Step.events) = [fault])
    (hmem : fault ∈ faultsOf first.events) (hlast : last.trees = [.leaf none .error [] skipped]) :
    StepsAgree (kept ++ [last]) (kept ++ first :: more)

/-- Steps agree after a step that is the same and reports no fault. -/
theorem StepsAgree.cons {step : Step} {strict lenient : List Step}
    (hnone : faultsOf step.events = []) (h : StepsAgree strict lenient) :
    StepsAgree (step :: strict) (step :: lenient) := by
  cases h with
  | same done hdone =>
    refine .same _ ?_
    rw [List.flatMap_cons, faultsOf_append, hnone, hdone, List.append_nil]
  | parted kept last first more fault skipped hone hmem hlast =>
    refine .parted (step :: kept) last first more fault skipped ?_ hmem hlast
    rw [List.cons_append, List.flatMap_cons, faultsOf_append, hnone, hone, List.nil_append]

namespace Template

/-- Reading in steps without recovery agrees with reading in steps with recovery. -/
theorem steps_agree (options : Options) (s : Input) :
    StepsAgree (steps { options with recover := false } s)
      (steps { options with recover := true } s) := by
  induction s using steps_induction { options with recover := false } with
  | nil =>
    rw [steps_nil, steps_nil]
    exact .same [] rfl
  | cons s hs ih =>
    have hagrees := Markup.item_agrees options.maxDepth s
    rw [steps_eq_cons _ hs, steps_eq_cons _ hs]
    cases hresult : (Markup.item false options.maxDepth s).result with
    | ok a =>
      -- Both readers take the same step.
      obtain ⟨trees, rest⟩ := a
      have hstrict : step { options with recover := false } s =
          ⟨trees, (Markup.item false options.maxDepth s).events, rest⟩ := by
        show Reply.settle false s _ = _
        rw [Reply.settle, hresult]
      have hlenient : step { options with recover := true } s =
          ⟨trees, (Markup.item false options.maxDepth s).events, rest⟩ :=
        hagrees.settle_ok hresult true
      rw [hstrict] at ih ⊢
      rw [hlenient]
      exact ih.cons hagrees.faultless
    | error e =>
      -- The strict reader gives up.
      have hstrict : step { options with recover := false } s =
          ⟨[.leaf none .error [] (s.take (s.length - 0))],
            (Markup.item false options.maxDepth s).events ++
              [.skipped e.toFault ⟨s, s.take (s.length - 0)⟩], []⟩ := by
        show Reply.settle false s _ = _
        rw [Reply.settle, hresult]
        rfl
      rw [hstrict, steps_nil]
      refine .parted [] _ _ _ e.toFault _ ?_ (hagrees.mem_settle hresult) rfl
      rw [List.nil_append, List.flatMap_singleton, faultsOf_append, hagrees.faultless]
      rfl

/-- The diagnostics of some events are those of the faults that they report. -/
theorem faults_eq (size : Nat) (events : List Event) :
    faults size events = (faultsOf events).map (Fault.diagnose size) := by
  rw [faults, faultsOf, List.map_filterMap]

/-- The diagnostics of some steps are those of the faults that they report, in order. -/
theorem errors_ofSteps (source : Input) (done : List Step) :
    (ofSteps source done).errors =
      arrange ((faultsOf (done.flatMap Step.events)).map (Fault.diagnose (byteLength source))) :=
  congrArg arrange (faults_eq _ _)

/-- What is reported of some steps is the diagnosis of a fault that they report. -/
theorem mem_errors_ofSteps {source : Input} {done : List Step} {d : Diagnostic} :
    d ∈ (ofSteps source done).errors ↔
      ∃ f ∈ faultsOf (done.flatMap Step.events), f.diagnose (byteLength source) = d := by
  rw [errors_ofSteps, mem_arrange, List.mem_map]

/-- Nothing is reported of steps that report no fault, and only of these. -/
theorem errors_ofSteps_eq_nil {source : Input} {done : List Step} :
    (ofSteps source done).errors = [] ↔ faultsOf (done.flatMap Step.events) = [] := by
  constructor
  · intro h
    refine List.eq_nil_iff_forall_not_mem.2 fun f hf => ?_
    have hmem := (@mem_errors_ofSteps source done _).2 ⟨f, hf, rfl⟩
    rw [h] at hmem
    cases hmem
  · intro h
    rw [errors_ofSteps, h, List.map_nil, arrange_nil]

end Template

/-- What a strict reader makes of a template agrees with what one makes of it that recovers. -/
structure Parse.Agrees (strict lenient : Parse) : Prop where
  /-- Both report faults or none does. -/
  errors : strict.errors = [] ↔ lenient.errors = []
  /-- Without faults the nodes are the same. -/
  root : strict.errors = [] → strict.tree.root = lenient.tree.root
  /-- Else the strict reader reports one fault, which the other one reports too, and the nodes are
  the same up to the error that stands for it. -/
  first : strict.errors ≠ [] → ∃ d kept error, strict.errors = [d] ∧ d ∈ lenient.errors ∧
    strict.tree.root.children = kept ++ [error] ∧ error.kind = .error ∧
    kept <+: lenient.tree.root.children

namespace Template

/-- What agreeing steps come to agrees. -/
theorem agrees_of_stepsAgree {strict lenient : List Step} (h : StepsAgree strict lenient)
    (source : Input) : (ofSteps source strict).Agrees (ofSteps source lenient) := by
  cases h with
  | same _ hnone =>
    have hnoErrors : (ofSteps source strict).errors = [] := errors_ofSteps_eq_nil.2 hnone
    exact ⟨Iff.rfl, fun _ => rfl, fun h => absurd hnoErrors h⟩
  | parted kept last first more fault skipped hone hmem hlast =>
    have hstrict : (ofSteps source (kept ++ [last])).errors =
        [fault.diagnose (byteLength source)] := by
      rw [errors_ofSteps, hone, List.map_singleton, arrange_singleton]
    have hlenient : fault.diagnose (byteLength source) ∈
        (ofSteps source (kept ++ first :: more)).errors := by
      refine mem_errors_ofSteps.2 ⟨fault, ?_, rfl⟩
      rw [List.flatMap_append, List.flatMap_cons, faultsOf_append, faultsOf_append]
      exact List.mem_append_right _ (List.mem_append_left _ hmem)
    have hne : (ofSteps source (kept ++ first :: more)).errors ≠ [] :=
      List.ne_nil_of_mem hlenient
    refine ⟨?_, fun h => ?_, fun _ => ?_⟩
    · rw [hstrict]
      exact ⟨nofun, fun h => absurd h hne⟩
    · rw [hstrict] at h
      cases h
    · -- The nodes of the steps that are the same stand at the same places.
      have hplace : ∀ done : List Step, (ofSteps source (kept ++ done)).tree.root.children =
          Tree.placeAll 0 0 (kept.flatMap Step.trees) ++
            Tree.placeAll (0 + Tree.sizes (kept.flatMap Step.trees))
              (0 + byteLength (Tree.sources (kept.flatMap Step.trees)))
              (done.flatMap Step.trees) := by
        intro done
        rw [Tree.root, Tree.place_children, ← Tree.placeAll_append, ← List.flatMap_append]
        rfl
      have hchildren : (ofSteps source (kept ++ [last])).tree.root.children =
          Tree.placeAll 0 0 (kept.flatMap Step.trees) ++
            [(Tree.leaf none .error [] skipped).place (0 + Tree.sizes (kept.flatMap Step.trees))
              (0 + byteLength (Tree.sources (kept.flatMap Step.trees)))] := by
        rw [hplace, List.flatMap_singleton, hlast]
        rfl
      have hfirst : Tree.placeAll 0 0 (kept.flatMap Step.trees) <+:
          (ofSteps source (kept ++ first :: more)).tree.root.children := by
        rw [hplace]
        exact List.prefix_append _ _
      exact ⟨_, _, _, hstrict, hlenient, hchildren, rfl, hfirst⟩

/-- Reading a template without recovery agrees with reading it with recovery. -/
theorem parse_recovery_agrees (options : Options) (source : Input) :
    (parse { options with recover := false } source).Agrees
      (parse { options with recover := true } source) :=
  agrees_of_stepsAgree (steps_agree options source) source

end Template

end Stencil
