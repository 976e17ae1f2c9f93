import Stencil.Proofs.Elements
import Stencil.Proofs.Errors
import Stencil.Proofs.Lookahead

/-!
# Errors and faults account for each other

Every fault that a reader reports lies in a stretch for which an error stands in the tree, and in
every such stretch lies a fault (`Accounts`). It is so of an item that is read: the faults of the
items in its body are accounted for there (`Markup.item_accounting`). When an item fails, the errors
in it go with its trees while their faults stay; these lie in the item, and so in the one error that
stands for it (`Markup.settle_accounts`). The main statement is `Template.parse_accounted`.
-/

namespace Stencil

/-- A fault lies in a region, whose ends belong to it. -/
structure Region.Holds (r : Region) (f : Fault) : Prop where
  within : f.found <:+ r.start
  before : r.rest <:+ f.found

/-- A region that a reader skips: characters from a place where an item may begin that is no text,
up to the next such place or the end of the input. -/
structure Region.Skipped (r : Region) : Prop where
  text : r.text ≠ []
  source : r.text ++ r.rest = r.start
  begins : atOpener r.start = true
  ends : r.rest = [] ∨ atOpener r.rest = true

/-- Faults and regions that are skipped account for each other. -/
structure Accounts (faults : List Fault) (regions : List Region) : Prop where
  /-- A fault lies in a region. -/
  held : ∀ f ∈ faults, ∃ r ∈ regions, r.Holds f
  /-- There is a fault in every region. -/
  holds : ∀ r ∈ regions, ∃ f ∈ faults, r.Holds f
  skipped : ∀ r ∈ regions, r.Skipped

namespace Accounts

variable {faults more : List Fault} {regions others : List Region}

/-- Without faults there is nothing to account for. -/
theorem nil : Accounts [] [] := ⟨nofun, nofun, nofun⟩

/-- What accounts for each other in two parts does in both together. -/
theorem append (h : Accounts faults regions) (h' : Accounts more others) :
    Accounts (faults ++ more) (regions ++ others) := by
  refine ⟨fun f hf => ?_, fun r hr => ?_, fun r hr => ?_⟩
  · rcases List.mem_append.1 hf with hf | hf
    · obtain ⟨r, hr, hholds⟩ := h.held f hf
      exact ⟨r, List.mem_append_left _ hr, hholds⟩
    · obtain ⟨r, hr, hholds⟩ := h'.held f hf
      exact ⟨r, List.mem_append_right _ hr, hholds⟩
  · rcases List.mem_append.1 hr with hr | hr
    · obtain ⟨f, hf, hholds⟩ := h.holds r hr
      exact ⟨f, List.mem_append_left _ hf, hholds⟩
    · obtain ⟨f, hf, hholds⟩ := h'.holds r hr
      exact ⟨f, List.mem_append_right _ hf, hholds⟩
  · rcases List.mem_append.1 hr with hr | hr
    · exact h.skipped r hr
    · exact h'.skipped r hr

/-- There are regions where there are faults, and only there. -/
theorem eq_nil_iff (h : Accounts faults regions) : faults = [] ↔ regions = [] := by
  constructor
  · rintro rfl
    refine List.eq_nil_iff_forall_not_mem.2 fun r hr => ?_
    obtain ⟨f, hf, -⟩ := h.holds r hr
    cases hf
  · rintro rfl
    refine List.eq_nil_iff_forall_not_mem.2 fun f hf => ?_
    obtain ⟨r, hr, -⟩ := h.held f hf
    cases hr

end Accounts

/-- What becomes of a malformed item: an error stands for what is skipped. -/
theorem Reply.settle_error {recover : Bool} {s rest : Input} {reply : Reply (List Tree)}
    {failure : Failure} (h : reply.result = .error failure)
    (hrest : (if recover then failure.resume s else []) = rest) :
    reply.settle recover s = ⟨[.leaf none .error [] (s.take (s.length - rest.length))],
      reply.events ++ [.skipped failure.toFault ⟨s, s.take (s.length - rest.length)⟩], rest⟩ := by
  subst hrest
  rw [settle, h]

/-- Reading goes on at the next place after the one where the reader gave up, if that had read
something. -/
theorem Failure.resume_of_lt {s : Input} {e : Failure} (h : e.stopped.length < s.length) :
    e.resume s = nextItem e.stopped := by
  rw [resume, if_pos h, nextItem]

namespace Markup

variable {operand : Extent → Parser Tree}

/-! ## Items -/

/-- A reader of items in whose trees the errors and the faults that it reports account for each
other, and that fails only where an item may begin that is no text. -/
structure Accounting (x : Reading (List Tree)) : Prop where
  ok : ∀ {s ts rest}, s ≠ [] → x.parser s = .ok (ts, rest) →
    Accounts (faultsOf (x s).events) (Tree.errorsAmong s ts)
  error : ∀ {s e}, s ≠ [] → x.parser s = .error e → atOpener s = true

/-- The trees of what stands between a token of text and its counterpart hold no errors. -/
theorem errors_of_enclosed (ho : Part.Operands operand) {kind : Kind} {opening : Terminal}
    {parts : List Part} (hkind : kind.isErrorFree = true)
    (hroot : Part.enclosed none kind opening parts ∈ Grammar.roots) {s rest : Input}
    {ts : List Tree} (h : (Part.enclosed none kind opening parts).read operand s = .ok (ts, rest)) :
    Tree.errorsAmong s ts = [] := by
  obtain ⟨hfits, hformed⟩ := Part.every_formed (fun h => h) _ (Part.hasTokens_of_mem hroot)
    (Part.covered_of_mem hroot) (Part.read_yields (fun h => ho.formed h) _ h)
  have hfree : (Part.enclosed none kind opening parts).isErrorFree = true := hkind
  exact Tree.errorsAmong_eq_nil s hformed (Part.isErrorFree_of_fits _ hfree hfits)

/-- There are no errors in a statement, nor in the body of the raw block that it may begin. -/
theorem errors_of_statement (ho : Part.Operands operand) {s rest : Input} {ts : List Tree}
    (h : (statement operand).parser s = .ok (ts, rest)) : Tree.errorsAmong s ts = [] := by
  obtain ⟨read, s', hread, h⟩ := statement_eq_ok.1 h
  have hroot : Part.statement ∈ Grammar.roots := by simp [Grammar.roots]
  have hnone := errors_of_enclosed ho rfl hroot hread
  obtain ⟨-, rfl, rfl⟩ | ⟨-, body, hbody, rfl⟩ := h
  · exact hnone
  · rw [Tree.errorsAmong_append (Part.read_append ho.source _ hread), hnone, List.nil_append]
    obtain ⟨-, -, rfl⟩ := rawBody_eq_ok.1 hbody
    split
    · rfl
    · rfl

/-- There are no errors in a comment. -/
theorem errors_of_comment {s rest : Input} {t : Tree} (h : comment.parser s = .ok (t, rest)) :
    t.errors s = [] := by
  cases commentTree_of_comment h with
  | empty | filled => rfl

/-- What accounts for each other in the items of a body does in the body. -/
theorem body_accounts {x : Reading (List Tree)} (hx : Accounting x) (hitems : ReadsItems x)
    {s rest : Input} {ts : List Tree} (h : (body x).parser s = .ok (ts, rest)) :
    Accounts (faultsOf (body x s).events) (Tree.errorsAmong s ts) := by
  simp only [Reading.parser] at h
  fun_induction body x s generalizing ts rest with
  | case1 => cases h
  | case2 =>
    cases h
    exact .nil
  | case3 => cases h
  | case4 s hs _ first trees r hfirst _ =>
    rename_i more ih
    -- The first item, and the items after it.
    obtain ⟨-, -, hsource⟩ := hitems.items hs hfirst
    cases hmore : more.result with
    | error failure =>
      rw [hmore] at h
      cases h
    | ok a =>
      rw [hmore] at h
      cases h
      rw [faultsOf_append, Tree.errorsAmong_append hsource]
      exact (hx.ok hs hfirst).append (ih hmore)
  | case5 s hs _ first trees r =>
    rename_i hfirst _
    cases h
    exact hx.ok hs hfirst

/-- The trees of an opening tag hold no errors, and what is left after them is behind them. -/
theorem Opened.errors (ho : Part.Operands operand) {s rest : Input} {tag stop : List Tree}
    (h : Opened operand s tag stop rest) :
    Tree.errorsAmong s tag = [] ∧ Tree.sources tag ++ rest = s := by
  obtain ⟨first, s₁, inner, s₂, hfirst, hinner, hstop, rfl⟩ := h
  have hfree : Part.areErrorFree (.token opener :: (header ++ headerEnd)) = true := by decide
  obtain ⟨hfits, hformed⟩ := tag_formed ho hfirst hinner hstop
  refine ⟨Tree.errorsAmong_eq_nil s hformed (Part.areErrorFree_of_fitsAll _ hfree hfits), ?_⟩
  have hfirst := Terminal.read_append hfirst
  have hinner := Part.readAll_append ho.source _ hinner
  have hstop := Part.readAll_append ho.source _ hstop
  rw [Tree.sources_append, Tree.sources, List.append_assoc, List.append_assoc, hstop, hinner,
    hfirst]

/-- In an element the errors and the faults are those of its body. -/
theorem element_accounts (ho : Part.Operands operand) {x : Reading (List Tree)}
    (hx : Accounting x) (hitems : ReadsItems x) {s rest : Input} {t : Tree}
    (h : (element operand x).parser s = .ok (t, rest)) :
    Accounts (faultsOf (element operand x s).events) (t.errors s) := by
  have hreply := element_reply operand x s
  generalize hr : element operand x s = reply at hreply ⊢
  have h : reply.result = .ok (t, rest) := hr ▸ h
  cases hreply with
  | unopened | malformed | unclosed | footer => cases h
  | selfClosing htag =>
    cases h
    rw [Tree.errors, (htag.errors ho).1]
    exact .nil
  | closed htag hbody hclosing =>
    cases h
    obtain ⟨hnone, hsource⟩ := htag.errors ho
    obtain ⟨-, hitemsSource⟩ := body_items hitems hbody
    -- The closing tag holds no errors either.
    have hfree : Part.areErrorFree footer = true := by decide
    have hcovered : Part.Covered (Part.productionsOf footer) := Part.covered_nil
    obtain ⟨hfits, hformed⟩ := Part.readAll_formed ho rfl hcovered hclosing
    have hclosingNone := fun s =>
      Tree.errorsAmong_eq_nil s hformed (Part.areErrorFree_of_fitsAll _ hfree hfits)
    rw [Tree.errors, List.append_assoc, Tree.errorsAmong_append hsource, hnone, List.nil_append,
      Tree.errorsAmong_append hitemsSource, hclosingNone, List.append_nil]
    exact body_accounts hx hitems hbody

/-- Where there is no text an item may begin. -/
theorem atOpener_of_ne_text {s : Input} (hs : s ≠ []) (h : (Token.scanText s).kind ≠ .text) :
    atOpener s = true := by
  cases hopener : atOpener s with
  | true => rfl
  | false =>
    rw [Token.scanText_of_not_atOpener hs hopener] at h
    exact absurd rfl h

/-- In an item the errors and the faults account for each other, if they do in the elements that it
may be. -/
theorem itemOf_accounting (ho : Part.Operands operand) {element : Reading Tree}
    (he : ∀ {s t rest}, element.parser s = .ok (t, rest) →
      Accounts (faultsOf (element s).events) (t.errors s)) :
    Accounting (itemOf operand element) := by
  constructor
  · intro s ts rest hs h
    -- A single tree holds what it does as a row.
    have single : ∀ t : Tree, Tree.errorsAmong s [t] = t.errors s :=
      fun t => List.append_nil (t.errors s)
    simp only [Reading.parser, itemOf_eq] at h
    rw [itemOf_eq]
    split at h
    case h_1 =>
      cases h
      exact .nil
    case h_2 =>
      have hroot : Part.value none .text "`\x7b\x7b`" ∈ Grammar.roots := by simp [Grammar.roots]
      rw [errors_of_enclosed ho rfl hroot h]
      exact .nil
    case h_3 =>
      rw [(statement_agrees s).faultless, errors_of_statement ho h]
      exact .nil
    case h_4 =>
      obtain ⟨t, ht, rfl⟩ := Reading.parser_single_eq_ok.1 h
      rw [(Reading.events_map comment (fun t => [t]) s).1, (comment_agrees s).faultless, single,
        errors_of_comment ht]
      exact .nil
    case h_5 =>
      obtain ⟨t, ht, rfl⟩ := Reading.parser_single_eq_ok.1 h
      rw [(Reading.events_map element (fun t => [t]) s).1, single]
      exact he ht
    case h_6 => cases h
  · intro s e hs h
    refine atOpener_of_ne_text hs fun htext => ?_
    simp only [Reading.parser, itemOf_eq, htext] at h
    cases h

/-- The error that stands for what is skipped accounts for the faults in it, if there are some. -/
theorem skipped_accounts {s rest : Input} (hrest : rest <:+ s ∧ rest.length < s.length)
    (hbegins : atOpener s = true) (hends : rest = [] ∨ atOpener rest = true) {faults : List Fault}
    (hne : faults ≠ []) (hfaults : ∀ f ∈ faults, f.found <:+ s ∧ rest <:+ f.found) :
    Accounts faults
      (Tree.errorsAmong s [.leaf none .error [] (s.take (s.length - rest.length))]) := by
  obtain ⟨hitem, hsource⟩ := skipped_item hrest.1 hrest.2
  generalize s.take (s.length - rest.length) = skipped at hitem hsource ⊢
  have hregions : Tree.errorsAmong s [.leaf none .error [] skipped] = [⟨s, skipped⟩] := rfl
  have hend : Region.rest ⟨s, skipped⟩ = rest := by
    rw [Region.rest, ← hsource, List.drop_left]
  have hholds : ∀ f ∈ faults, Region.Holds ⟨s, skipped⟩ f := fun f hf =>
    ⟨(hfaults f hf).1, hend.symm ▸ (hfaults f hf).2⟩
  rw [hregions]
  constructor
  · exact fun f hf => ⟨_, List.mem_singleton.2 rfl, hholds f hf⟩
  · rw [List.forall_mem_singleton]
    obtain ⟨f, hf⟩ := List.exists_mem_of_ne_nil faults hne
    exact ⟨f, hf, hholds f hf⟩
  · rw [List.forall_mem_singleton]
    exact ⟨hitem.spaced.2.2, hend.symm ▸ hsource, hbegins, hend.symm ▸ hends⟩

/-- The error that stands for a malformed item accounts for its faults, and what an item comes to
that is read accounts for those that it reports. -/
theorem settle_accounts {x : Reading (List Tree)} (hx : Accounting x) (hlies : FaultsLie x)
    (hitems : ReadsItems x) {s : Input} (hs : s ≠ []) :
    Accounts (faultsOf ((x s).settle true s).events)
      (Tree.errorsAmong s ((x s).settle true s).trees) := by
  have hfaults := fun f (hf : f ∈ faultsOf ((x s).settle true s).events) =>
    (settle_lies hlies hitems.within hs hf).1
  cases hresult : (x s).result with
  | ok a =>
    rw [Reply.settle, hresult]
    exact hx.ok hs hresult
  | error e =>
    have hsettle : (x s).settle true s = _ := Reply.settle_error hresult (if_pos rfl)
    have hresume := resume_suffix hs (hitems.within.stopped hresult)
    rw [hsettle] at hfaults ⊢
    refine skipped_accounts hresume (hx.error hs hresult) ?_ ?_ fun f hf => ?_
    · rw [Failure.resume]
      exact or_iff_not_imp_left.2 splitBefore_stops
    · rw [faultsOf_append]
      exact List.append_ne_nil_of_right_ne_nil _ (List.cons_ne_nil _ _)
    · exact ⟨(hfaults f hf).within, (hfaults f hf).before⟩

/-- In the items that a reader answers that recovers the errors and the faults account for each
other. -/
theorem recovering_accounting {x : Reading (List Tree)} (hx : Accounting x) (hlies : FaultsLie x)
    (hitems : ReadsItems x) : Accounting x.recovering := by
  constructor
  · intro s ts rest hs h
    cases h
    exact settle_accounts hx hlies hitems hs
  · intro s e _ h
    cases h

/-- In an item the errors and the faults account for each other. -/
theorem item_accounting (recover : Bool) (depth : Nat) : Accounting (item recover depth) := by
  induction depth with
  | zero =>
    exact itemOf_accounting (Part.operands_expression 0) fun h => absurd h tooDeep_ne_ok
  | succ depth ih =>
    have hitems := item_readsItems recover depth
    refine itemOf_accounting (Part.operands_expression (depth + 1)) fun h => ?_
    refine element_accounts (Part.operands_expression depth) ?_ ?_ h
    · cases recover with
      | true => exact recovering_accounting ih (item_faultsLie depth) hitems
      | false => exact ih
    · cases recover with
      | true => exact recovering_readsItems hitems
      | false => exact hitems

end Markup

/-! ## Steps -/

namespace Template

/-- In a step the errors and the faults account for each other. -/
theorem step_accounts (options : Options) {s : Input} (hs : s ≠ []) :
    Accounts (faultsOf (step options s).events) (Tree.errorsAmong s (step options s).trees) := by
  obtain ⟨recover, maxDepth, hpos⟩ := options
  have hitem := Markup.item_accounting recover maxDepth
  cases recover with
  | true =>
    exact Markup.settle_accounts hitem (Markup.item_faultsLie maxDepth)
      (Markup.item_readsItems true maxDepth) hs
  | false =>
    have hfound : ∀ f ∈ faultsOf (step ⟨false, maxDepth, hpos⟩ s).events, f.found <:+ s := by
      intro f hf
      refine (steps_found ⟨false, maxDepth, hpos⟩ (s := s) ?_).1
      rw [steps_eq_cons _ hs, List.flatMap_cons, faultsOf_append]
      exact List.mem_append_left _ hf
    have hstep : step ⟨false, maxDepth, hpos⟩ s =
        (Markup.item false maxDepth s).settle false s := rfl
    cases hresult : (Markup.item false maxDepth s).result with
    | ok a =>
      rw [hstep, Reply.settle, hresult]
      exact hitem.ok hs hresult
    | error e =>
      -- All that is left is given up.
      rw [hstep, Reply.settle_error (s := s) hresult (if_neg Bool.false_ne_true)] at hfound ⊢
      have hrest : [] <:+ s ∧ ([] : Input).length < s.length :=
        ⟨List.nil_suffix, List.length_pos_iff.2 hs⟩
      refine Markup.skipped_accounts hrest (hitem.error hs hresult) (.inl rfl) ?_
        fun f hf => ⟨hfound f hf, List.nil_suffix⟩
      rw [faultsOf_append]
      exact List.append_ne_nil_of_right_ne_nil _ (List.cons_ne_nil _ _)

/-- In the steps of a template the errors and the faults account for each other. -/
theorem steps_accounts (options : Options) (s : Input) :
    Accounts (faultsOf ((steps options s).flatMap Step.events))
      (Tree.errorsAmong s ((steps options s).flatMap Step.trees)) := by
  induction s using steps_induction options with
  | nil =>
    rw [steps_nil]
    exact .nil
  | cons s hs ih =>
    rw [steps_eq_cons options hs, List.flatMap_cons, List.flatMap_cons, faultsOf_append,
      Tree.errorsAmong_append (step_reads options hs).source]
    exact (step_accounts options hs).append ih

/-- A strict reader reports no fault, or one in the last step, for which the last of the trees
stands. -/
theorem steps_strict {options : Options} (hstrict : options.recover = false) (s : Input) :
    faultsOf ((steps options s).flatMap Step.events) = [] ∨
      ∃ kept skipped fault,
        (steps options s).flatMap Step.trees = kept ++ [.leaf none .error [] skipped] ∧
        Tree.errorsAmong s kept = [] ∧
        faultsOf ((steps options s).flatMap Step.events) = [fault] := by
  obtain ⟨recover, maxDepth, hpos⟩ := options
  obtain rfl : recover = false := hstrict
  generalize hoptions : (⟨false, maxDepth, hpos⟩ : Options) = options
  induction s using steps_induction options with
  | nil =>
    rw [steps_nil]
    exact .inl rfl
  | cons s hs ih =>
    have haccounts := step_accounts options hs
    have hsource := (step_reads options hs).source
    have hstep : step options s = (Markup.item false maxDepth s).settle false s := by
      rw [← hoptions]
      rfl
    have hfaultless := (Markup.item_agrees maxDepth s).faultless
    rw [steps_eq_cons options hs, List.flatMap_cons, List.flatMap_cons, faultsOf_append]
    cases hresult : (Markup.item false maxDepth s).result with
    | ok a =>
      -- The step reports nothing and holds no errors, so that the others decide.
      have hnone : faultsOf (step options s).events = [] := by
        rw [hstep, Reply.settle, hresult]
        exact hfaultless
      have hkept := haccounts.eq_nil_iff.1 hnone
      rw [hnone, List.nil_append]
      refine ih.imp_right ?_
      rintro ⟨kept, skipped, fault, htrees, hmore, hone⟩
      refine ⟨(step options s).trees ++ kept, skipped, fault, ?_, ?_, hone⟩
      · rw [htrees, List.append_assoc]
      · rw [Tree.errorsAmong_append hsource, hkept, hmore, List.append_nil]
    | error e =>
      have hsettle := Reply.settle_error (s := s) hresult (if_neg Bool.false_ne_true)
      rw [hstep, hsettle, steps_nil, faultsOf_append, hfaultless]
      exact .inr ⟨[], _, e.toFault, rfl, rfl, rfl⟩

end Template

/-! ## Templates -/

/-- The texts with which items begin that are no text. -/
def itemOpeners : List (List Char) := [['{', '{'], ['{', '%'], ['{', '#'], ['<']]

/-- One of these texts stands in `source` from byte `b` on. -/
def OpenerAt (source : Input) (b : Nat) : Prop :=
  ∃ opener ∈ itemOpeners, Between source b (b + byteLength opener) opener

/-- One of these texts comes next where an item may begin that is no text. -/
theorem itemOpener_of_atOpener {s : Input} (h : atOpener s = true) :
    ∃ opener ∈ itemOpeners, opener <+: s := by
  unfold atOpener at h
  split at h
  · rename_i c more
    simp only [Bool.or_eq_true, decide_eq_true_eq] at h
    refine ⟨['{', c], ?_, more, rfl⟩
    rcases h with (rfl | rfl) | rfl <;> simp [itemOpeners]
  · rename_i more
    exact ⟨['<'], by simp [itemOpeners], more, rfl⟩
  · cases h

/-- The text is there where an item may begin that is no text. -/
theorem openerAt_of_suffix {source rest : Input} (hrest : rest <:+ source)
    (h : atOpener rest = true) : OpenerAt source (offset (byteLength source) rest) := by
  obtain ⟨opener, hmem, more, rfl⟩ := itemOpener_of_atOpener h
  obtain ⟨before, rfl⟩ := hrest
  refine ⟨opener, hmem, before, more, rfl, ?_, rfl⟩
  rw [offset, byteLength_append before]
  omega

/-- The errors of a template and what is reported of it account for each other. -/
structure Parse.Accounted (p : Parse) : Prop where
  /-- Nothing is reported exactly if there are no errors. -/
  clean : p.errors = [] ↔ p.tree.root.errors = []
  /-- An error is a leaf that is not empty. -/
  leaf : ∀ n ∈ p.tree.root.errors, n.children = [] ∧ n.start < n.stop
  /-- It stands in the template itself or in an element. -/
  parent : ∀ n ∈ p.tree.root.errors, ∃ m ∈ p.tree.root.descendants,
    n ∈ m.children ∧ (m.kind = .sourceFile ∨ m.kind = .element)
  /-- It begins where an item may begin that is no text. -/
  begins : ∀ n ∈ p.tree.root.errors, OpenerAt p.source n.start
  /-- It ends with the source, or where an item may begin that is no text. -/
  ends : ∀ n ∈ p.tree.root.errors,
    n.stop = byteLength p.source ∨ OpenerAt p.source n.stop
  /-- What is reported lies in an error or at one of its ends. -/
  held : ∀ d ∈ p.errors, ∃ n ∈ p.tree.root.errors, n.start ≤ d.pos ∧ d.pos ≤ n.stop
  /-- Something is reported in every error or at one of its ends. -/
  holds : ∀ n ∈ p.tree.root.errors, ∃ d ∈ p.errors, n.start ≤ d.pos ∧ d.pos ≤ n.stop

/-- A reader gives up once. -/
structure Parse.GivesUpOnce (p : Parse) : Prop where
  /-- At most one thing is reported. -/
  errors : p.errors.length ≤ 1
  /-- There is at most one error. -/
  nodes : p.tree.root.errors.length ≤ 1
  /-- The error is the last of the items, and ends where the source does. -/
  last : ∀ n ∈ p.tree.root.errors,
    p.tree.root.children.getLast? = some n ∧ n.stop = byteLength p.source

/-- A region that is skipped stands between the places where it begins and ends. -/
theorem Region.Skipped.span {source : Input} {r : Region} (h : r.Skipped)
    (hstart : r.start <:+ source) :
    r.span (byteLength source) =
      (offset (byteLength source) r.start, offset (byteLength source) r.rest) := by
  have hsize := byteLength_le_of_suffix hstart
  rw [← h.source] at hsize
  have hrest := offset_append hsize
  rw [h.source] at hrest
  rw [Region.span, hrest]

/-- A node stands where a region of the source does. -/
structure Node.Stands (source : Input) (n : Node) (r : Region) : Prop where
  start : n.start = offset (byteLength source) r.start
  stop : n.stop = offset (byteLength source) r.rest

namespace Node.Stands

variable {source : Input} {n : Node} {r : Region}

/-- A fault in a region is diagnosed in the node that stands there, or at one of its ends. -/
theorem holds {f : Fault} (h : n.Stands source r) (hf : r.Holds f) :
    n.start ≤ (f.diagnose (byteLength source)).pos ∧
      (f.diagnose (byteLength source)).pos ≤ n.stop := by
  rw [h.start, h.stop]
  exact ⟨offset_le_of_suffix hf.within _, offset_le_of_suffix hf.before _⟩

/-- A node that stands where characters are skipped is not empty. -/
theorem start_lt_stop (h : n.Stands source r) (hr : r.Skipped) (hstart : r.start <:+ source) :
    n.start < n.stop := by
  obtain ⟨c, text, htext⟩ := List.exists_cons_of_ne_nil hr.text
  have hsize := byteLength_le_of_suffix hstart
  have hpos := c.utf8Size_pos
  have hlength := congrArg byteLength hr.source
  rw [byteLength_append, htext, byteLength] at hlength
  rw [h.start, h.stop, offset, offset]
  omega

end Node.Stands

namespace Tree

variable {items : List Tree}

/-- The nodes of kind `error` in a template that is a row of items stand where the regions do that
are skipped, if these are the errors. -/
theorem root_errors (hitems : ∀ t ∈ items, t.Item)
    (hskipped : ∀ r ∈ errorsAmong (sources items) items, r.Skipped) :
    (∀ n ∈ (node none .sourceFile items).root.errors,
        ∃ r ∈ errorsAmong (sources items) items, n.Stands (sources items) r) ∧
      ∀ r ∈ errorsAmong (sources items) items,
        ∃ n ∈ (node none .sourceFile items).root.errors, n.Stands (sources items) r := by
  have hformed : EveryOf Formed items := everyOf_iff.2 fun t ht => (hitems t ht).formed
  have hspans : (node none .sourceFile items).root.errors.map Node.span =
      (errorsAmong (sources items) items).map (Region.span (byteLength (sources items))) := by
    have h := placeAll_errors 0 hformed (List.append_nil (sources items)) (Nat.le_refl _)
    have hroot := @errors_place_node none .sourceFile (by decide)
    rwa [offset, Nat.sub_self, ← hroot] at h
  have hspan : ∀ {n : Node} {r : Region}, r ∈ errorsAmong (sources items) items →
      n.span = r.span (byteLength (sources items)) → n.Stands (sources items) r := by
    intro n r hr h
    rw [(hskipped r hr).span (start_suffix_of_mem_errorsAmong hr)] at h
    obtain ⟨hstart, hstop⟩ := Prod.mk.inj h
    exact ⟨hstart, hstop⟩
  constructor
  · intro n hn
    have hmem := List.mem_map_of_mem (f := Node.span) hn
    rw [hspans] at hmem
    obtain ⟨r, hr, h⟩ := List.mem_map.1 hmem
    exact ⟨r, hr, hspan hr h.symm⟩
  · intro r hr
    have hmem := List.mem_map_of_mem (f := Region.span (byteLength (sources items))) hr
    rw [← hspans] at hmem
    obtain ⟨n, hn, h⟩ := List.mem_map.1 hmem
    exact ⟨n, hn, hspan hr h⟩

/-- A template that is a row of items is accounted for, if the errors in it and its faults are. -/
theorem root_accounted (hitems : ∀ t ∈ items, t.Item) {p : Parse}
    (htree : p.tree = node none .sourceFile items) (hsource : sources items = p.source)
    {faults : List Fault} (h : Accounts faults (errorsAmong p.source items))
    (herrors : ∀ d, d ∈ p.errors ↔ ∃ f ∈ faults, f.diagnose (byteLength p.source) = d) :
    p.Accounted := by
  obtain ⟨source, tree, errors, records⟩ := p
  obtain rfl : tree = node none .sourceFile items := htree
  obtain rfl : sources items = source := hsource
  obtain ⟨hregion, hnode⟩ := root_errors hitems h.skipped
  have hleaf := fun n => root_errors_leaf (n := n) hitems
  have hstart : ∀ r ∈ errorsAmong (sources items) items, r.start <:+ sources items :=
    fun _ hr => start_suffix_of_mem_errorsAmong hr
  have hrest : ∀ r ∈ errorsAmong (sources items) items, r.rest <:+ sources items :=
    fun r hr => (List.drop_suffix _ _).trans (hstart r hr)
  refine ⟨?clean, ?leaf, fun n hn => (hleaf n hn).2, ?begins, ?ends, ?held, ?holds⟩
  case clean =>
    -- Diagnostics are there if faults are, and nodes if regions are.
    have hfaults : errors = [] ↔ faults = [] := by
      rw [List.eq_nil_iff_forall_not_mem, List.eq_nil_iff_forall_not_mem]
      refine ⟨fun hnone f hf => hnone _ ((herrors _).2 ⟨f, hf, rfl⟩), fun hnone d hd => ?_⟩
      obtain ⟨f, hf, -⟩ := (herrors d).1 hd
      exact hnone f hf
    have hnodes : errorsAmong (sources items) items = [] ↔
        (node none .sourceFile items).root.errors = [] := by
      rw [List.eq_nil_iff_forall_not_mem, List.eq_nil_iff_forall_not_mem]
      constructor
      · intro hnone n hn
        obtain ⟨r, hr, -⟩ := hregion n hn
        exact hnone r hr
      · intro hnone r hr
        obtain ⟨n, hn, -⟩ := hnode r hr
        exact hnone n hn
    exact hfaults.trans (h.eq_nil_iff.trans hnodes)
  case leaf =>
    intro n hn
    obtain ⟨r, hr, hstands⟩ := hregion n hn
    exact ⟨(hleaf n hn).1, hstands.start_lt_stop (h.skipped r hr) (hstart r hr)⟩
  case begins =>
    intro n hn
    obtain ⟨r, hr, hstands⟩ := hregion n hn
    rw [hstands.start]
    exact openerAt_of_suffix (hstart r hr) (h.skipped r hr).begins
  case ends =>
    intro n hn
    obtain ⟨r, hr, hstands⟩ := hregion n hn
    rw [hstands.stop]
    rcases (h.skipped r hr).ends with hnil | hopener
    · rw [hnil]
      exact .inl rfl
    · exact .inr (openerAt_of_suffix (hrest r hr) hopener)
  case held =>
    intro d hd
    obtain ⟨f, hf, rfl⟩ := (herrors d).1 hd
    obtain ⟨r, hr, hholds⟩ := h.held f hf
    obtain ⟨n, hn, hstands⟩ := hnode r hr
    exact ⟨n, hn, hstands.holds hholds⟩
  case holds =>
    intro n hn
    obtain ⟨r, hr, hstands⟩ := hregion n hn
    obtain ⟨f, hf, hholds⟩ := h.holds r hr
    exact ⟨_, (herrors _).2 ⟨f, hf, rfl⟩, hstands.holds hholds⟩

end Tree

namespace Template

/-- The errors in the tree of a template and what is reported of it account for each other. -/
theorem accounted (options : Options) (source : Input) : (parse options source).Accounted := by
  obtain ⟨hitems, hsource⟩ := steps_items options source
  exact Tree.root_accounted hitems rfl hsource (steps_accounts options source)
    fun d => mem_errors_ofSteps

/-- A reader that does not recover gives up once. -/
theorem givesUpOnce {options : Options} (hstrict : options.recover = false) (source : Input) :
    (parse options source).GivesUpOnce := by
  obtain ⟨hitems, hsource⟩ := steps_items options source
  rcases steps_strict hstrict source with hnone | ⟨kept, skipped, fault, htrees, hkept, hone⟩
  · -- Without faults there are no errors.
    have herrors : (parse options source).errors = [] := errors_ofSteps_eq_nil.2 hnone
    have hnodes := (accounted options source).clean.1 herrors
    refine ⟨by simp [herrors], by simp [hnodes], fun n hn => ?_⟩
    rw [hnodes] at hn
    cases hn
  · have herrors : (parse options source).errors = [fault.diagnose (byteLength source)] := by
      rw [parse, errors_ofSteps, hone, List.map_singleton, arrange_singleton]
    have htree : (parse options source).tree =
        .node none .sourceFile (kept ++ [.leaf none .error [] skipped]) := by
      rw [← htrees]
      rfl
    rw [htrees] at hitems hsource
    have hformed : Tree.EveryOf Tree.Formed kept :=
      Tree.everyOf_iff.2 fun t ht => (hitems t (List.mem_append_left _ ht)).formed
    obtain ⟨n, hnodes, hlast, hstop⟩ := Tree.root_errors_last hformed hkept hsource
    refine ⟨by simp [herrors], by simp [htree, hnodes], fun m hm => ?_⟩
    rw [htree, hnodes] at hm
    obtain rfl := List.mem_singleton.1 hm
    rw [htree]
    exact ⟨hlast, hstop⟩

/-- The errors in the tree of a template and what is reported of it account for each other, and a
reader that does not recover gives up once. -/
theorem parse_accounted (options : Options) (source : Input) :
    (parse options source).Accounted ∧
      (parse { options with recover := false } source).GivesUpOnce :=
  ⟨accounted options source, givesUpOnce rfl source⟩

end Template

end Stencil
