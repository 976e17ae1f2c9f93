import Stencil.Proofs.InPlace
import Stencil.Proofs.Progress

/-!
# Templates on the machine

An element has a row of its own for its body, and what goes wrong in it is noted while it is read.
So its reader is one with a journal, and the machine carries what this reader notes too
(`Machine.element_carries`). An item that is malformed is taken back and becomes an error, both in
the body of an element and in the template: row by row the machine comes to what the steps of the
template come to (`Row.Takes`, `Row.items_takes`). The main statement is `Machine.parse_eq`: reading
in place makes the nodes of the tree that is read, in the order of their numbers, and finds the same
faults.
-/

namespace Stencil

open Machine Row

variable {n : Nat} {m : Machine} {operand : Extent → Action Machine Nat}
  {reader : Extent → Parser Tree}

/-! ## Elements -/

namespace Machine

variable {α β γ δ : Type} {F : Form α β} {G : Form γ δ} {noted : List Fault}

/-- What is read after some trees, together with these. -/
theorem Carries.after (hm : m.Placed) {us ts : List Tree} {s : Input} (hs : Held m.rest us ts s)
    {o : Except Fault α × Machine} {noted' : List Fault} {p : Except Failure (β × Input)}
    (h : Carries F (m.advance us noted s) o noted' p) :
    Carries ⟨fun id b => F.value (id + Tree.sizes ts) b, fun b => ts ++ F.trees b⟩ m o
      (noted ++ noted') p := by
  rcases h.elim with ⟨b, vs, rest, hrest, rfl, rfl⟩ | ⟨e, more, depth, rfl, rfl⟩
  · rw [advance_advance hm hs, hs.length_advance]
    exact .ok (hs.append hrest)
  · rw [halt_advance]
    exact .error

/-- What keeps a journal goes on. -/
theorem Carries.bind_reply {m' : Machine} {s : Input} {x : Action Machine α} {p : Reading β}
    {f : α → Action Machine γ} {g : β → Reading δ}
    (hx : Carries F m (x m') (noted ++ faultsOf (p s).events) (p s).result)
    (hf : ∀ b us noted' rest, Held m.rest us (F.trees b) rest → (p s).result = .ok (b, rest) →
      Carries G m (f (F.value m.entries.length b) (m.advance us noted' rest))
        (noted' ++ faultsOf (g b rest).events) (g b rest).result) :
    Carries G m ((x >>= f) m') (noted ++ faultsOf ((p >>= g) s).events)
      ((p >>= g) s).result := by
  rcases hx.elim with ⟨b, us, rest, hrest, hx, hp⟩ | ⟨e, more, depth, hx, hp⟩
  · rw [Action.bind_of_ok hx, Reading.bind_of_ok hp, faultsOf_append, ← List.append_assoc]
    exact hf b us _ rest hrest hp
  · rw [Action.bind_of_error hx, Reading.bind_of_error hp]
    exact .error

/-- What keeps a journal goes on after what keeps none. -/
theorem Carries.bind_quiet {m' : Machine} {s : Input} {x : Action Machine α} {p : Parser β}
    {f : α → Action Machine γ} {g : β → Reading δ} (hx : Carries F m (x m') noted (p s))
    (hf : ∀ b us noted' rest, Held m.rest us (F.trees b) rest → p s = .ok (b, rest) →
      Carries G m (f (F.value m.entries.length b) (m.advance us noted' rest))
        (noted' ++ faultsOf (g b rest).events) (g b rest).result) :
    Carries G m ((x >>= f) m') (noted ++ faultsOf ((Reading.quiet p >>= g) s).events)
      ((Reading.quiet p >>= g) s).result := by
  refine Carries.bind_reply (p := Reading.quiet p) ?_ hf
  rw [← List.append_nil noted] at hx
  exact hx

/-- Items that are added to a row of their own. -/
theorem collect_carries {links : List Link} {x : Action Row Unit}
    {r : Except Failure (List Tree × Input)} (h : Adds ⟨links, m⟩ (x ⟨links, m⟩) noted r) :
    Carries ⟨fun id ts => links ++ Tree.links id ts, id⟩ m (collect links x m) noted r := by
  unfold collect
  rcases h.elim with ⟨us, ts, rest, hheld, hx, rfl⟩ | ⟨e, left, more, depth, hx, rfl⟩
  · rw [hx]
    exact .ok hheld
  · rw [hx]
    exact .error

/-- Reads an opening tag after its bracket, which is the tree `first`, with whether the tag closes
itself. -/
def tagReader (reader : Extent → Parser Tree) (first : Tree) : Parser (List Tree × Bool) := do
  let inner ← Part.readAll reader Markup.header
  let closed ← Look.holds (.next .tag (.kind .selfClose))
  let stop ← Part.readAll reader Markup.headerEnd
  return (first :: inner ++ stop, closed)

/-- A tag is known by the links of its trees. -/
def opened : Form (List Link × Bool) (List Tree × Bool) :=
  ⟨fun id a => (Tree.links id a.1, a.2), Prod.fst⟩

/-- An opening tag is read on the machine as it is read into trees. -/
theorem openTag_carries (ho : OperandsCarry n operand reader) (hm : m.Ready n) {us : List Tree}
    {first : Tree} {s : Input} (hs : Held m.rest us [first] s) :
    Carries opened m
      (openTag operand (first.field, first.top m.entries.length) (m.advance us [] s)) []
      (tagReader reader first s) := by
  rw [openTag, tagReader]
  refine ((parts_carry ho).2 Markup.header rfl (hm.advance hs)).bind_after hm.placed hs
    fun inner vs s' h _ => ?_
  refine (look_carries _ _).bind_silent_after h fun closed _ => ?_
  refine ((parts_carry ho).2 Markup.headerEnd rfl (hm.advance h)).bind_after hm.placed h
    fun stop vs' rest h _ => ?_
  refine .pure ?_ h
  simp [opened, row, Tree.links, Tree.links_append, Tree.sizes, Nat.add_assoc]

end Machine

namespace Markup

/-- The end of an opening tag tells whether the tag closes itself. -/
theorem holds_of_headerEnd {s rest : Input} {stop : List Tree}
    (h : Part.readAll reader headerEnd s = .ok (stop, rest)) :
    (Look.next .tag (.kind .selfClose)).holds s =
      .ok (stop.any fun t => t.text = ['/', '>'], s) := by
  obtain ⟨found, s', hfound, h⟩ := Parser.bind_eq_ok.1 (Part.read_of_readAll_singleton h)
  obtain rfl := Look.holds_rest hfound
  rw [hfound]
  -- The token that is read is of the kind that was looked for, or it ends the tag without more.
  cases found with
  | true =>
    obtain ⟨leaf, _, hleaf, h⟩ := Parser.bind_eq_ok.1 (Part.read_of_readAll_singleton h)
    obtain ⟨rfl, rfl⟩ := Parser.pure_eq_ok.1 h
    have htext := (text_of_leaf_tag (Terminal.read_leaf hleaf)).2 rfl
    simp [htext]
  | false =>
    obtain ⟨leaf, _, hleaf, h⟩ := Parser.bind_eq_ok.1 (Part.read_of_readAll_singleton h)
    obtain ⟨rfl, rfl⟩ := Parser.pure_eq_ok.1 h
    have htext := (text_of_leaf_tag (Terminal.read_leaf hleaf)).1 rfl
    simp [htext]

/-- Where it cannot be looked for the end of a closing tag, there is no end of the tag. -/
theorem headerEnd_of_holds {s : Input} {e : Failure}
    (h : (Look.next .tag (.kind .selfClose)).holds s = .error e) :
    Part.readAll reader headerEnd s = .error e :=
  Parser.bind_eq_error.2 (.inl (Parser.bind_eq_error.2 (.inl h)))

/-- Reading an element goes on after its bracket. -/
theorem element_after_bracket {x : Reading (List Tree)} {s : Input}
    (hkind : (Token.scanText s).kind = .tagOpen) :
    element reader x s = Reading.inside s
      (Reading.quiet (tagReader reader ((Token.scanText s).leaf none .punctuation)) >>= fun tag =>
        if tag.2 then pure (.node none .element tag.1)
        else body x >>= fun items =>
          Reading.quiet (Part.readAll reader footer) >>= fun closing =>
            pure (.node none .element (tag.1 ++ items ++ closing))) (Token.scanText s).rest := by
  have hfirst : opener.read s =
      .ok ((Token.scanText s).leaf none .punctuation, (Token.scanText s).rest) :=
    Terminal.read_of_scan rfl (if_pos hkind)
  generalize (Token.scanText s).leaf none .punctuation = first at hfirst
  generalize (Token.scanText s).rest = s₁ at hfirst
  rw [element_eq_inside, Reading.quiet_bind_of_ok hfirst, Reading.inside_eq, Reading.inside_eq]
  cases hinner : Part.readAll reader header s₁ with
  | error e =>
    have htag : tagReader reader first s₁ = .error e := Parser.bind_eq_error.2 (.inl hinner)
    rw [Reading.quiet_bind_of_error hinner, Reading.quiet_bind_of_error htag]
  | ok r =>
    obtain ⟨inner, s₂⟩ := r
    rw [Reading.quiet_bind_of_ok hinner]
    cases hstop : Part.readAll reader headerEnd s₂ with
    | error e =>
      have htag : tagReader reader first s₁ = .error e := by
        rw [tagReader, Parser.bind_of_ok hinner]
        cases hlook : (Look.next .tag (.kind .selfClose)).holds s₂ with
        | error e' =>
          have hsame : Part.readAll reader headerEnd s₂ = .error e' := headerEnd_of_holds hlook
          rw [hstop] at hsame
          cases hsame
          exact Parser.bind_eq_error.2 (.inl hlook)
        | ok r =>
          obtain ⟨closed, s₃⟩ := r
          obtain rfl := Look.holds_rest hlook
          rw [Parser.bind_of_ok hlook]
          exact Parser.bind_eq_error.2 (.inl hstop)
      rw [Reading.quiet_bind_of_error hstop, Reading.quiet_bind_of_error htag]
    | ok r =>
      obtain ⟨stop, s₃⟩ := r
      have htag : tagReader reader first s₁ =
          .ok ((first :: inner ++ stop, stop.any fun t => t.text = ['/', '>']), s₃) := by
        rw [tagReader, Parser.bind_of_ok hinner, Parser.bind_of_ok (holds_of_headerEnd hstop),
          Parser.bind_of_ok hstop]
        rfl
      rw [Reading.quiet_bind_of_ok hstop, Reading.quiet_bind_of_ok htag]

end Markup

namespace Machine

/-- An element is read on the machine as it is read into a tree, if its items are added to a row as
they are read into trees. -/
theorem element_carries (ho : OperandsCarry n operand reader) (hm : m.Ready (n + 1))
    {items : Action Row Unit} {x : Reading (List Tree)}
    (hitems : ∀ r : Row, r.machine.Ready n → r.machine.options = m.options → Adds r (items r)
      (faultsOf (Markup.body x r.machine.rest).events) (Markup.body x r.machine.rest).result)
    (hkind : (Token.scanText m.rest).kind = .tagOpen) :
    Carries single m
      (element operand items (Token.scanText m.rest)
        { m with rest := (Token.scanText m.rest).rest })
      (faultsOf (Markup.element reader x m.rest).events)
      (Markup.element reader x m.rest).result := by
  have hscan : Token.scan .text m.rest = .ok (Token.scanText m.rest) := rfl
  have hsource := Token.gap_append_start hscan
  have hstart := Token.scanText_start m.rest
  rw [element, Markup.element_after_bracket hkind, Reading.inside_eq]
  generalize Token.scanText m.rest = opener at hsource hstart
  refine Carries.level hm opener.start opener.rest ?_
  have hdown : m.down.Placed := hm.placed
  have hready := hm.down
  have hsource : opener.gap ++ opener.start = m.down.rest := hsource
  have hopener := Held.leaf hsource none none .punctuation
  rw [elementNode, Action.bind_of_ok (leaf_bump hdown hsource .punctuation), hstart]
  refine Carries.inside m.rest ?_
  have htag := openTag_carries ho hready hopener
  show Carries single m.down _ ([] ++ faultsOf _) _
  refine htag.bind_quiet fun tag us noted s h _ => ?_
  obtain ⟨tag, closed⟩ := tag
  cases closed with
  | true =>
    have h : Held m.down.rest us tag s := h
    show Carries single m.down
      (node .element (Tree.links m.down.entries.length tag) (m.down.advance us noted s))
      (noted ++ []) (.ok (.node none .element tag, s))
    rw [node_advance .element h, List.append_nil]
    exact .ok (b := Tree.node none .element tag) (h.node none none .element)
  | false =>
    have h : Held m.down.rest us tag s := h
    have hrow := collect_carries (hitems
      ⟨Tree.links m.down.entries.length tag, m.down.advance us noted s⟩ (hready.advance h) rfl)
    have hbody := hrow.after hdown h
    refine Carries.bind_reply hbody fun items us' noted' s' h' _ => ?_
    have h' : Held m.down.rest us' (tag ++ items) s' := h'
    show Carries single m.down
      ((parts operand Markup.footer >>= fun closing => node .element
        (Tree.links m.down.entries.length tag ++
          Tree.links (m.down.entries.length + Tree.sizes tag) items ++ closing))
        (m.down.advance us' noted' s')) _ _
    rw [← Tree.links_append]
    have hready' : (m.down.advance us' noted' s').Ready n := hready.advance h'
    have hfooter := ((parts_carry ho).2 Markup.footer rfl hready').after hdown h'
    rw [List.append_nil] at hfooter
    refine hfooter.bind_quiet fun closing us'' noted'' rest h'' _ => ?_
    have h'' : Held m.down.rest us'' (tag ++ items ++ closing) rest := h''
    show Carries single m.down
      (node .element (Tree.links m.down.entries.length (tag ++ items) ++
        Tree.links (m.down.entries.length + Tree.sizes (tag ++ items)) closing)
        (m.down.advance us'' noted'' rest)) (noted'' ++ [])
      (.ok (.node none .element (tag ++ items ++ closing), rest))
    rw [← Tree.links_append, node_advance .element h'', List.append_nil]
    exact .ok (b := Tree.node none .element _) (h''.node none none .element)

/-- An element is refused on the machine where it is. -/
theorem tooDeep_carries (hm : m.Ready 0) (hkind : (Token.scanText m.rest).kind = .tagOpen) :
    Carries single m
      (tooDeep (Token.scanText m.rest) { m with rest := (Token.scanText m.rest).rest })
      (faultsOf (Markup.tooDeep m.rest).events) (Markup.tooDeep m.rest).result := by
  have hread : Markup.opener.read m.rest =
      .ok ((Token.scanText m.rest).leaf none .punctuation, (Token.scanText m.rest).rest) :=
    Terminal.read_of_scan rfl (if_pos hkind)
  have hreply : Markup.tooDeep m.rest =
      ⟨[], .error ⟨⟨.nestingTooDeep, m.rest⟩, (Token.scanText m.rest).rest⟩⟩ := by
    have hfail : (Markup.opener.read >>= fun _ => Parser.fail .nestingTooDeep m.rest : Parser Tree)
        m.rest = .error ⟨⟨.nestingTooDeep, m.rest⟩, (Token.scanText m.rest).rest⟩ :=
      Parser.bind_of_ok hread
    exact (Reading.bind_of_ok (x := Reading.here) rfl).trans (congrArg (Reply.mk []) hfail)
  rw [hreply, tooDeep, Token.scanText_start]
  exact .refused hm m.rest _ _

end Machine

/-! ## Items -/

namespace Row

variable {r : Row} {noted : List Fault}

/-- An item is added to a row as it is read into trees. -/
theorem itemOf_adds (ho : OperandsCarry n operand reader) (hr : r.machine.Ready n)
    {element : Token → Action Machine Nat} {y : Reading Tree} (hy : Markup.ReadsItem y .tagOpen)
    (he : (Token.scanText r.machine.rest).kind = .tagOpen → Carries single r.machine
      (element (Token.scanText r.machine.rest)
        { r.machine with rest := (Token.scanText r.machine.rest).rest })
      (faultsOf (y r.machine.rest).events) (y r.machine.rest).result) :
    Adds r (itemOf operand element r) (faultsOf (Markup.itemOf reader y r.machine.rest).events)
      (Markup.itemOf reader y r.machine.rest).result := by
  have hscan : Token.scan .text r.machine.rest = .ok (Token.scanText r.machine.rest) := rfl
  have hpeek : lift (peek .text) r = (.ok (Token.scanText r.machine.rest), r) := rfl
  have hbump : lift (bump (Token.scanText r.machine.rest)) r =
      (.ok (), ⟨r.links, { r.machine with rest := (Token.scanText r.machine.rest).rest }⟩) := rfl
  rw [itemOf, Action.bind_of_ok hpeek, Markup.itemOf_eq]
  cases hkind : (Token.scanText r.machine.rest).kind
  case text =>
    have hleaf : Carries single r.machine (leaf .text (Token.scanText r.machine.rest)
        { r.machine with rest := (Token.scanText r.machine.rest).rest }) []
        (.ok ((Token.scanText r.machine.rest).leaf none .text,
          (Token.scanText r.machine.rest).rest)) := by
      have hsource := Token.gap_append_start hscan
      rw [leaf_bump hr.placed hsource]
      exact .ok (b := Token.leaf _ none .text) (.leaf hsource _ _ _)
    dsimp only
    rw [Action.bind_of_ok hbump]
    exact Adds.of_single hleaf fun t rest h => by
      cases h
      rfl
  case valueOpen =>
    exact .of_row ((parts_carry ho).1 (Part.value none .text "`\x7b\x7b`") rfl hr)
  case statementOpen =>
    dsimp only
    rw [(Markup.statement_agrees r.machine.rest).faultless]
    exact statement_adds ho hr
  case commentOpen =>
    dsimp only
    rw [(Reading.events_map Markup.comment (fun t => [t]) _).1,
      (Markup.comment_agrees r.machine.rest).faultless, Reading.result_bind_pure,
      Action.bind_of_ok hbump]
    exact Adds.of_single (comment_carries hr.placed) fun t rest h =>
      (Markup.comment_readsItem.item hkind h).1.field
  case tagOpen =>
    dsimp only
    rw [(Reading.events_map y (fun t => [t]) _).1, Reading.result_bind_pure,
      Action.bind_of_ok hbump]
    exact Adds.of_single (he hkind) fun t rest h => (hy.item hkind h).1.field
  all_goals
    dsimp only
    rw [Token.scanText_start]
    exact .failed _ r.machine.rest

/-- After a malformed item the row is as it was, but for the error that stands for the item and for
the faults. -/
theorem giveUp_eq (hr : r.machine.Placed) {e : Failure} {links : List Link} {more : List Entry}
    {depth : Nat} {rest : Input}
    (hrest : (if r.machine.options.recover then e.resume r.machine.rest else []) = rest)
    (hsuffix : rest <:+ r.machine.rest) :
    giveUp r e.toFault ⟨r.links ++ links, r.machine.halt more depth noted e.stopped⟩ =
      r.advance
        [.leaf none .error [] (r.machine.rest.take (r.machine.rest.length - rest.length))]
        [.leaf none .error [] (r.machine.rest.take (r.machine.rest.length - rest.length))]
        (noted ++ [e.toFault]) rest := by
  have hsource : r.machine.rest.take (r.machine.rest.length - rest.length) ++ rest =
      r.machine.rest := by
    obtain ⟨skipped, hskipped⟩ := hsuffix
    rw [← hskipped]
    simp
  have hstop := hr.offset hsource
  generalize r.machine.rest.take (r.machine.rest.length - rest.length) = skipped at hstop
  have hentries : Tree.entries r.machine.entries.length r.machine.pos
      [.leaf none .error [] skipped] =
        [⟨none, .error, r.machine.pos, offset r.machine.size rest, []⟩] := by
    rw [Tree.entries_singleton, hstop]
    rfl
  have hlinks : Tree.links r.machine.entries.length [.leaf none .error [] skipped] =
      [(none, r.machine.entries.length)] := rfl
  simp only [giveUp, Row.advance, Machine.advance, halt, List.take_left, hentries, hlinks,
    List.append_assoc]
  subst hrest
  rfl

/-- The row comes to another one in a step: what the step reads is added to it. -/
def Takes (r : Row) (step : Step) (r' : Row) : Prop :=
  ∃ us, Held r.machine.rest us step.trees step.rest ∧
    r' = r.advance us step.trees (faultsOf step.events) step.rest

/-- An item is done with as it is when it is read into trees, be it malformed or not. Where reading
cannot go on nothing is left. -/
theorem itemOrError_takes (hr : r.machine.Placed) (hs : r.machine.rest ≠ [])
    {item : Action Row Unit} {x : Reading (List Tree)} (hx : Markup.ReadsItems x)
    (h : Adds r (item r) (faultsOf (x r.machine.rest).events) (x r.machine.rest).result)
    {recover : Bool} (hrecover : r.machine.options.recover = recover) :
    r.Takes ((x r.machine.rest).settle recover r.machine.rest) (itemOrError item r).2 ∧
      ((itemOrError item r).1 = true ∨
        ((x r.machine.rest).settle recover r.machine.rest).rest = []) := by
  have hreads := Markup.settle_reads recover hs hx
  rcases h.elim with ⟨us, ts, rest, hheld, hitem, hresult⟩ | ⟨e, links, more, depth, hitem, hresult⟩
  · have hsettle : (x r.machine.rest).settle recover r.machine.rest =
        ⟨ts, (x r.machine.rest).events, rest⟩ := by
      rw [Reply.settle, hresult]
    rw [hsettle, itemOrError, hitem]
    exact ⟨⟨us, hheld, rfl⟩, .inl rfl⟩
  · obtain ⟨rest, hrest⟩ :
        ∃ rest, (if recover then e.resume r.machine.rest else []) = rest := ⟨_, rfl⟩
    have hsettle := Reply.settle_error (s := r.machine.rest) hresult hrest
    rw [hsettle] at hreads ⊢
    have hsource : _ ++ rest = r.machine.rest := hreads.source
    rw [itemOrError, hitem]
    refine ⟨⟨_, ⟨rfl, hsource⟩, ?_⟩, ?_⟩
    · rw [faultsOf_append]
      exact giveUp_eq hr (hrecover ▸ hrest) ⟨_, hsource⟩
    · rw [hrecover]
      cases recover with
      | true => exact .inl rfl
      | false => exact .inr hrest.symm

/-- An item of a body is added to a row as it is read into trees. -/
theorem bodyItem_adds (hr : r.machine.Placed) (hs : r.machine.rest ≠ []) {item : Action Row Unit}
    {x : Reading (List Tree)} (hx : Markup.ReadsItems x)
    (h : Adds r (item r) (faultsOf (x r.machine.rest).events) (x r.machine.rest).result)
    {recover : Bool} (hrecover : r.machine.options.recover = recover) :
    Adds r (bodyItem item r)
      (faultsOf ((if recover then x.recovering else x) r.machine.rest).events)
      ((if recover then x.recovering else x) r.machine.rest).result := by
  rw [bodyItem, hrecover]
  cases recover with
  | false => exact h
  | true =>
    obtain ⟨⟨us, hheld, hrow⟩, -⟩ := itemOrError_takes hr hs hx h hrecover
    rw [if_pos rfl, if_pos rfl, hrow]
    exact .ok hheld

/-- The items of a body are added to a row as they are read into trees, if each one is. -/
theorem body_adds {recover : Bool} {item : Action Row Unit} {x : Reading (List Tree)}
    (hx : Markup.ReadsItems x)
    (h : ∀ r : Row, r.machine.Ready n → r.machine.options.recover = recover →
      Adds r (item r) (faultsOf (x r.machine.rest).events) (x r.machine.rest).result)
    (hr : r.machine.Ready n) (hrecover : r.machine.options.recover = recover) :
    Adds r (body item r)
      (faultsOf (Markup.body (if recover then x.recovering else x) r.machine.rest).events)
      (Markup.body (if recover then x.recovering else x) r.machine.rest).result := by
  have hy := fun (r : Row) (hr : r.machine.Ready n) (hs : r.machine.rest ≠ [])
    (hrecover : r.machine.options.recover = recover) =>
      bodyItem_adds hr.placed hs hx (h r hr hrecover) hrecover
  have hreads : Markup.ReadsItems (if recover then x.recovering else x) := by
    cases recover with
    | true => exact Markup.recovering_readsItems hx
    | false => exact hx
  generalize (if recover then x.recovering else x) = y at hy hreads
  -- By induction on what is left to read: each item reads something.
  induction hlength : r.machine.rest.length using Nat.strong_induction_on generalizing r with
  | _ k ih =>
    by_cases hs : r.machine.rest = []
    · rw [body, if_pos hs, hs, Markup.body, if_pos rfl, ← hs]
      exact .failed _ _
    · cases hfooter : Markup.atFooter r.machine.rest with
      | true =>
        rw [body, if_neg hs, if_pos hfooter, Markup.body, if_neg hs, if_pos hfooter]
        exact .nothing r
      | false =>
        have hnot : ¬Markup.atFooter r.machine.rest = true := by simp [hfooter]
        rw [Markup.body_eq_bind hreads hs hfooter]
        rcases (hy r hr hs hrecover).elim with
          ⟨us, ts, rest, hheld, hitem, hresult⟩ | ⟨e, links, more, depth, hitem, hresult⟩
        · have hlt := hreads.rest_lt hs hresult
          have hbody : body item r = body item
              (r.advance us ts (faultsOf (y r.machine.rest).events) rest) := by
            rw [body, if_neg hs, if_neg hnot, hitem]
            exact if_pos hlt
          have hmore := ih rest.length (hlength ▸ hlt)
            (r := r.advance us ts (faultsOf (y r.machine.rest).events) rest) (hr.advance hheld)
            hrecover rfl
          rw [hbody, Reading.bind_of_ok hresult, faultsOf_append,
            (Reading.events_map (Markup.body y) (ts ++ ·) rest).1, Reading.result_bind_pure]
          exact hmore.after hr.placed hheld
        · rw [body, if_neg hs, if_neg hnot, hitem, Reading.bind_of_error hresult]
          exact .error

/-- An item in which elements and operands nest is added to a row as it is read into trees. -/
theorem item_adds (recover : Bool) (n : Nat) :
    ∀ r : Row, r.machine.Ready n → r.machine.options.recover = recover →
      Adds r (item n r) (faultsOf (Markup.item recover n r.machine.rest).events)
        (Markup.item recover n r.machine.rest).result := by
  induction n with
  | zero =>
    intro r hr hrecover
    exact itemOf_adds (expression_carries 0) hr Markup.tooDeep_readsItem (tooDeep_carries hr)
  | succ n ih =>
    intro r hr hrecover
    have hreads : Markup.ReadsItems (if recover then (Markup.item recover n).recovering
        else Markup.item recover n) := by
      cases recover with
      | true => exact Markup.recovering_readsItems (Markup.item_readsItems true n)
      | false => exact Markup.item_readsItems false n
    refine itemOf_adds (expression_carries (n + 1)) hr
      (Markup.element_readsItem (Part.operands_expression n) hreads) fun hkind => ?_
    exact element_carries (expression_carries n) hr
      (fun r' hr' hoptions => body_adds (Markup.item_readsItems recover n) ih hr'
        (hoptions ▸ hrecover)) hkind

/-! ## Templates -/

/-- A step and what is taken after it. -/
theorem Takes.trans (hr : r.machine.Placed) {a b : Step} {r' r'' : Row} (h : r.Takes a r')
    (hrest : r'.machine.rest = a.rest) (h' : r'.Takes b r'') :
    r.Takes ⟨a.trees ++ b.trees, a.events ++ b.events, b.rest⟩ r'' := by
  obtain ⟨us, hheld, rfl⟩ := h
  obtain ⟨vs, hheld', rfl⟩ := h'
  refine ⟨us ++ vs, hheld.append hheld', ?_⟩
  rw [advance_advance hr hheld, faultsOf_append]

/-- Where nothing is left no items are added. -/
theorem items_of_nil (h : r.machine.rest = []) : items r = r := by
  rw [items, if_pos h]

/-- After an item the others are added, if there are any. -/
theorem items_of_item (hs : r.machine.rest ≠ []) (hdepth : r.machine.depth = 0) {o : Bool × Row}
    (ho : itemOrError (item r.machine.options.maxDepth) r = o)
    (hlt : o.2.machine.rest.length < r.machine.rest.length)
    (hmore : o.1 = true ∨ o.2.machine.rest = []) : items r = items o.2 := by
  have hstart : { r with machine := { r.machine with depth := 0 } } = r := by rw [← hdepth]
  rw [items, if_neg hs, hstart]
  dsimp only
  rw [ho]
  obtain ⟨more, r'⟩ := o
  cases more with
  | true => exact if_pos (decide_eq_true hlt)
  | false => exact (items_of_nil (hmore.resolve_left Bool.false_ne_true)).symm

/-- The items of a template are added to a row in its steps. -/
theorem items_takes (hr : r.machine.Ready r.machine.options.maxDepth) :
    r.Takes ⟨(Template.steps r.machine.options r.machine.rest).flatMap Step.trees,
      (Template.steps r.machine.options r.machine.rest).flatMap Step.events, []⟩ (items r) := by
  -- By induction on what is left to read: each step reads something.
  induction hlength : r.machine.rest.length using Nat.strong_induction_on generalizing r with
  | _ k ih =>
    by_cases hs : r.machine.rest = []
    · rw [items_of_nil hs, hs, Template.steps_nil]
      refine ⟨[], ⟨rfl, hs.symm⟩, ?_⟩
      exact ((congrArg (r.advance [] [] []) hs.symm).trans (advance_nil r)).symm
    · have hdepth : r.machine.depth = 0 := by
        have hlevels := hr.levels
        omega
      have hreads := Markup.item_readsItems r.machine.options.recover r.machine.options.maxDepth
      have hlt := Template.step_rest_lt r.machine.options hs
      obtain ⟨⟨us, hheld, hrow⟩, hmore⟩ :
          r.Takes (Template.step r.machine.options r.machine.rest)
            (itemOrError (item r.machine.options.maxDepth) r).2 ∧
          ((itemOrError (item r.machine.options.maxDepth) r).1 = true ∨
            (Template.step r.machine.options r.machine.rest).rest = []) :=
        itemOrError_takes hr.placed hs hreads (item_adds _ _ r hr rfl) rfl
      rw [items_of_item hs hdepth rfl (by rwa [hrow]) (by rwa [hrow]), hrow,
        Template.steps_eq_cons _ hs, List.flatMap_cons, List.flatMap_cons]
      exact Takes.trans hr.placed ⟨us, hheld, rfl⟩ rfl
        (ih _ (hlength ▸ hlt) (hr.advance hheld) rfl)

end Row

namespace Machine

/-- A machine that has read nothing is at the beginning of its source, and all levels are
allowed. -/
theorem start_ready (options : Options) (source : Input) :
    (start options source).Ready options.maxDepth := ⟨List.suffix_refl source, Nat.zero_add _⟩

/-- Before anything is read the cursor is at the first byte. -/
@[simp]
theorem start_pos (options : Options) (source : Input) : (start options source).pos = 0 :=
  Nat.sub_self _

/-- After a template was read the arena holds its nodes in the order of their numbers, nothing is
left to read, and all levels have been gone up. The machine has looked only at places that the arena
had. -/
theorem finish_eq (options : Options) (source : Input) :
    finish options source =
      { start options source with
        rest := []
        entries := (Template.parse options source).tree.root.numbered.map Node.entry
        faults := faultsOf ((Template.steps options source).flatMap Step.events) } := by
  obtain ⟨us, hheld, hrow⟩ :=
    items_takes (r := ⟨[], start options source⟩) (start_ready options source)
  have hlossless := Template.parse_lossless options source
  have htree : (Template.parse options source).tree = .node none .sourceFile
    ((Template.steps options source).flatMap Step.trees) := rfl
  rw [htree] at hlossless ⊢
  have hsteps : Template.steps (start options source).options (start options source).rest =
    Template.steps options source := rfl
  rw [hsteps] at hheld hrow
  generalize (Template.steps options source).flatMap Step.trees = ts at hheld hrow hlossless
  generalize faultsOf ((Template.steps options source).flatMap Step.events) = noted at hrow
  have hlinks : ∀ link ∈ Tree.links 0 ts,
      link.2 < ((start options source).advance us noted []).entries.length := hheld.links_lt noted
  -- The nodes below the root are told their fields when the root is made.
  have hentries : assign ([] ++ Tree.entries 0 (start options source).pos us)
      (Tree.links 0 ts) = [] ++ Tree.entries 0 (start options source).pos ts :=
    assign_entries [] (start options source).pos hheld.bare
  have hroot : (Tree.node none .sourceFile ts).root.entry =
      ⟨none, .sourceFile, 0, byteLength source, (Tree.links 0 ts).map Prod.snd⟩ := by
    rw [Node.entry, hlossless.start, hlossless.stop, Tree.links_ids 0 0]
    rfl
  rw [start_pos] at hentries
  rw [finish, hrow, Node.numbered_eq, List.map_append, List.map_singleton, hroot]
  show (push .sourceFile 0 _ ([] ++ Tree.links 0 ts) ((start options source).advance us noted [])).2
    = _
  rw [List.nil_append (Tree.links 0 ts), push_of_lt _ _ _ hlinks]
  show ({ start options source with
    rest := []
    entries := assign ([] ++ Tree.entries 0 (start options source).pos us) (Tree.links 0 ts) ++ [_]
    faults := [] ++ noted } : Machine) = _
  rw [start_pos, hentries]
  rfl

/-- The arena of a template holds its nodes in the order of their numbers, and what is found to be
wrong is the same. -/
theorem parse_eq (options : Options) (source : Input) :
    parse options source =
      ((Template.parse options source).tree.root.numbered.map Node.entry,
        (Template.parse options source).errors) := by
  have herrors := Template.errors_ofSteps source (Template.steps options source)
  rw [← Template.parse] at herrors
  rw [parse, finish_eq, herrors]
  rfl

end Machine

end Stencil
