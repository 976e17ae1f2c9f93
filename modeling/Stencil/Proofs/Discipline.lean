import Stencil.Proofs.Framing
import Stencil.Proofs.Stepwise

/-!
# Items and the state of the machine

Items share one machine, which is dirty after a reading failed. The main statement
(`Machine.disciplined`) is that no item notices: one that succeeds leaves all nodes there are as
they are, and goes up every level that it went down, so that between two items the level is the
number of elements that are open (`Row.Boundary`); one that fails leaves an error and its faults and
nothing else, so that later items come to what they would have come to without it.
-/

namespace Stencil

open Machine Row

/-! ## What is added -/

/-- What reading leaves of a machine: the nodes that there were are still where they were, with
their fields, and the level is the same. -/
structure Machine.Appended (m m' : Machine) : Prop where
  source : m'.source = m.source
  options : m'.options = m.options
  entries : m.entries <+: m'.entries
  depth : m'.depth = m.depth
  faults : m.faults <+: m'.faults

/-- What adding items leaves of a row. -/
structure Row.Appended (r r' : Row) : Prop where
  machine : r.machine.Appended r'.machine
  links : r.links <+: r'.links

/-- What keeps to adding new nodes leaves the others as they are. -/
theorem Machine.Appended.of_keeps {α : Type} {gives : α → List Nat} {m m' : Machine}
    {x : Action Machine α} {a : α} (hx : m.Keeps [] gives x) (h : x m = (.ok a, m')) :
    m.Appended m' := by
  obtain ⟨hgrown, -, hdepth, -⟩ := hx.ok (.refl m) .nil h
  exact ⟨hgrown.source, hgrown.options, hgrown.isPrefix, hdepth, hgrown.faults⟩

/-- What keeps to adding new nodes to a row leaves the others as they are. -/
theorem Row.Appended.of_keeps {α : Type} {gives : α → List Nat} {r r' : Row} {x : Action Row α}
    {a : α} (hx : r.Keeps [] gives x) (h : x r = (.ok a, r')) : r.Appended r' := by
  obtain ⟨⟨hgrown, more, hmore, -⟩, -, hdepth, -⟩ := hx.ok (.refl r) .nil h
  exact ⟨⟨hgrown.source, hgrown.options, hgrown.isPrefix, hdepth, hgrown.faults⟩, more, hmore.symm⟩

/-! ## Between items -/

namespace Row

/-- The rows between the items of a template while it is read, with the number of elements that are
open there. -/
inductive Boundary (options : Options) (source : Input) : Nat → Row → Prop
  /-- Nothing has been read. -/
  | start : Boundary options source 0 ⟨[], Machine.start options source⟩
  /-- An item of the template has been read, or what stands for it. -/
  | item {r : Row} (h : Boundary options source 0 r) (hs : r.machine.rest ≠ []) :
    Boundary options source 0 (itemOrError (Row.item options.maxDepth) r).2
  /-- The opening tag of an element has been read, whose items are a row of their own. -/
  | opened {k n : Nat} {r : Row} {t : Token} {tag : List Link} {m : Machine}
    (h : Boundary options source k r) (hn : k + (n + 1) = options.maxDepth)
    (ht : t = Token.scanText r.machine.rest) (hkind : t.kind = .tagOpen)
    (htag : (do
      bump t
      enter t.start
      let first ← leaf .punctuation t
      openTag (Machine.expression n) (none, first)) r.machine = (.ok (tag, false), m)) :
    Boundary options source (k + 1) ⟨tag, m⟩
  /-- An item of the body of an element has been read, or what stands for it. -/
  | bodyItem {k n : Nat} {r r' : Row} (h : Boundary options source (k + 1) r)
    (hn : k + 1 + n = options.maxDepth) (hs : r.machine.rest ≠ [])
    (hfooter : Markup.atFooter r.machine.rest = false)
    (hitem : Row.bodyItem (Row.item n) r = (.ok (), r')) :
    Boundary options source (k + 1) r'

variable {options : Options} {source : Input} {k n : Nat} {r r' : Row}

/-- What is known between items. -/
structure Between (options : Options) (k : Nat) (r : Row) : Prop where
  options : r.machine.options = options
  depth : r.machine.depth = k
  placed : r.machine.Placed

/-- Where as many levels are allowed as there may be below, items are read. -/
theorem Between.ready (h : Between options k r) (hn : k + n = options.maxDepth) :
    r.machine.Ready n :=
  ⟨h.placed, by rw [h.depth, h.options, hn]⟩

/-- A reading ends between items if it began there. -/
theorem Between.advance (h : Between options k r) {us ts : List Tree} {noted : List Fault}
    {rest : Input} (hheld : Held r.machine.rest us ts rest) :
    Between options k (r.advance us ts noted rest) :=
  ⟨h.options, h.depth, h.placed.advance hheld⟩

/-- An opening tag is read one level further down. -/
theorem opened_between (h : Between options k r) (hn : k + (n + 1) = options.maxDepth) {t : Token}
    (ht : t = Token.scanText r.machine.rest) {tag : List Link} {m : Machine}
    (htag : (do
      bump t
      enter t.start
      let first ← leaf .punctuation t
      openTag (Machine.expression n) (none, first)) r.machine = (.ok (tag, false), m)) :
    Between options (k + 1) ⟨tag, m⟩ := by
  have hready := h.ready hn
  have hscan : Token.scan .text r.machine.down.rest = .ok t := ht ▸ rfl
  have hsource := Token.gap_append_start hscan
  have hbump : bump t r.machine = (.ok (), { r.machine with rest := t.rest }) := rfl
  have henter : enter t.start { r.machine with rest := t.rest } =
      (.ok (), { r.machine.down with rest := t.rest }) := by
    refine if_neg ?_
    have hlevels := hready.levels
    simp only [Machine.down]
    omega
  rw [Action.bind_of_ok hbump, Action.bind_of_ok henter,
    Action.bind_of_ok (leaf_bump hready.down.placed hsource .punctuation)] at htag
  have hcarries : Carries Machine.opened r.machine.down (openTag (Machine.expression n)
      (none, (t.leaf none .punctuation).top r.machine.down.entries.length)
      (r.machine.down.advance [t.leaf none .punctuation] [] t.rest)) [] _ :=
    openTag_carries (expression_carries n) hready.down (Held.leaf hsource none none .punctuation)
  rcases hcarries.elim with ⟨b, us, rest, hheld, hx, -⟩ | ⟨e, more, depth, hx, -⟩
  · obtain ⟨trees, closed⟩ := b
    rw [hx] at htag
    cases htag
    exact ⟨h.options, congrArg (· + 1) h.depth, hready.down.placed.advance hheld⟩
  · rw [hx] at htag
    cases htag

/-- Between items the level is the number of elements that are open. -/
theorem Boundary.between (h : Boundary options source k r) : Between options k r := by
  induction h with
  | start => exact ⟨rfl, rfl, List.suffix_refl source⟩
  | @item r h hs ih =>
    have hready := ih.ready (Nat.zero_add _)
    have hreads := Markup.item_readsItems r.machine.options.recover options.maxDepth
    obtain ⟨⟨us, hheld, hrow⟩, -⟩ :=
      itemOrError_takes ih.placed hs hreads (item_adds _ _ r hready rfl) rfl
    rw [hrow]
    exact ih.advance hheld
  | opened h hn ht hkind htag ih => exact opened_between ih hn ht htag
  | @bodyItem k n r r' h hn hs hfooter hitem ih =>
    have hready := ih.ready hn
    have hreads := Markup.item_readsItems r.machine.options.recover n
    rcases (bodyItem_adds ih.placed hs hreads (item_adds _ _ r hready rfl) rfl).elim with
      ⟨us, ts, rest, hheld, hx, -⟩ | ⟨e, links, more, depth, hx, -⟩
    · rw [hx] at hitem
      cases hitem
      exact ih.advance hheld
    · rw [hx] at hitem
      cases hitem

/-! ## Malformed items -/

/-- Two rows come to the same if the same items are added to them, or none because of the same
failure, and the same faults are noted. -/
def Agree (x : Action Row Unit) (r q : Row) : Prop :=
  ∃ noted result, Adds r (x r) noted result ∧ Adds q (x q) noted result

/-- After a malformed item there are an error more, its faults, and nothing else. -/
theorem itemOrError_mark {fault : Fault} (h : item n r = (.error fault, r')) :
    ∃ rest noted, (itemOrError (item n) r).2 = r.mark rest (noted ++ [fault]) := by
  obtain ⟨noted, -, hrow⟩ := giveUp_of_grown ((item_keeps n r []).error (.refl r) .nil h).1 fault
  have hitem : (itemOrError (item n) r).2 = giveUp r fault r' := by rw [itemOrError, h]
  exact ⟨_, noted, hitem.trans hrow⟩

/-- Items come to the same in rows that are at the same place and level. -/
theorem agree_of_between {q : Row} (hr : Between options k r) (hq : Between options k q)
    (hrest : r.machine.rest = q.machine.rest) (hn : k + n = options.maxDepth) :
    Agree (item n) r q ∧ Agree (body (item n)) r q := by
  have hadds := item_adds options.recover n
  have hreads := Markup.item_readsItems options.recover n
  have hro : r.machine.options.recover = options.recover := by rw [hr.options]
  have hqo : q.machine.options.recover = options.recover := by rw [hq.options]
  have hbody := fun {p : Row} => body_adds (r := p) hreads hadds
  refine ⟨⟨_, _, hadds r (hr.ready hn) hro, ?_⟩, _, _, hbody (hr.ready hn) hro, ?_⟩
  · rw [hrest]
    exact hadds q (hq.ready hn) hqo
  · rw [hrest]
    exact hbody (hq.ready hn) hqo

/-- The rest of a template comes to the same in rows that are at the same place. -/
theorem items_agree {q : Row} (hr : Between options 0 r) (hq : Between options 0 q)
    (hrest : r.machine.rest = q.machine.rest) :
    ∃ step, r.Takes step (items r) ∧ q.Takes step (items q) := by
  have hreadyr := hr.ready (Nat.zero_add options.maxDepth)
  have hreadyq := hq.ready (Nat.zero_add options.maxDepth)
  have htakes := items_takes (r := r) (by rwa [hr.options])
  have htakes' := items_takes (r := q) (by rwa [hq.options])
  rw [hq.options, ← hrest] at htakes'
  rw [hr.options] at htakes
  exact ⟨_, htakes, htakes'⟩

/-- After a malformed item the others come to what they come to in the row from before it, where
nothing but the cursor has moved on. -/
theorem agree_after_malformed (h : Boundary options source k r) (hn : k + n = options.maxDepth)
    (hs : r.machine.rest ≠ []) {rest : Input} {noted : List Fault}
    (hrow : (itemOrError (item n) r).2 = r.mark rest noted) :
    (Agree (item n) (r.mark rest noted) ⟨r.links, { r.machine with rest := rest }⟩ ∧
      Agree (body (item n)) (r.mark rest noted) ⟨r.links, { r.machine with rest := rest }⟩) ∧
      (k = 0 → ∃ step, (r.mark rest noted).Takes step (items (r.mark rest noted)) ∧
        Row.Takes ⟨r.links, { r.machine with rest := rest }⟩ step
          (items ⟨r.links, { r.machine with rest := rest }⟩)) := by
  have hbetween := h.between
  have hready := hbetween.ready hn
  have hreads := Markup.item_readsItems r.machine.options.recover n
  obtain ⟨⟨us, hheld, htakes⟩, -⟩ :=
    itemOrError_takes hbetween.placed hs hreads (item_adds _ _ r hready rfl) rfl
  have hmark : Between options k (r.mark rest noted) := by
    rw [← hrow, htakes]
    exact hbetween.advance hheld
  have hbefore : Between options k ⟨r.links, { r.machine with rest := rest }⟩ :=
    ⟨hbetween.options, hbetween.depth, hmark.placed⟩
  refine ⟨agree_of_between hmark hbefore rfl hn, ?_⟩
  rintro rfl
  exact items_agree hmark hbefore rfl

end Row

/-! ## The discipline -/

/-- How items leave the machine with which a template is read. -/
structure Machine.Disciplined (options : Options) (source : Input) : Prop where
  /-- What is read in place is the template. -/
  parse : Machine.parse options source =
    ((Template.parse options source).tree.root.numbered.map Node.entry,
      (Template.parse options source).errors)
  /-- Whatever the state of the machine, an expression that is read is added to what there is. -/
  expression : ∀ {m m' : Machine} {n extent id},
    Machine.expression n extent m = (.ok id, m') → m.Appended m'
  /-- So is every production, be it a value or a statement. -/
  part : ∀ {m m' : Machine} {n p links},
    Machine.part (Machine.expression n) p m = (.ok links, m') → m.Appended m'
  /-- So is a statement with the body of its raw block. -/
  statement : ∀ {r r' : Row} {n},
    Row.statement (Machine.expression n) r = (.ok (), r') → r.Appended r'
  /-- So is an element. -/
  element : ∀ {m m' : Machine} {n t id},
    Machine.element (Machine.expression n) (Row.body (Row.item n)) t m = (.ok id, m') →
      m.Appended m'
  /-- So is an item. -/
  item : ∀ {r r' : Row} {n}, Row.item n r = (.ok (), r') → r.Appended r'
  /-- Where the level of an expression is gone up there is one to go up. -/
  leaveExpression : ∀ {m m' : Machine} {n extent id},
    Machine.extended (Machine.expression n) extent m.down = (.ok id, m') → m'.depth = m.depth + 1
  /-- So there is where the level of an element is. -/
  leaveElement : ∀ {m m' : Machine} {n t id},
    Machine.elementNode (Machine.expression n) (Row.body (Row.item n)) t m.down = (.ok id, m') →
      m'.depth = m.depth + 1
  /-- Between items the level is the number of elements that are open. -/
  boundary : ∀ {k} {r : Row}, Row.Boundary options source k r → r.machine.depth = k
  /-- An item that fails leaves an error, the faults that were noted and its own, and nothing
  else. -/
  malformed : ∀ {r r' : Row} {n fault}, Row.item n r = (.error fault, r') →
    ∃ rest noted, (Row.itemOrError (Row.item n) r).2 = r.mark rest (noted ++ [fault])
  /-- The items after it come to what they come to where it has never been tried. -/
  later : ∀ {k n rest noted} {r : Row}, Row.Boundary options source k r → k + n = options.maxDepth →
    r.machine.rest ≠ [] → (Row.itemOrError (Row.item n) r).2 = r.mark rest noted →
    (Row.Agree (Row.item n) (r.mark rest noted) ⟨r.links, { r.machine with rest := rest }⟩ ∧
      Row.Agree (Row.body (Row.item n)) (r.mark rest noted)
        ⟨r.links, { r.machine with rest := rest }⟩) ∧
      (k = 0 → ∃ step, (r.mark rest noted).Takes step (Row.items (r.mark rest noted)) ∧
        Row.Takes ⟨r.links, { r.machine with rest := rest }⟩ step
          (Row.items ⟨r.links, { r.machine with rest := rest }⟩))

/-- Items leave the machine as they should, for every source and all options. -/
theorem Machine.disciplined (options : Options) (source : Input) :
    Machine.Disciplined options source where
  parse := parse_eq options source
  expression h := .of_keeps (expression_keeps _ _ _ _) h
  part h := .of_keeps ((parts_keep (expression_keeps _)).1 _ _ _) h
  statement h := .of_keeps (statement_keeps (expression_keeps _)) h
  element h := .of_keeps (element_keeps (expression_keeps _) (body_keeps (item_keeps _)) _) h
  item h := .of_keeps (item_keeps _ _ _) h
  leaveExpression h := ((extended_keeps (expression_keeps _) _).ok (.refl _) .nil h).2.2.1
  leaveElement h :=
    ((elementNode_keeps (expression_keeps _) (body_keeps (item_keeps _)) _).ok (.refl _) .nil
      h).2.2.1
  boundary h := h.between.depth
  malformed h := itemOrError_mark h
  later h hn hs hrow := agree_after_malformed h hn hs hrow

end Stencil
