import Stencil.Proofs.Elements
import Stencil.Proofs.Workings

/-!
# Items on the machine

The machine adds items to the end of a row, and their nodes to the end of its arena (`Row.Adds`).
What is told of it here are the items without a body: comments (`Machine.comment_carries`), the
bodies of raw blocks (`Row.rawBody_adds`) and statements (`Row.statement_adds`). Whether a statement
begins a raw block is found in the arena as it is in its tree (`Machine.opensRaw_advance`).
-/

namespace Stencil

/-- What comes of reading, where the answer is changed. -/
theorem Reading.result_bind_pure {α β : Type} (x : Reading α) (f : α → β) (s : Input) :
    ((x >>= fun a => pure (f a)) s).result = (x s).result.map fun a => (f a.1, a.2) := by
  cases h : (x s).result with
  | error e => rw [bind_of_error h, Except.map]
  | ok a =>
    rw [bind_of_ok h, Except.map]
    rfl

namespace Machine

variable {n : Nat} {m : Machine} {operand : Extent → Action Machine Nat}
  {reader : Extent → Parser Tree}

/-! ## Comments -/

/-- The next token is read. -/
theorem next_eq {mode : Mode} {t : Token} (h : Token.scan mode m.rest = .ok t) :
    next mode m = (.ok t, { m with rest := t.rest }) := by
  have hpeek : peek mode m = (.ok t, m) := by
    rw [peek, h]
  rw [next, Action.bind_of_ok hpeek]
  rfl

/-- A token that is read after some trees becomes a leaf. -/
theorem leaf_after (hm : m.Placed) {us ts : List Tree} {noted : List Fault} {s : Input} {t : Token}
    (hs : Held m.rest us ts s) (h : t.gap ++ t.start = s) (kind : Kind) :
    leaf kind t { m.advance us noted s with rest := t.rest } =
      (.ok (m.entries.length + Tree.sizes ts),
        m.advance (us ++ [t.leaf none kind]) noted t.rest) := by
  have hplaced : (m.advance us noted s).Placed := hm.advance hs
  have hleaf := leaf_bump hplaced h kind
  rw [advance_advance hm hs, List.append_nil, hs.length_advance] at hleaf
  exact hleaf

/-- A comment ends with the token that closes it. -/
theorem commentEnd_carries (hm : m.Placed) {us ts : List Tree} {s : Input}
    (hs : Held m.rest us ts s) (opener : Token) :
    Carries single m
      (commentEnd opener (Tree.links m.entries.length ts) (Token.scanComment s)
        { m.advance us [] s with rest := (Token.scanComment s).rest }) []
      (if (Token.scanComment s).kind = .commentClose then
        .ok (.node none .comment
          (ts ++ [(Token.scanComment s).leaf (some .closeDelimiter) .delimiter]),
          (Token.scanComment s).rest)
      else .error ⟨⟨.unterminatedDelimiter, opener.start⟩, (Token.scanComment s).rest⟩) := by
  have hscan : Token.scan .comment s = .ok (Token.scanComment s) := rfl
  generalize Token.scanComment s = last at hscan
  have hsource := Token.gap_append_start hscan
  rw [commentEnd]
  split
  · rw [Action.bind_of_ok (leaf_after hm hs hsource .delimiter)]
    have h := hs.append (Held.leaf hsource none (some .closeDelimiter) .delimiter)
    have hlinks : Tree.links m.entries.length
        (ts ++ [last.leaf (some .closeDelimiter) .delimiter]) =
          Tree.links m.entries.length ts ++
            [(some .closeDelimiter, m.entries.length + Tree.sizes ts)] :=
      Tree.links_append _ _ _
    rw [← hlinks, node_advance .comment h]
    exact .ok (h.node none none .comment)
  · have hhalt : { m.advance us [] s with rest := last.rest } =
        m.halt (Tree.entries m.entries.length m.pos us) m.depth [] last.rest := rfl
    rw [hhalt]
    exact .error (e := ⟨⟨.unterminatedDelimiter, opener.start⟩, last.rest⟩)

/-- A comment is read on the machine as it is read into a tree. -/
theorem comment_carries (hm : m.Placed) :
    Carries single m (comment (Token.scanText m.rest)
        { m with rest := (Token.scanText m.rest).rest }) []
      (Markup.comment m.rest).result := by
  have hscan : Token.scan .text m.rest = .ok (Token.scanText m.rest) := rfl
  have hstart : (Token.scanText m.rest).start = m.rest := Token.scanText_start m.rest
  rw [comment, Markup.comment]
  generalize Token.scanText m.rest = opener at hscan hstart
  have hsource := Token.gap_append_start hscan
  have hopener := Held.leaf hsource none (some .openDelimiter) .delimiter
  have hnext : next .comment (m.advance [opener.leaf none .delimiter] [] opener.rest) =
      (.ok (Token.scanComment opener.rest),
        { m.advance [opener.leaf none .delimiter] [] opener.rest with
          rest := (Token.scanComment opener.rest).rest }) := next_eq rfl
  rw [Action.bind_of_ok (leaf_bump hm hsource .delimiter), Action.bind_of_ok hnext]
  by_cases hkind : (Token.scanComment opener.rest).kind = .commentContent
  · have hscan : Token.scan .comment opener.rest = .ok (Token.scanComment opener.rest) := rfl
    have hsource := Token.gap_append_start hscan
    have hcontent := hopener.append (Held.leaf hsource none (some .content) .commentContent)
    have hend := commentEnd_carries hm hcontent opener
    rw [hstart] at hend
    simp only [if_pos hkind]
    rw [Action.bind_of_ok (leaf_after hm hopener hsource .commentContent),
      Action.bind_of_ok (next_eq rfl)]
    exact hend
  · have hend := commentEnd_carries hm hopener opener
    rw [hstart] at hend
    simp only [if_neg hkind]
    exact hend

end Machine

/-! ## Rows of items -/

namespace Row

open Machine

variable {n : Nat} {r : Row} {operand : Extent → Action Machine Nat}
  {reader : Extent → Parser Tree} {noted : List Fault}

/-- The row after some trees were read that are held at its end. -/
def advance (r : Row) (us ts : List Tree) (noted : List Fault) (rest : Input) : Row :=
  ⟨r.links ++ Tree.links r.machine.entries.length ts, r.machine.advance us noted rest⟩

/-- A row to which nothing is added is as it was. -/
@[simp]
theorem advance_nil (r : Row) : r.advance [] [] [] r.machine.rest = r := by
  simp [Row.advance, Tree.links]

/-- What is added later is behind what was added before. -/
theorem advance_advance (hr : r.machine.Placed) {us ts : List Tree} {rest : Input}
    (h : Held r.machine.rest us ts rest) (vs more : List Tree) (noted' : List Fault)
    (rest' : Input) :
    (r.advance us ts noted rest).advance vs more noted' rest' =
      r.advance (us ++ vs) (ts ++ more) (noted ++ noted') rest' := by
  have hlinks : Tree.links r.machine.entries.length ts ++
      Tree.links (r.machine.advance us noted rest).entries.length more =
        Tree.links r.machine.entries.length (ts ++ more) := by
    rw [h.length_advance, Tree.links_append]
  simp only [Row.advance, List.append_assoc, hlinks, Machine.advance_advance hr h]

/-- What is done to the row `r` comes out as what a reader of items does to the input at the cursor
of its machine, where some faults are noted. -/
inductive Adds (r : Row) :
    Except Fault Unit × Row → List Fault → Except Failure (List Tree × Input) → Prop
  /-- The items are at the end of the row, and their nodes at the end of the arena. -/
  | ok {us ts : List Tree} {noted : List Fault} {rest : Input}
    (h : Held r.machine.rest us ts rest) :
    Adds r (.ok (), r.advance us ts noted rest) noted (.ok (ts, rest))
  /-- The fault is the same, and the cursor is where the reader had stopped. Some items may be left,
  as some nodes may. -/
  | error {e : Failure} {links : List Link} {more : List Entry} {depth : Nat} {noted : List Fault} :
    Adds r (.error e.toFault, ⟨r.links ++ links, r.machine.halt more depth noted e.stopped⟩) noted
      (.error e)

/-- Adding comes out well or it fails. -/
theorem Adds.elim {o : Except Fault Unit × Row} {p : Except Failure (List Tree × Input)}
    (h : Adds r o noted p) :
    (∃ us ts rest, Held r.machine.rest us ts rest ∧ o = (.ok (), r.advance us ts noted rest) ∧
      p = .ok (ts, rest)) ∨
    ∃ e links more depth, o = (.error e.toFault,
      ⟨r.links ++ links, r.machine.halt more depth noted e.stopped⟩) ∧ p = .error e := by
  cases h with
  | ok h => exact .inl ⟨_, _, _, h, rfl, rfl⟩
  | error => exact .inr ⟨_, _, _, _, rfl, rfl⟩

/-- What is done to the machine is done to it in the row. -/
theorem lift_eq {α : Type} {x : Action Machine α} {result : Except Fault α} {m m' : Machine}
    (h : x m = (result, m')) (links : List Link) : lift x ⟨links, m⟩ = (result, ⟨links, m'⟩) := by
  simp only [lift, h]

/-- A failure of the machine adds nothing to the row. -/
theorem Adds.halted {e : Failure} {more : List Entry} {depth : Nat} :
    Adds r (.error e.toFault, ⟨r.links, r.machine.halt more depth noted e.stopped⟩) noted
      (.error e) := by
  have h : Adds r (.error e.toFault,
      ⟨r.links ++ [], r.machine.halt more depth noted e.stopped⟩) noted (.error e) := .error
  rwa [List.append_nil] at h

/-- Trees are added to the row. -/
theorem Adds.of_row {x : Action Machine (List Link)} {p : Except Failure (List Tree × Input)}
    (h : Carries row r.machine (x r.machine) noted p) :
    Adds r ((lift x >>= fun links => add links) r) noted p := by
  rcases h.elim with ⟨ts, us, rest, hheld, hx, rfl⟩ | ⟨e, more, depth, hx, rfl⟩
  · rw [Action.bind_of_ok (lift_eq hx r.links)]
    exact .ok hheld
  · rw [Action.bind_of_error (lift_eq hx r.links)]
    exact .halted

/-- A tree that is held under no field is added to the row. -/
theorem Adds.of_single {x : Action Machine Nat} {m : Machine} {p : Except Failure (Tree × Input)}
    (h : Carries single r.machine (x m) noted p)
    (hfield : ∀ t rest, p = .ok (t, rest) → t.field = none) :
    Adds r ((lift x >>= fun id => add [(none, id)]) ⟨r.links, m⟩) noted
      (p.map fun a => ([a.1], a.2)) := by
  rcases h.elim with ⟨t, us, rest, hheld, hx, rfl⟩ | ⟨e, more, depth, hx, rfl⟩
  · rw [Action.bind_of_ok (lift_eq hx r.links)]
    have hlinks : [(none, t.top r.machine.entries.length)] =
        Tree.links r.machine.entries.length [t] := by
      rw [Tree.links, hfield t rest rfl]
      rfl
    show Adds r (.ok (), ⟨r.links ++ [(none, t.top r.machine.entries.length)], _⟩) _ _
    rw [hlinks]
    exact .ok hheld
  · rw [Action.bind_of_error (lift_eq hx r.links)]
    exact .halted

/-- Items that are added after others. -/
theorem Adds.after (hr : r.machine.Placed) {us ts : List Tree} {rest : Input}
    (h : Held r.machine.rest us ts rest) {noted' : List Fault} {o : Except Fault Unit × Row}
    {p : Except Failure (List Tree × Input)}
    (ho : Adds (r.advance us ts noted rest) o noted' p) :
    Adds r o (noted ++ noted') (p.map fun a => (ts ++ a.1, a.2)) := by
  cases ho with
  | @ok vs more _ rest' hheld =>
    rw [advance_advance hr h]
    exact .ok (h.append hheld)
  | @error e links more depth _ =>
    simp only [Row.advance, List.append_assoc]
    rw [halt_advance]
    exact .error

/-- Nothing is added. -/
theorem Adds.nothing (r : Row) : Adds r (.ok (), r) [] (.ok ([], r.machine.rest)) := by
  have h : Adds r (.ok (), r.advance [] [] [] r.machine.rest) [] (.ok ([], r.machine.rest)) :=
    .ok (.nil _)
  rwa [advance_nil] at h

/-- A failure behind a token that is no node. -/
theorem Adds.failed (fault : Fault) (s : Input) :
    Adds r (.error fault, ⟨r.links, { r.machine with rest := s }⟩) [] (.error ⟨fault, s⟩) := by
  have h : Adds r (.error fault, ⟨r.links ++ [], r.machine.halt [] r.machine.depth [] s⟩) []
      (.error ⟨fault, s⟩) := .error (e := ⟨fault, s⟩)
  simp only [halt, List.append_nil] at h
  exact h

/-- The body of a raw block is added to a row as it is read into trees. -/
theorem rawBody_adds (hr : r.machine.Placed) (opener : Input) :
    Adds r (rawBody opener r) [] (Markup.rawBody opener r.machine.rest).result := by
  have hscan : Token.scan .raw r.machine.rest = .ok (Token.scanRaw r.machine.rest) := rfl
  have hgap : (Token.scanRaw r.machine.rest).gap = [] := rfl
  rw [rawBody, Markup.rawBody_result]
  generalize Token.scanRaw r.machine.rest = body at hscan hgap
  have hsource := Token.gap_append_start hscan
  rw [Action.bind_of_ok (lift_eq (next_eq hscan) r.links)]
  by_cases hrest : body.rest = []
  · rw [if_pos hrest, if_pos hrest, hrest]
    exact .failed _ []
  · rw [if_neg hrest, if_neg hrest]
    by_cases htext : body.text = []
    · -- Nothing was read.
      have hnothing : body.rest = r.machine.rest := by
        rw [← hsource, hgap, Token.start, htext]
        rfl
      rw [if_pos htext, if_pos htext, hnothing]
      exact .nothing r
    · rw [if_neg htext, if_neg htext]
      have hleaf : Carries single r.machine
          (leaf .text body { r.machine with rest := body.rest }) []
          (.ok (body.leaf none .text, body.rest)) := by
        rw [leaf_bump hr hsource]
        exact .ok (b := body.leaf none .text) (.leaf hsource _ _ _)
      exact Adds.of_single hleaf fun t rest h => by
        cases h
        rfl

/-- A tree that was read is found in the arena with its children. -/
theorem exists_entry_advance {m : Machine} {us : List Tree} {t : Tree} {rest : Input}
    (h : Held m.rest us [t] rest) (noted : List Fault) :
    ∃ e, (m.advance us noted rest).entries[t.top m.entries.length]? = some e ∧
      e.children = (Tree.placeAll m.entries.length m.pos t.children).map Node.id ∧
      ∀ c ∈ Tree.placeAll m.entries.length m.pos t.children,
        (m.advance us noted rest).entries[c.id]? = some c.entry := by
  obtain ⟨f, hfound⟩ := Tree.exists_getElem?_head m.pos m.entries h.bare
  obtain ⟨u, us', rfl, hu, hus⟩ := List.map_eq_cons_iff.1 h.bare
  obtain rfl := List.map_eq_nil_iff.1 hus
  have hentries : (m.advance [u] noted rest).entries =
      m.entries ++ Tree.entries m.entries.length m.pos t.children ++
        [(u.place m.entries.length m.pos).entry] := by
    rw [Machine.advance, Tree.entries_singleton, (Tree.alike_of_under hu).1, List.append_assoc]
  refine ⟨_, hfound, ?_, fun c hc => ?_⟩
  · rw [← Tree.place_children]
    rfl
  · rw [hentries]
    exact Tree.getElem?_of_mem_placeAll m.pos m.entries _ hc

/-- The arena tells of a statement whether it begins a raw block. -/
theorem opensRaw_advance {m : Machine} {us : List Tree} {t : Tree} {rest : Input}
    (h : Held m.rest us [t] rest) :
    opensRaw (m.advance us noted rest).entries (Tree.links m.entries.length [t]) =
      Markup.opensRaw [t] := by
  obtain ⟨e, hfound, hids, hchildren⟩ := exists_entry_advance h noted
  have hkinds : (Tree.placeAll m.entries.length m.pos t.children).any
      (fun c => decide (c.kind = .rawStatement)) =
        t.children.any fun body => decide (body.kind = .rawStatement) := by
    conv => rhs; rw [← Tree.placeAll_tree m.entries.length m.pos t.children, List.any_map]
    rfl
  simp only [opensRaw, Markup.opensRaw, Tree.links, List.any_cons, List.any_nil, Bool.or_false,
    hfound, Option.any_some, hids, List.any_map]
  rw [← hkinds]
  rw [Bool.eq_iff_iff, List.any_eq_true, List.any_eq_true]
  refine exists_congr fun c => and_congr_right fun hc => ?_
  rw [Function.comp_apply, hchildren c hc]
  rfl

/-- What is looked at for that is in the arena. -/
theorem visit_asked_advance {m : Machine} {us : List Tree} {t : Tree} {rest : Input}
    (h : Held m.rest us [t] rest) :
    (m.advance us noted rest).visit
        (asked (m.advance us noted rest).entries (Tree.links m.entries.length [t])) =
      m.advance us noted rest := by
  obtain ⟨e, hfound, hids, hchildren⟩ := exists_entry_advance h noted
  refine visit_of_lt (List.forall_mem_append.2 ⟨List.forall_mem_map.2 (h.links_lt noted), ?_⟩)
  intro id hid
  simp only [Tree.links, List.flatMap_cons, List.flatMap_nil, List.append_nil, hfound,
    Option.elim_some, hids] at hid
  obtain ⟨c, hc, rfl⟩ := List.mem_map.1 hid
  exact (List.getElem?_eq_some_iff.1 (hchildren c hc)).1

/-- A statement is added to a row as it is read into trees, with the body of its raw block. -/
theorem statement_adds (ho : OperandsCarry n operand reader) (hr : r.machine.Ready n) :
    Adds r (statement operand r) [] (Markup.statement reader r.machine.rest).result := by
  have hpure : Markup.statement reader r.machine.rest =
      (Reading.quiet (Part.statement.read reader) >>= fun ts =>
        if Markup.opensRaw ts then
          Markup.rawBody r.machine.rest >>= fun body => pure (ts ++ body)
        else pure ts) r.machine.rest := Reading.bind_of_ok (x := Reading.here) rfl
  rw [hpure, statement, Action.bind_of_ok (lift_eq (x := here) rfl r.links)]
  rcases ((parts_carry ho).1 Part.statement rfl hr).elim with
    ⟨ts, us, rest, h, hx, hp⟩ | ⟨e, more, depth, hx, hp⟩
  · obtain ⟨first, s', inner, -, -, rfl⟩ := Part.exists_of_read_enclosed hp
    generalize Tree.node none .statement (first :: inner) = t at h hx hp
    have h : Held r.machine.rest us [t] rest := h
    have hx : part operand Part.statement r.machine =
      (.ok (Tree.links r.machine.entries.length [t]), r.machine.advance us [] rest) := hx
    have hadd : add (Tree.links r.machine.entries.length [t])
        ⟨r.links, r.machine.advance us [] rest⟩ = (.ok (), r.advance us [t] [] rest) := rfl
    have hraw : lift
        (fun m => (.ok (opensRaw m.entries (Tree.links r.machine.entries.length [t])),
          m.visit (asked m.entries (Tree.links r.machine.entries.length [t]))))
        (r.advance us [t] [] rest) = (.ok (Markup.opensRaw [t]), r.advance us [t] [] rest) :=
      lift_eq (by rw [opensRaw_advance h, visit_asked_advance h]) _
    rw [Action.bind_of_ok (lift_eq hx r.links), Reading.quiet_bind_of_ok hp,
      Action.bind_of_ok hadd, Action.bind_of_ok hraw]
    cases Markup.opensRaw [t] with
    | false => exact .ok h
    | true =>
      have hbody : Adds (r.advance us [t] [] rest) _ []
          (Markup.rawBody r.machine.rest rest).result :=
        rawBody_adds (r := r.advance us [t] [] rest) (hr.placed.advance h) r.machine.rest
      show Adds r _ []
        ((Markup.rawBody r.machine.rest >>= fun body => pure ([t] ++ body)) rest).result
      rw [Reading.result_bind_pure]
      exact hbody.after hr.placed h
  · rw [Action.bind_of_error (lift_eq hx r.links), Reading.quiet_bind_of_error hp]
    exact .halted

end Row

end Stencil
