import Stencil.Proofs.Diagnoses
import Stencil.Proofs.Entries
import Stencil.Proofs.Ordering

/-!
# Productions in place

What a reader of trees does to the input, the machine does to its state (`Machine.Carries`): where
the reader answers trees the machine adds their nodes to the end of its arena and goes on where the
reader does, and all else is as before; where the reader fails the machine fails with the same
fault, its cursor is where the reader had stopped, and what was in the arena before is still there.
The module shows it of tokens, nodes and levels, and of doing one thing after another
(`Machine.Carries.bind_after`).
-/

namespace Stencil

namespace Machine

variable {α β γ δ : Type} {m : Machine}

/-! ## What a reading leaves -/

/-- The machine after some trees were read, whose nodes are at the end of the arena now. -/
def advance (m : Machine) (us : List Tree) (noted : List Fault) (rest : Input) : Machine :=
  { m with
    rest := rest
    entries := m.entries ++ Tree.entries m.entries.length m.pos us
    faults := m.faults ++ noted }

/-- The machine after a reading failed. Some nodes may be left, and the level is any. -/
def halt (m : Machine) (more : List Entry) (depth : Nat) (noted : List Fault) (stopped : Input) :
    Machine :=
  { m with
    rest := stopped
    entries := m.entries ++ more
    depth := depth
    faults := m.faults ++ noted }

/-- How what a reader answers stands in a machine whose arena had a given length. -/
structure Form (α β : Type) where
  /-- What the machine answers. -/
  value : Nat → β → α
  /-- The trees that the reader answers. -/
  trees : β → List Tree

/-- A row of trees is known by their links. -/
def row : Form (List Link) (List Tree) := ⟨Tree.links, id⟩

/-- A tree is known by its root. -/
def single : Form Nat Tree := ⟨fun id t => t.top id, fun t => [t]⟩

/-- A token is known by its link. -/
def link : Form Link Tree := ⟨fun id t => (t.field, t.top id), fun t => [t]⟩

/-- Other answers are the same, and there are no trees. -/
def silent (α : Type) : Form α α := ⟨fun _ a => a, fun _ => []⟩

/-- Some trees were read of `s` up to where `rest` is left, and are stored, as yet under any
fields. -/
structure Held (s : Input) (us ts : List Tree) (rest : Input) : Prop where
  bare : Tree.bare us = Tree.bare ts
  source : Tree.sources us ++ rest = s

/-- What is done to the machine `m` comes out as what a reader does to the input at its cursor,
where some faults are noted. -/
inductive Carries (form : Form α β) (m : Machine) :
    Except Fault α × Machine → List Fault → Except Failure (β × Input) → Prop
  /-- The trees that the reader answers are at the end of the arena. -/
  | ok {b : β} {us : List Tree} {noted : List Fault} {rest : Input}
    (h : Held m.rest us (form.trees b) rest) :
    Carries form m (.ok (form.value m.entries.length b), m.advance us noted rest) noted
      (.ok (b, rest))
  /-- The fault is the same, and the cursor is where the reader had stopped. -/
  | error {e : Failure} {more : List Entry} {depth : Nat} {noted : List Fault} :
    Carries form m (.error e.toFault, m.halt more depth noted e.stopped) noted (.error e)

/-- The cursor of the machine is in its source. -/
def Placed (m : Machine) : Prop := m.rest <:+ m.source

/-- The cursor of the machine is in its source, and `n` more levels are allowed. -/
structure Ready (n : Nat) (m : Machine) : Prop where
  placed : m.Placed
  levels : m.depth + n = m.options.maxDepth

/-- One level further down one level less is allowed. -/
theorem Ready.down {n : Nat} (hm : m.Ready (n + 1)) : m.down.Ready n := by
  refine ⟨hm.placed, ?_⟩
  have hlevels := hm.levels
  simp only [Machine.down]
  omega

section Held

variable {s s' rest : Input} {us ts vs ts' : List Tree} {t u : Tree}

/-- No trees are held before anything is read. -/
theorem Held.nil (s : Input) : Held s [] [] s := ⟨rfl, rfl⟩

/-- Trees that were read one after the other. -/
theorem Held.append (h : Held s us ts s') (h' : Held s' vs ts' rest) :
    Held s (us ++ vs) (ts ++ ts') rest := by
  refine ⟨by rw [Tree.bare_append, Tree.bare_append, h.bare, h'.bare], ?_⟩
  rw [Tree.sources_append, List.append_assoc, h'.source, h.source]

/-- A tree that is to be held under a field. -/
theorem Held.under (h : Held s us [t] rest) (f : Option Field) : Held s us [t.under f] rest := by
  refine ⟨h.bare.trans ?_, h.source⟩
  simp [Tree.bare, Tree.under_under]

/-- As many nodes are stored as the trees have. -/
theorem Held.sizes (h : Held s us ts rest) : Tree.sizes us = Tree.sizes ts :=
  (Tree.alike_of_bare h.bare).1

/-- Without trees nothing was read. -/
theorem Held.eq_nil (h : Held s us [] rest) : us = [] ∧ rest = s := by
  obtain rfl := List.map_eq_nil_iff.1 h.bare
  exact ⟨rfl, h.source⟩

/-- The trees become the children of a node. -/
theorem Held.node (h : Held s us ts rest) (f g : Option Field) (kind : Kind) :
    Held s [.node f kind ts] [.node g kind ts] rest := by
  refine ⟨rfl, ?_⟩
  rw [← h.source, (Tree.alike_of_bare h.bare).2.1]
  simp [Tree.sources, Tree.source]

/-- What a node is made of was read where the node was. -/
theorem Held.children {f : Option Field} {kind : Kind} (h : Held s us [.node f kind ts] rest)
    (hts : Tree.bare ts = Tree.bare ts') : Held s ts ts' rest := by
  refine ⟨hts, ?_⟩
  rw [← h.source, (Tree.alike_of_bare h.bare).2.1]
  simp [Tree.sources, Tree.source]

end Held

/-- A machine that has read nothing is as it was. -/
@[simp]
theorem advance_nil (m : Machine) : m.advance [] [] m.rest = m := by
  simp [advance]

/-- A machine that failed at once is as it was. -/
@[simp]
theorem halt_nil (m : Machine) : m.halt [] m.depth [] m.rest = m := by
  simp [halt]

/-- What is left behind some text is as many bytes further on. -/
theorem Placed.offset (hm : m.Placed) {text : List Char} {rest : Input}
    (h : text ++ rest = m.rest) : offset m.size rest = m.pos + byteLength text := by
  have hsize : byteLength (text ++ rest) ≤ m.size := by
    rw [h]
    exact byteLength_le_of_suffix hm
  rw [pos, ← h]
  exact offset_append hsize

/-- What is read later is behind what was read before. -/
theorem advance_advance (hm : m.Placed) {us vs ts : List Tree} {noted noted' : List Fault}
    {rest rest' : Input} (h : Held m.rest us ts rest) :
    (m.advance us noted rest).advance vs noted' rest' =
      m.advance (us ++ vs) (noted ++ noted') rest' := by
  have hpos : (m.advance us noted rest).pos = m.pos + byteLength (Tree.sources us) :=
    hm.offset h.source
  rw [advance, hpos]
  simp [advance, Tree.entries_append]

/-- The arena has as many nodes more as the trees that were read. -/
theorem Held.length_advance {us ts : List Tree} {rest : Input} (h : Held m.rest us ts rest)
    (noted : List Fault) :
    (m.advance us noted rest).entries.length = m.entries.length + Tree.sizes ts := by
  simp [advance, h.sizes]

/-- Trees that wait are in the arena. -/
theorem Held.links_lt {us ts : List Tree} {rest : Input} (h : Held m.rest us ts rest)
    (noted : List Fault) :
    ∀ link ∈ Tree.links m.entries.length ts, link.2 < (m.advance us noted rest).entries.length := by
  intro link hlink
  rw [h.length_advance]
  exact Tree.links_lt _ hlink

/-- A failure after some trees were read. -/
theorem halt_advance (us : List Tree) (noted noted' : List Fault) (rest stopped : Input)
    (more : List Entry) (depth : Nat) :
    (m.advance us noted rest).halt more depth noted' stopped =
      m.halt (Tree.entries m.entries.length m.pos us ++ more) depth (noted ++ noted') stopped := by
  simp [advance, halt]

/-- The cursor stays in the source. -/
theorem Placed.advance (hm : m.Placed) {us ts : List Tree} {noted : List Fault} {rest : Input}
    (h : Held m.rest us ts rest) : (m.advance us noted rest).Placed :=
  (List.suffix_append _ rest).trans (by rwa [h.source])

/-- After a reading the same levels are allowed as before it. -/
theorem Ready.advance {n : Nat} (hm : m.Ready n) {us ts : List Tree} {noted : List Fault}
    {rest : Input} (h : Held m.rest us ts rest) : (m.advance us noted rest).Ready n :=
  ⟨hm.placed.advance h, hm.levels⟩

/-! ## Composition -/

namespace Carries

variable {F : Form α β} {G : Form γ δ} {o : Except Fault α × Machine}
  {noted : List Fault} {r : Except Failure (β × Input)}

/-- A reading comes out well or it fails. -/
theorem elim (h : Carries F m o noted r) :
    (∃ b us rest, Held m.rest us (F.trees b) rest ∧
      o = (.ok (F.value m.entries.length b), m.advance us noted rest) ∧ r = .ok (b, rest)) ∨
    ∃ e more depth, o = (.error e.toFault, m.halt more depth noted e.stopped) ∧ r = .error e := by
  cases h with
  | ok h => exact .inl ⟨_, _, _, h, rfl, rfl⟩
  | error => exact .inr ⟨_, _, _, rfl, rfl⟩

/-- Where the reader succeeds the machine does. -/
theorem of_ok {b : β} {rest : Input} (h : Carries F m o noted (.ok (b, rest))) :
    ∃ us, Held m.rest us (F.trees b) rest ∧
      o = (.ok (F.value m.entries.length b), m.advance us noted rest) := by
  cases h with
  | ok h => exact ⟨_, h, rfl⟩

/-- Where the reader fails the machine does. -/
theorem of_error {e : Failure} (h : Carries F m o noted (.error e)) :
    ∃ more depth, o = (.error e.toFault, m.halt more depth noted e.stopped) := by
  cases h with
  | error => exact ⟨_, _, rfl⟩

/-- An answer without trees that leaves the machine as it is. -/
theorem still (a : α) : Carries (silent α) m (.ok a, m) [] (.ok (a, m.rest)) := by
  have h : Carries (silent α) m (.ok a, m.advance [] [] m.rest) [] (.ok (a, m.rest)) :=
    .ok (.nil _)
  rwa [advance_nil] at h

/-- A failure that leaves the machine as it is. -/
theorem failed (fault : Fault) :
    Carries F m (.error fault, m) [] (.error ⟨fault, m.rest⟩) := by
  have h : Carries F m (.error fault, m.halt [] m.depth [] m.rest) [] (.error ⟨fault, m.rest⟩) :=
    .error (e := ⟨fault, m.rest⟩)
  rwa [halt_nil] at h

/-- What is answered after some trees. -/
theorem answer {a : α} {b : β} {us : List Tree} {rest : Input}
    (hvalue : a = F.value m.entries.length b) (h : Held m.rest us (F.trees b) rest) :
    Carries F m (.ok a, m.advance us noted rest) noted (.ok (b, rest)) := by
  rw [hvalue]
  exact .ok h

/-- What is answered at the end. -/
theorem pure {a : α} {b : β} {us : List Tree} {rest : Input}
    (hvalue : a = F.value m.entries.length b) (h : Held m.rest us (F.trees b) rest) :
    Carries F m ((Pure.pure a : Action Machine α) (m.advance us noted rest)) noted
      ((Pure.pure b : Parser β) rest) := answer hvalue h

/-- What is read after some trees. -/
theorem bind_after (hm : m.Placed) {us ts : List Tree} {s : Input} (hs : Held m.rest us ts s)
    {x : Action Machine α} {p : Parser β} {f : α → Action Machine γ} {g : β → Parser δ}
    (hx : Carries F (m.advance us noted s) (x (m.advance us noted s)) [] (p s))
    (hf : ∀ b vs rest, Held m.rest vs (ts ++ F.trees b) rest → p s = .ok (b, rest) →
      Carries G m (f (F.value (m.entries.length + Tree.sizes ts) b) (m.advance vs noted rest))
        noted (g b rest)) :
    Carries G m ((x >>= f) (m.advance us noted s)) noted ((p >>= g) s) := by
  rcases hx.elim with ⟨b, vs, rest, hrest, hx, hp⟩ | ⟨e, more, depth, hx, hp⟩
  · rw [Action.bind_of_ok hx, Parser.bind_of_ok hp, advance_advance hm hs, hs.length_advance,
      List.append_nil]
    exact hf b (us ++ vs) rest (hs.append hrest) hp
  · rw [Action.bind_of_error hx, Parser.bind_eq_error.2 (.inl hp), halt_advance, List.append_nil]
    exact .error

/-- What is read one after the other. -/
theorem bind (hm : m.Placed) {x : Action Machine α} {p : Parser β} {f : α → Action Machine γ}
    {g : β → Parser δ} (hx : Carries F m (x m) [] (p m.rest))
    (hf : ∀ b us rest, Held m.rest us (F.trees b) rest → p m.rest = .ok (b, rest) →
      Carries G m (f (F.value m.entries.length b) (m.advance us [] rest)) [] (g b rest)) :
    Carries G m ((x >>= f) m) [] ((p >>= g) m.rest) := by
  have h := bind_after (G := G) (f := f) (g := g) hm (.nil m.rest) (by rwa [advance_nil]) hf
  rwa [advance_nil] at h

/-- What reads no trees is followed from the same machine. -/
theorem bind_silent_after {us ts : List Tree} {s : Input} (hs : Held m.rest us ts s)
    {x : Action Machine α} {p : Parser α} {f : α → Action Machine γ} {g : α → Parser δ}
    (hx : Carries (silent α) (m.advance us noted s) (x (m.advance us noted s)) [] (p s))
    (hf : ∀ a, p s = .ok (a, s) → Carries G m (f a (m.advance us noted s)) noted (g a s)) :
    Carries G m ((x >>= f) (m.advance us noted s)) noted ((p >>= g) s) := by
  rcases hx.elim with ⟨a, vs, rest, hrest, hx, hp⟩ | ⟨e, more, depth, hx, hp⟩
  · obtain ⟨rfl, rfl⟩ := hrest.eq_nil
    have hx := hx.trans (congrArg (Prod.mk _) (advance_nil (m.advance us noted rest)))
    rw [Action.bind_of_ok hx, Parser.bind_of_ok hp]
    exact hf a hp
  · rw [Action.bind_of_error hx, Parser.bind_eq_error.2 (.inl hp), halt_advance, List.append_nil]
    exact .error

/-- What reads no trees is followed from the same machine. -/
theorem bind_silent {x : Action Machine α} {p : Parser α}
    {f : α → Action Machine γ} {g : α → Parser δ}
    (hx : Carries (silent α) m (x m) [] (p m.rest))
    (hf : ∀ a, p m.rest = .ok (a, m.rest) → Carries G m (f a m) [] (g a m.rest)) :
    Carries G m ((x >>= f) m) [] ((p >>= g) m.rest) := by
  have h := bind_silent_after (G := G) (f := f) (g := g) (.nil m.rest) (by rwa [advance_nil])
    (by rwa [advance_nil])
  rwa [advance_nil] at h

/-- Reading inside an opener. -/
theorem inside {m' : Machine} (opener : Input) {x : Action Machine α}
    (h : Carries F m (x m') noted r) :
    Carries F m (Machine.inside opener x m') noted (r.mapError (Failure.inside opener)) := by
  rcases h.elim with ⟨b, us, rest, hheld, hx, rfl⟩ | ⟨e, more, depth, hx, rfl⟩
  · simp only [Machine.inside, hx]
    exact .ok hheld
  · have hstopped : (e.inside opener).stopped = e.stopped := e.stopped_inside opener
    have herror : Carries F m (.error (e.inside opener).toFault,
        m.halt more depth noted (e.inside opener).stopped) noted (.error (e.inside opener)) :=
      .error
    rw [hstopped] at herror
    simp only [Machine.inside, hx]
    exact herror

/-- Where no more levels are allowed the next one is refused. -/
theorem refused (hm : m.Ready 0) (found s : Input) (x : Unit → Action Machine α) :
    Carries F m ((enter found >>= x) { m with rest := s }) []
      (.error ⟨⟨.nestingTooDeep, found⟩, s⟩) := by
  have hlevels := hm.levels
  have henter : enter found { m with rest := s } =
      (.error ⟨.nestingTooDeep, found⟩, { m.down with rest := s }) :=
    if_pos (by simp only [down]; omega)
  have hdown : { m.down with rest := s } = m.halt [] (m.depth + 1) [] s := by simp [down, halt]
  rw [Action.bind_of_error henter, hdown]
  exact .error (e := ⟨⟨.nestingTooDeep, found⟩, s⟩)

/-- A level that is gone down is gone up again. -/
theorem level {n : Nat} (hm : m.Ready (n + 1)) (found s : Input) {x : Action Machine α}
    (h : Carries F m.down (x { m.down with rest := s }) noted r) :
    Carries F m ((do enter found; let a ← x; leave; return a) { m with rest := s }) noted r := by
  have hlevels := hm.levels
  have henter : enter found { m with rest := s } = (.ok (), { m.down with rest := s }) :=
    if_neg (by simp only [down]; omega)
  rw [Action.bind_of_ok henter]
  rcases h.elim with ⟨b, us, rest, hheld, hx, rfl⟩ | ⟨e, more, depth, hx, rfl⟩
  · rw [Action.bind_of_ok hx]
    exact .ok hheld
  · rw [Action.bind_of_error hx]
    exact .error

end Carries

/-! ## Tokens and nodes -/

/-- Looking at a token. -/
theorem peek_carries (mode : Mode) (m : Machine) :
    Carries (silent Token) m (peek mode m) [] (Parser.peek mode m.rest) := by
  unfold peek Parser.peek
  cases Token.scan mode m.rest with
  | ok t => exact .still t
  | error fault => exact .failed fault

/-- Looking at what comes next. -/
theorem look_carries (l : Look) (m : Machine) :
    Carries (silent Bool) m (look l m) [] (l.holds m.rest) := by
  cases l with
  | next mode pattern => exact (peek_carries mode m).bind_silent fun t _ => .still _
  | named => exact .still _

/-- A token that is read becomes a leaf. -/
theorem leaf_bump {t : Token} (hm : m.Placed) (h : t.gap ++ t.start = m.rest) (kind : Kind) :
    leaf kind t { m with rest := t.rest } =
      (.ok ((t.leaf none kind).top m.entries.length), m.advance [t.leaf none kind] [] t.rest) := by
  have hstart : offset m.size t.start = m.pos + byteLength t.gap := hm.offset h
  have hstop : offset m.size t.rest = m.pos + byteLength t.gap + byteLength t.text := by
    rw [Nat.add_assoc, ← byteLength_append]
    exact hm.offset (by rw [List.append_assoc]; exact h)
  have hentries : Tree.entries m.entries.length m.pos [t.leaf none kind] =
      [⟨none, kind, offset m.size t.start, offset m.size t.rest, []⟩] := by
    rw [Tree.entries_singleton, hstart, hstop]
    rfl
  rw [advance, hentries, List.append_nil]
  rfl

/-- A token that is read is held as a leaf. -/
theorem Held.leaf {s : Input} {t : Token} (h : t.gap ++ t.start = s) (f g : Option Field)
    (kind : Kind) : Held s [t.leaf f kind] [t.leaf g kind] t.rest := by
  refine ⟨rfl, ?_⟩
  rw [← h]
  simp [Token.leaf, Tree.sources, Token.start]

/-- A token of a production. -/
theorem terminal_carries (t : Terminal) (hm : m.Placed) :
    Carries link m (terminal t m) [] (t.read m.rest) := by
  rw [terminal, Terminal.read]
  refine (peek_carries t.mode m).bind_silent fun next hnext => ?_
  obtain ⟨hscan, -⟩ := Parser.peek_eq_ok.1 hnext
  cases htake : t.pattern.take? next with
  | none => exact .failed _
  | some taken =>
    obtain ⟨hgap, hstart⟩ := Pattern.take?_start htake
    have hsource : taken.gap ++ taken.start = m.rest := by
      rw [hgap, hstart, Token.gap_append_start hscan]
    have hbump : bump taken m = (.ok (), { m with rest := taken.rest }) := rfl
    simp only [Action.bind_of_ok hbump, Action.bind_of_ok (leaf_bump hm hsource t.kind)]
    exact .ok (b := taken.leaf t.field t.kind) (.leaf hsource _ _ _)

/-- The first of some trees that wait tells where they begin. -/
theorem Held.start {us ts : List Tree} {noted : List Fault} {rest : Input}
    (h : Held m.rest us ts rest) (kind : Kind) :
    ((Tree.links m.entries.length ts).head?.bind fun l =>
        (m.advance us noted rest).entries[l.2]?).elim (m.advance us noted rest).pos Entry.start =
      ((Tree.node none kind ts).place m.entries.length m.pos).start := by
  cases ts with
  | nil =>
    obtain ⟨rfl, rfl⟩ := h.eq_nil
    rfl
  | cons t ts =>
    obtain ⟨f, hfound⟩ := Tree.exists_getElem?_head m.pos m.entries h.bare
    have hfound : (m.advance us noted rest).entries[t.top m.entries.length]? = _ := hfound
    rw [Tree.links, List.head?_cons, Option.bind_some, hfound]
    rfl

/-- The last of some trees that wait tells where they end. -/
theorem Held.stop {us ts : List Tree} {noted : List Fault} {rest : Input}
    (h : Held m.rest us ts rest) (kind : Kind) :
    ((Tree.links m.entries.length ts).getLast?.bind fun l =>
        (m.advance us noted rest).entries[l.2]?).elim (m.advance us noted rest).pos Entry.stop =
      ((Tree.node none kind ts).place m.entries.length m.pos).stop := by
  rcases List.eq_nil_or_concat ts with rfl | ⟨front, t, rfl⟩
  · obtain ⟨rfl, rfl⟩ := h.eq_nil
    rfl
  · rw [List.concat_eq_append] at h ⊢
    obtain ⟨f, hfound⟩ := Tree.exists_getElem?_entries m.pos m.entries h.bare
    have hfound : (m.advance us noted rest).entries[
      t.top (m.entries.length + Tree.sizes front)]? = _ := hfound
    have hlast : (Tree.links m.entries.length (front ++ [t])).getLast? =
        some (t.field, t.top (m.entries.length + Tree.sizes front)) := by
      rw [Tree.links_append, Tree.links, Tree.links, List.getLast?_concat]
    have hplace : (Tree.placeAll m.entries.length m.pos (front ++ [t])).getLast? =
        some (t.place (m.entries.length + Tree.sizes front)
          (m.pos + byteLength (Tree.sources front))) := by
      rw [Tree.placeAll_append, Tree.placeAll_cons, Tree.placeAll_nil, List.getLast?_concat]
    rw [hlast, Option.bind_some, hfound, Tree.place, hplace]
    rfl

/-- Trees that wait are made the children of a node. -/
theorem node_advance (kind : Kind) {us ts : List Tree} {noted : List Fault} {rest : Input}
    (h : Held m.rest us ts rest) :
    node kind (Tree.links m.entries.length ts) (m.advance us noted rest) =
      (.ok ((Tree.node none kind ts).top m.entries.length),
        m.advance [.node none kind ts] noted rest) := by
  have hentry : ((Tree.node none kind ts).place m.entries.length m.pos).entry =
      ⟨none, kind, ((Tree.node none kind ts).place m.entries.length m.pos).start,
        ((Tree.node none kind ts).place m.entries.length m.pos).stop,
        (Tree.links m.entries.length ts).map Prod.snd⟩ := by
    rw [Tree.links_ids _ m.pos]
    rfl
  have hlength : (m.advance us noted rest).entries.length =
      (Tree.node none kind ts).top m.entries.length := h.length_advance noted
  have hassign : assign (m.advance us noted rest).entries (Tree.links m.entries.length ts) =
      m.entries ++ Tree.entries m.entries.length m.pos ts := assign_entries _ _ h.bare
  have hlinks := h.links_lt noted
  rw [node_of_lt kind hlinks, h.start kind, h.stop kind, push_of_lt _ _ _ hlinks, hlength, hassign,
    ← hentry, advance, advance, Tree.entries_singleton, Tree.children, List.append_assoc]

/-! ## Rounds -/

/-- What is known of the answer `b` after a round that may answer another one. -/
def Form.round (form : Form α β) (b : β) : Form (Option α) (Option β) :=
  ⟨fun id o => o.map (form.value id), fun o => form.trees (o.getD b)⟩

/-- A parser that changes its answer. -/
theorem bind_pure_eq {p : Parser β} (f : β → δ) (s : Input) :
    (p >>= fun b => Pure.pure (f b)) s = (p s).map fun r => (f r.1, r.2) := by
  cases h : p s with
  | error e => exact Parser.bind_eq_error.2 (.inl h)
  | ok r => exact Parser.bind_of_ok h

section Iterate

variable {round : α → Action Machine (Option α)} {a b : α} {m' : Machine}

/-- Rounds fail if one does. -/
theorem iterate_of_error {fault : Fault} (h : round a m = (.error fault, m')) :
    iterate round a m = (.error fault, m') := by
  rw [iterate, h]

/-- A round that answers nothing is the last one. -/
theorem iterate_of_none (h : round a m = (.ok none, m')) : iterate round a m = (.ok a, m') := by
  rw [iterate, h]

/-- A round that reads something is followed by others. -/
theorem iterate_of_some (h : round a m = (.ok (some b), m'))
    (hlt : m'.rest.length < m.rest.length) : iterate round a m = iterate round b m' := by
  rw [iterate, h]
  exact if_pos hlt

/-- A round that reads nothing is the last one. -/
theorem iterate_of_stuck (h : round a m = (.ok (some b), m'))
    (hlt : ¬m'.rest.length < m.rest.length) : iterate round a m = (.ok b, m') := by
  rw [iterate, h]
  exact if_neg hlt

end Iterate

/-- Rounds that extend what is read are what one reads in rounds, put together. -/
theorem iterate_carries {F : Form α β} {round : α → Action Machine (Option α)}
    {p : Parser (Option γ)} {extend : β → γ → β}
    (hround : ∀ {b us s}, Held m.rest us (F.trees b) s →
      Carries (F.round b) m (round (F.value m.entries.length b) (m.advance us [] s)) []
        ((p s).map fun r => (r.1.map (extend b), r.2)))
    {b : β} {us : List Tree} {s : Input} (hs : Held m.rest us (F.trees b) s) :
    Carries F m (iterate round (F.value m.entries.length b) (m.advance us [] s)) []
      ((Parser.many p >>= fun cs => Pure.pure (cs.foldl extend b)) s) := by
  rw [bind_pure_eq]
  fun_induction Parser.many p s generalizing b us with
  | case1 s e hp =>
    have h := hround hs
    rw [hp] at h
    obtain ⟨more, depth, hx⟩ := h.of_error
    rw [iterate_of_error hx]
    exact .error
  | case2 s rest hp =>
    have h := hround hs
    rw [hp] at h
    obtain ⟨vs, hrest, hx⟩ := h.of_ok
    rw [iterate_of_none hx]
    exact .ok hrest
  | case3 s c rest hp hlt e hmany ih =>
    have h := hround hs
    rw [hp] at h
    obtain ⟨vs, hrest, hx⟩ := h.of_ok
    have ih := ih (b := extend b c) hrest
    rw [hmany] at ih
    rw [iterate_of_some hx hlt]
    exact ih
  | case4 s c rest hp hlt cs stop hmany ih =>
    have h := hround hs
    rw [hp] at h
    obtain ⟨vs, hrest, hx⟩ := h.of_ok
    have ih := ih (b := extend b c) hrest
    rw [hmany] at ih
    rw [iterate_of_some hx hlt]
    exact ih
  | case5 s c rest hp hlt =>
    have h := hround hs
    rw [hp] at h
    obtain ⟨vs, hrest, hx⟩ := h.of_ok
    rw [iterate_of_stuck hx hlt]
    exact .ok hrest

end Machine

end Stencil
