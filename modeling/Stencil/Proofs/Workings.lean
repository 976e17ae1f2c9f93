import Stencil.Proofs.Carrying
import Stencil.Proofs.Trials

/-!
# Productions on the machine

The machine reads by the productions by which trees are read. Whatever part of a production it is,
and whatever parts are in it, what is read of it on the machine carries what is read of it into
trees, if reading operands does (`Machine.parts_carry`). The one part that the machine reads in its
own way is the choice between an argument that is named and another one: it reads the name on trial
where the reader looks ahead (`Machine.named_carries`). So expressions are carried at every depth
(`Machine.expression_carries`).
-/

namespace Stencil

namespace Part

mutual

/-- Whether what is chosen where a name and the sign of assignment come next begins with these. -/
def keyed : Part → Bool
  | .choice .named [.node _ _ (.token key :: .token sign :: value)] no =>
    key.isOf .word && sign.isOf .assign && keyedAll value && keyedAll no
  | .choice _ yes no => keyedAll yes && keyedAll no
  | .node _ _ ps | .enclosed _ _ _ ps | .repeated _ ps => keyedAll ps
  | .token _ | .operand _ _ | .callee | .refuse _ => true

/-- Whether that is so in some parts. -/
def keyedAll : List Part → Bool
  | [] => true
  | p :: ps => p.keyed && keyedAll ps

end

end Part

namespace Machine

variable {n : Nat} {m : Machine} {operand : Extent → Action Machine Nat}
  {reader : Extent → Parser Tree}

/-- How operands are read on the machine where `n` more levels are allowed. -/
def OperandsCarry (n : Nat) (operand : Extent → Action Machine Nat)
    (reader : Extent → Parser Tree) : Prop :=
  ∀ extent {m : Machine}, m.Ready n → Carries single m (operand extent m) [] (reader extent m.rest)

/-- A part is read on the machine as it is read into trees. -/
def PartCarries (n : Nat) (operand : Extent → Action Machine Nat) (reader : Extent → Parser Tree)
    (p : Part) : Prop :=
  ∀ {m : Machine}, m.Ready n → Carries row m (part operand p m) [] (p.read reader m.rest)

/-- Parts in a row are read on the machine as they are read into trees. -/
def PartsCarry (n : Nat) (operand : Extent → Action Machine Nat) (reader : Extent → Parser Tree)
    (ps : List Part) : Prop :=
  ∀ {m : Machine}, m.Ready n → Carries row m (parts operand ps m) [] (Part.readAll reader ps m.rest)

/-- A node is made of the trees that were read for it. -/
theorem node_carries {us ts : List Tree} {noted : List Fault} {s : Input} (h : Held m.rest us ts s)
    (field : Option Field) (kind : Kind) :
    Carries row m
      ((node kind (Tree.links m.entries.length ts) >>= fun id => pure [(field, id)])
        (m.advance us noted s)) noted
      ((pure [.node field kind ts] : Parser (List Tree)) s) := by
  rw [Action.bind_of_ok (node_advance kind h)]
  exact .pure rfl (h.node none field kind)

/-- A token. -/
theorem token_carries (t : Terminal) : PartCarries n operand reader (.token t) := by
  intro m hm
  rw [part, Part.read]
  exact (terminal_carries t hm.placed).bind hm.placed fun leaf us rest h _ => .pure rfl h

/-- An operand. -/
theorem operand_carries (ho : OperandsCarry n operand reader) (field : Option Field)
    (extent : Extent) : PartCarries n operand reader (.operand field extent) := by
  intro m hm
  rw [part, Part.read]
  refine (ho extent hm).bind hm.placed fun t us rest h _ => .pure ?_ (h.under field)
  show [(field, t.top _)] = [((t.under field).field, (t.under field).top _)]
  rw [Tree.field_under, Tree.top_under]

/-- What is no call with two children is none in the arena either. -/
theorem call?_entry (t : Tree) (id pos : Nat) (f : Option Field)
    (h : ∀ g function arguments, t ≠ .node g .call [function, arguments]) :
    { (t.place id pos).entry with field := f }.call? = none := by
  unfold Entry.call?
  split
  case h_2 => rfl
  case h_1 x y hkind hchildren =>
    rcases t with _ | ⟨g, kind, ts⟩
    · cases hchildren
    · obtain rfl : kind = .call := hkind
      have hlength : ts.length = 2 := by
        have hlength := congrArg List.length hchildren
        rw [← Tree.placeAll_tree id pos ts, List.length_map]
        simpa [Node.entry, Tree.place] using hlength
      obtain ⟨function, arguments, rfl⟩ := List.length_eq_two.1 hlength
      exact absurd rfl (h g function arguments)

/-- The call that was made last is taken away, and what it is made of is left. -/
theorem splitCall_call {us : List Tree} {g : Option Field} {function arguments : Tree}
    {rest : Input} (h : Held m.rest us [.node g .call [function, arguments]] rest) :
    splitCall ((Tree.node g .call [function, arguments]).top m.entries.length)
        (m.advance us [] rest) =
      (.ok [(some .macroExpr, function.top m.entries.length),
          (some .params, arguments.top (m.entries.length + function.size))],
        m.advance [function, arguments] [] rest) := by
  obtain ⟨f, hfound⟩ := Tree.exists_getElem?_head m.pos m.entries h.bare
  have hfound : (m.advance us [] rest).entries[
    (Tree.node g .call [function, arguments]).top m.entries.length]? = _ := hfound
  have hcall : Entry.call? { ((Tree.node g .call [function, arguments]).place m.entries.length
      m.pos).entry with field := f } = some (function.top m.entries.length,
        arguments.top (m.entries.length + function.size)) := by
    have hids := Tree.links_ids m.entries.length m.pos [function, arguments]
    exact Entry.call?_eq_some rfl hids.symm
  -- The arena ends with the call, behind what it is made of.
  obtain ⟨u, us', rfl, hu, hus⟩ := List.map_eq_cons_iff.1 h.bare
  obtain rfl := List.map_eq_nil_iff.1 hus
  have hchildren : u.children = [function, arguments] := (Tree.alike_of_under hu).1
  have hentries : (m.advance [u] [] rest).entries = m.entries ++
      Tree.entries m.entries.length m.pos [function, arguments] ++
        [(u.place m.entries.length m.pos).entry] := by
    rw [advance, Tree.entries_singleton, hchildren, List.append_assoc]
  have hlength : (Tree.node g .call [function, arguments]).top m.entries.length + 1 =
      (m.advance [u] [] rest).entries.length := by
    rw [h.length_advance]
    rfl
  rw [splitCall_of_some (by rw [hfound, Option.bind_some, hcall]) hlength, hentries,
    List.dropLast_concat]
  rfl

/-- A call is taken apart as its tree is. -/
theorem splitCall_carries {us : List Tree} {t : Tree} {rest : Input}
    (h : Held m.rest us [t] rest) :
    Carries row m (splitCall (t.top m.entries.length) (m.advance us [] rest)) []
      (.ok (Part.splitCall t, rest)) := by
  by_cases hcall : ∃ g function arguments, t = .node g .call [function, arguments]
  · obtain ⟨g, function, arguments, rfl⟩ := hcall
    rw [splitCall_call h]
    refine .answer ?_ ?_
    · show _ = [((function.under _).field, (function.under _).top _),
        ((arguments.under _).field, (arguments.under _).top _)]
      rw [Tree.field_under, Tree.top_under, Tree.field_under, Tree.top_under, Tree.size_under]
    · refine h.children ?_
      show Tree.bare [function, arguments] = Tree.bare [function.under _, arguments.under _]
      simp [Tree.bare, Tree.under_under]
  · have hne : ∀ g function arguments, t ≠ .node g .call [function, arguments] :=
      fun g function arguments h => hcall ⟨g, function, arguments, h⟩
    obtain ⟨f, hfound⟩ := Tree.exists_getElem?_head m.pos m.entries h.bare
    have hfound : (m.advance us [] rest).entries[t.top m.entries.length]? = _ := hfound
    have hsplit : Part.splitCall t = [t.under (some .macroExpr)] := by
      unfold Part.splitCall
      split
      · exact absurd rfl (hne _ _ _)
      · rfl
    rw [splitCall_of_none (List.getElem?_eq_some_iff.1 hfound).1
      (by rw [hfound, Option.bind_some, call?_entry t m.entries.length m.pos f hne]), hsplit]
    refine .answer ?_ (h.under _)
    show _ = [((t.under (some .macroExpr)).field, (t.under (some .macroExpr)).top _)]
    rw [Tree.field_under, Tree.top_under]

/-- What a call statement calls. -/
theorem callee_carries (ho : OperandsCarry n operand reader) :
    PartCarries n operand reader .callee := by
  intro m hm
  rw [part, Part.read]
  exact (ho .whole hm).bind hm.placed fun t us rest h _ => splitCall_carries h

/-- A node. -/
theorem node_part_carries {ps : List Part} (hps : PartsCarry n operand reader ps)
    (field : Option Field) (kind : Kind) :
    PartCarries n operand reader (.node field kind ps) := by
  intro m hm
  rw [part, Part.read]
  exact (hps hm).bind hm.placed fun ts us rest h _ => node_carries h field kind

/-- A node that an opening token begins. -/
theorem enclosed_carries {ps : List Part} (hps : PartsCarry n operand reader ps)
    (field : Option Field) (kind : Kind) (opening : Terminal) :
    PartCarries n operand reader (.enclosed field kind opening ps) := by
  intro m hm
  rw [part, Part.read]
  refine (peek_carries opening.mode m).bind_silent fun next _ => ?_
  refine (terminal_carries opening hm.placed).bind hm.placed fun first us s hs _ => ?_
  refine ((hps (hm.advance hs)).inside next.start).bind_after hm.placed hs fun ts vs rest h _ => ?_
  exact node_carries h field kind

/-- A choice. -/
theorem choice_carries {l : Look} {yes no : List Part}
    (hl : ∀ field kind key sign value, l = .named →
      yes = [.node field kind (.token key :: .token sign :: value)] → False)
    (hyes : PartsCarry n operand reader yes) (hno : PartsCarry n operand reader no) :
    PartCarries n operand reader (.choice l yes no) := by
  intro m hm
  rw [part, Part.read]
  · refine (look_carries l m).bind_silent fun found _ => ?_
    cases found with
    | true => exact hyes hm
    | false => exact hno hm
  · exact hl

/-- No parts. -/
theorem nil_carries : PartsCarry n operand reader [] := by
  intro m hm
  rw [parts, Part.readAll]
  have h : Carries row m ((pure [] : Action Machine (List Link)) (m.advance [] [] m.rest)) []
      ((pure [] : Parser (List Tree)) m.rest) := .pure rfl (.nil m.rest)
  rwa [advance_nil] at h

/-- Parts one after the other. -/
theorem cons_carries {p : Part} {ps : List Part} (hp : PartCarries n operand reader p)
    (hps : PartsCarry n operand reader ps) : PartsCarry n operand reader (p :: ps) := by
  intro m hm
  rw [parts, Part.readAll]
  refine (hp hm).bind hm.placed fun first us s hs _ => ?_
  refine (hps (hm.advance hs)).bind_after hm.placed hs fun more vs rest h _ => ?_
  exact .pure (Tree.links_append _ _ _).symm h

/-- A choice between an argument that is named and another one. The machine makes it by trial, which
comes to the same. -/
theorem named_carries {key sign : Terminal} {value no : List Part}
    (hkey : key.isOf .word = true) (hsign : sign.isOf .assign = true)
    (hvalue : PartsCarry n operand reader value) (hno : PartsCarry n operand reader no)
    (field : Option Field) (kind : Kind) :
    PartCarries n operand reader
      (.choice .named [.node field kind (.token key :: .token sign :: value)] no) := by
  intro m hm
  have hholds : (Look.named.holds m.rest) = .ok (atNamed m.rest, m.rest) := rfl
  have hargument : PartsCarry n operand reader (.token key :: .token sign :: value) :=
    cons_carries (token_carries key) (cons_carries (token_carries sign) hvalue)
  have hyes : PartsCarry n operand reader
      [.node field kind (.token key :: .token sign :: value)] :=
    cons_carries (node_part_carries hargument field kind) nil_carries
  rw [part_named hkey hsign, Part.read, Parser.bind_of_ok hholds]
  split
  · exact hyes hm
  · exact hno hm

/-- Rows that are put behind each other one by one are all of them in a row. -/
theorem foldl_append_eq {α : Type} (as : List α) (rounds : List (List α)) :
    rounds.foldl (· ++ ·) as = as ++ rounds.flatten := by
  induction rounds generalizing as with
  | nil => simp
  | cons round rounds ih => rw [List.foldl_cons, ih, List.flatten_cons, List.append_assoc]

/-- Parts again and again. -/
theorem repeated_carries {ps : List Part} (hps : PartsCarry n operand reader ps) (l : Look) :
    PartCarries n operand reader (.repeated l ps) := by
  intro m hm
  rw [part, Part.read]
  have hflatten : (fun rounds => pure rounds.flatten : List (List Tree) → Parser (List Tree)) =
      fun rounds => pure (rounds.foldl (· ++ ·) []) := by
    funext rounds
    rw [foldl_append_eq, List.nil_append]
  suffices h : ∀ m', m.advance [] [] m.rest = m' → Carries row m (iterate _ [] m') [] _ from
    h m (advance_nil m)
  rintro _ rfl
  rw [hflatten]
  refine iterate_carries (F := row) (b := []) (fun {ts us s} hs => ?_) (.nil m.rest)
  have hround : (do
      let found ← l.holds
      if found then
        let ts ← Part.readAll reader ps
        return some ts
      else return none : Parser (Option (List Tree))) >>= (fun o => pure (o.map (ts ++ ·))) = (do
        let found ← l.holds
        if found then
          let more ← Part.readAll reader ps
          return some (ts ++ more)
        else return none) := by
    rw [bind_assoc]
    congr 1
    funext found
    cases found <;> simp
  rw [← bind_pure_eq, hround]
  refine (look_carries l _).bind_silent_after hs fun found _ => ?_
  cases found with
  | false => exact .pure rfl hs
  | true =>
    refine (hps (hm.advance hs)).bind_after hm.placed hs fun more vs rest h _ => .pure ?_ h
    exact congrArg some (Tree.links_append _ _ _).symm

/-- What may not stand. -/
theorem refuse_carries (cause : Cause) : PartCarries n operand reader (.refuse cause) := by
  intro m hm
  rw [part, Part.read]
  exact (peek_carries .code m).bind_silent fun next _ => .failed _

/-- The parts of a production are read on the machine as they are read into trees. -/
theorem parts_carry (ho : OperandsCarry n operand reader) :
    (∀ p : Part, p.keyed = true → PartCarries n operand reader p) ∧
      ∀ ps : List Part, Part.keyedAll ps = true → PartsCarry n operand reader ps := by
  refine part.mutual_induct (fun p => p.keyed = true → PartCarries n operand reader p)
    (fun ps => Part.keyedAll ps = true → PartsCarry n operand reader ps)
    ?token ?operand ?callee ?node ?enclosed ?named ?choice ?repeated ?refuse ?nil ?cons
  case token => exact fun t _ => token_carries t
  case operand => exact fun field extent _ => operand_carries ho field extent
  case callee => exact fun _ => callee_carries ho
  case node => exact fun field kind ps ih h => node_part_carries (ih h) field kind
  case enclosed =>
    exact fun field kind opening ps ih h => enclosed_carries (ih h) field kind opening
  case named =>
    intro field kind key sign value no ihValue ihNo h
    simp only [Part.keyed, Bool.and_eq_true] at h
    exact named_carries h.1.1.1 h.1.1.2 (ihValue h.1.2) (ihNo h.2) field kind
  case choice =>
    intro l yes no hl ihYes ihNo h
    rw [Part.keyed, Bool.and_eq_true] at h
    · exact choice_carries hl (ihYes h.1) (ihNo h.2)
    · exact hl
  case repeated => exact fun l ps ih h => repeated_carries (ih h) l
  case refuse => exact fun cause _ => refuse_carries cause
  case nil => exact fun _ => nil_carries
  case cons =>
    intro p ps ih ihs h
    rw [Part.keyedAll, Bool.and_eq_true] at h
    exact cons_carries (ih h.1) (ihs h.2)

end Machine

/-! ## Expressions -/

/-- Wherever a primary asks for a named argument this begins with a name. -/
theorem Primary.keyed_of? {t : Token} {kind : Kind} {ps : List Part}
    (h : Primary.of? t = some (.node kind ps)) : Part.keyedAll ps = true := by
  rcases Primary.of?_eq_node h with h | h | ⟨h, -⟩ <;> cases h <;> rfl

/-- Wherever a tail asks for a named argument this begins with a name. -/
theorem Tail.keyed_of? {t : Token} {tail : Tail Part} (h : Tail.of? t = some tail) :
    Part.keyedAll tail.more = true := by
  rcases Tail.of?_eq_some h with ⟨rfl, -⟩ | ⟨rfl, -⟩ | ⟨rfl, -⟩ | ⟨rfl, -⟩ | ⟨rfl, -⟩ <;> rfl

namespace Machine

/-- A primary is read on the machine as it is read into a tree. -/
theorem primary_carries (ho : OperandsCarry n operand reader) (hm : m.Ready n) :
    Carries single m (primary operand m) [] (Primary.read reader m.rest) := by
  rw [primary, Primary.read]
  refine (peek_carries .operand m).bind_silent fun t ht => ?_
  obtain ⟨hscan, -⟩ := Parser.peek_eq_ok.1 ht
  cases hof : Primary.of? t with
  | none => exact .failed _
  | some form =>
    cases form with
    | leaf kind =>
      have hsource := Token.gap_append_start hscan
      have hbump : bump t m = (.ok (), { m with rest := t.rest }) := rfl
      show Carries single m ((bump t >>= fun _ => leaf kind t) m) _ _
      rw [Action.bind_of_ok hbump, leaf_bump hm.placed hsource]
      exact .ok (b := t.leaf none kind) (.leaf hsource _ _ _)
    | node kind ps =>
      refine ((parts_carry ho).2 ps (Primary.keyed_of? hof) hm).bind hm.placed
        fun ts us rest h _ => ?_
      have h : Held m.rest us ts rest := h
      show Carries single m (node kind (Tree.links m.entries.length ts) _) _ _
      rw [node_advance kind h]
      exact .ok (b := Tree.node none kind ts) (h.node none none kind)

/-- The next tail of an expression is read on the machine as it is read into trees. -/
theorem tail_carries (ho : OperandsCarry n operand reader) (hm : m.Ready n) (extent : Extent)
    {left : Tree} {us : List Tree} {s : Input} (hs : Held m.rest us [left] s) :
    Carries (single.round left) m
      (tail operand extent (left.top m.entries.length) (m.advance us [] s)) []
      ((Tail.read reader extent s).map fun r => (r.1.map (Tail.attach left), r.2)) := by
  have htail : Tail.read reader extent >>= (fun o => pure (o.map (Tail.attach left))) =
      (Parser.peek (Tail.mode extent) >>= fun t =>
        (if Tail.admits extent t then Tail.of? t else none).elim (pure none) fun tail => do
          let more ← Part.readAll reader tail.more
          return some (Tail.attach left ⟨tail.kind, tail.slot, more⟩)) := by
    rw [Tail.read, bind_assoc]
    congr 1
    funext t
    cases if Tail.admits extent t then Tail.of? t else none <;> simp
  rw [← bind_pure_eq, htail, tail]
  refine (peek_carries _ _).bind_silent_after hs fun t _ => ?_
  cases hof : (if Tail.admits extent t then Tail.of? t else none) with
  | none => exact .pure rfl hs
  | some tail =>
    have hkeyed : Part.keyedAll tail.more = true := by
      split at hof
      · exact Tail.keyed_of? hof
      · cases hof
    refine ((parts_carry ho).2 _ hkeyed (hm.advance hs)).bind_after hm.placed hs
      fun more vs rest h _ => ?_
    -- The expression becomes the first child of the node.
    have hlinks : (some tail.slot, left.top m.entries.length) ::
        Tree.links (m.entries.length + Tree.sizes [left]) more =
          Tree.links m.entries.length (left.under (some tail.slot) :: more) := by
      rw [Tree.links, Tree.field_under, Tree.top_under, Tree.size_under]
      rfl
    have h : Held m.rest vs (left.under (some tail.slot) :: more) rest := by
      refine ⟨h.bare.trans ?_, h.source⟩
      show Tree.bare (left :: more) = _
      simp [Tree.bare, Tree.under_under]
    show Carries (single.round left) m
      ((node tail.kind ((some tail.slot, left.top m.entries.length) ::
        Tree.links (m.entries.length + Tree.sizes [left]) more) >>= fun id => pure (some id)) _) _ _
    rw [hlinks, Action.bind_of_ok (node_advance tail.kind h)]
    exact .pure rfl (h.node none none tail.kind)

/-- A primary with its tails is read on the machine as it is read into a tree. -/
theorem extended_carries (ho : OperandsCarry n operand reader) (hm : m.Ready n) (extent : Extent) :
    Carries single m (extended operand extent m) []
      ((do
        let head ← Primary.read reader
        let tails ← Parser.many (Tail.read reader extent)
        return tails.foldl Tail.attach head) m.rest) := by
  rw [extended]
  refine (primary_carries ho hm).bind hm.placed fun head us s hs _ => ?_
  exact iterate_carries (tail_carries ho hm extent) hs

/-- An expression is read on the machine as it is read into a tree. -/
theorem expression_carries (n : Nat) :
    OperandsCarry n (Machine.expression n) (Stencil.expression n) := by
  induction n with
  | zero =>
    intro extent m hm
    rw [Machine.expression, Action.bind_of_ok (x := here) rfl]
    exact .refused hm m.rest m.rest _
  | succ n ih =>
    intro extent m hm
    rw [Machine.expression, Action.bind_of_ok (x := here) rfl, Stencil.expression]
    exact .level hm m.rest m.rest (extended_carries ih hm.down extent)

end Machine

end Stencil
