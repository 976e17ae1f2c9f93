import Mathlib
import Stencil.Proofs.Contents
import Stencil.Proofs.Grouping
import Stencil.Proofs.Siblings

/-!
# Tokens and what follows them

What is said of a token may have to speak of what follows it. Such a property (`Tree.OfTokens`) need
only be shown of the tokens of a production: it then holds of every token that the production is
read into, each with what follows it (`Part.readAll_everyAt`), and so it does for expressions of
every depth (`expression_everyAt`). A property that only operators may lack holds of every token in
a template, if it holds of those in expressions (`Template.parse_everyAt`).

What is said of a node may have to speak of how its children were read. Then it is to be shown of
the productions too (`Part.NodesSatisfy`). For a property that argument lists have by how they are
read (`Tree.OfCode`, `Tree.OfMarkup`) this is done here (`Template.parse_everyAt_of`), and the
properties of tokens alone are a case of it.
-/

namespace Stencil

/-- A property of tokens with what follows them: nodes have it, whatever their children are, and the
field of a tree makes no difference. -/
structure Tree.OfTokens (P : Tree → Input → Prop) : Prop where
  under : ∀ {t rest f}, P t rest → P (t.under f) rest
  node : ∀ f kind ts rest, P (.node f kind ts) rest

variable {P : Tree → Input → Prop} {operand : Extent → Parser Tree}

/-! ## Trees -/

namespace Tree

mutual

/-- What follows from a property of trees with what follows them holds wherever that does. -/
theorem EveryAt.mono {Q : Tree → Input → Prop} (hPQ : ∀ {t rest}, P t rest → Q t rest) :
    ∀ {t : Tree} {rest : Input}, t.EveryAt P rest → t.EveryAt Q rest
  | leaf .., _, h => hPQ h
  | node .., _, h => ⟨hPQ h.1, EveryOfAt.mono hPQ h.2⟩

/-- What follows from a property of trees with what follows them holds wherever that does. -/
theorem EveryOfAt.mono {Q : Tree → Input → Prop} (hPQ : ∀ {t rest}, P t rest → Q t rest) :
    ∀ {ts : List Tree} {rest : Input}, EveryOfAt P rest ts → EveryOfAt Q rest ts
  | [], _, _ => trivial
  | _ :: _, _, h => ⟨EveryAt.mono hPQ h.1, EveryOfAt.mono hPQ h.2⟩

end

variable {t : Tree} {rest : Input}

/-- What holds of a tree holds of it under each field. -/
theorem EveryAt.under (hP : ∀ {t rest f}, P t rest → P (t.under f) rest) (h : t.EveryAt P rest)
    (f : Option Field) : (t.under f).EveryAt P rest := by
  cases t with
  | leaf => exact hP (f := f) h
  | node => exact ⟨hP (f := f) h.1, h.2⟩

/-- What holds of every tree in a call holds of every tree in its parts. -/
theorem everyOfAt_splitCall (hP : ∀ {t rest f}, P t rest → P (t.under f) rest)
    (h : t.EveryAt P rest) : EveryOfAt P rest (Part.splitCall t) := by
  unfold Part.splitCall
  split
  · obtain ⟨-, hfunction, harguments, -⟩ := h
    have hmacro := hfunction.under hP (some .macroExpr)
    exact ⟨by simpa [sources] using hmacro, harguments.under hP _, trivial⟩
  · exact ⟨h.under hP _, trivial⟩

end Tree

/-! ## Productions -/

/-- What holds of the row of trees that each round reads, and of two rows if it holds of each, holds
of the row that the rounds read together. -/
theorem Parser.many_row {Q : Input → List Tree → Prop} (hnil : ∀ rest, Q rest [])
    (happend : ∀ {as bs rest}, Q (Tree.sources bs ++ rest) as → Q rest bs → Q rest (as ++ bs))
    {round : Parser (Option (List Tree))}
    (hround : ∀ {s a rest}, round s = .ok (a, rest) →
      a.elim [] Tree.sources ++ rest = s ∧ a.elim True (Q rest))
    {s rest : Input} {rounds : List (List Tree)} (h : many round s = .ok (rounds, rest)) :
    Q rest rounds.flatten := by
  fun_induction many round s generalizing rounds rest with
  | case1 | case3 => cases h
  | case2 =>
    cases h
    exact hnil _
  | case4 s a r hfirst _ as stop hmore ih =>
    cases h
    have hsource := many_append Tree.sources (fun h => (hround h).1) hmore
    rw [← Part.sources_flatten] at hsource
    rw [List.flatten_cons]
    refine happend ?_ (ih hmore)
    rw [hsource]
    exact (hround hfirst).2
  | case5 s a r hfirst =>
    cases h
    exact happend (hround hfirst).2 (hnil _)

/-- What holds of the trees that each round reads holds of those that the rounds read together. -/
theorem Parser.many_everyOfAt {round : Parser (Option (List Tree))}
    (hround : ∀ {s a rest}, round s = .ok (a, rest) →
      a.elim [] Tree.sources ++ rest = s ∧ a.elim True (Tree.EveryOfAt P rest))
    {s rest : Input} {rounds : List (List Tree)} (h : many round s = .ok (rounds, rest)) :
    Tree.EveryOfAt P rest rounds.flatten :=
  many_row (Q := Tree.EveryOfAt P) (fun _ => trivial)
    (fun has hbs => Tree.everyOfAt_append.2 ⟨has, hbs⟩) hround h

/-- Whether a property holds of the leaves that a token is read into, each with what follows it. -/
def Terminal.Satisfies (t : Terminal) (P : Tree → Input → Prop) : Prop :=
  ∀ ⦃s leaf rest⦄, t.read s = .ok (leaf, rest) → P leaf rest

namespace Part

/-- Whether a property holds of the nodes that productions are read into, each with what follows
it. -/
def NodesSatisfy (operand : Extent → Parser Tree) (ps : List (Kind × List Part))
    (P : Tree → Input → Prop) : Prop :=
  ∀ x ∈ ps, ∀ ⦃f s ts rest⦄, readAll operand x.2 s = .ok (ts, rest) → P (.node f x.1 ts) rest

/-- What nodes of two rows of productions satisfy is what those of each row do. -/
theorem nodesSatisfy_append {ps qs : List (Kind × List Part)} :
    NodesSatisfy operand (ps ++ qs) P ↔ NodesSatisfy operand ps P ∧ NodesSatisfy operand qs P := by
  simp only [NodesSatisfy, List.mem_append, or_imp, forall_and]

mutual

/-- What holds of the tokens of a part, and of the nodes that are read by it, holds of every tree
that it is read into, if it does so of operands. -/
theorem read_everyAt_of (hP : ∀ {t rest f}, P t rest → P (t.under f) rest) (ho : Operands operand)
    (hevery : ∀ {extent s t rest}, operand extent s = .ok (t, rest) → t.EveryAt P rest) :
    ∀ (p : Part) {s rest : Input} {ts : List Tree},
      (∀ t ∈ p.terminals, t.Satisfies P) → NodesSatisfy operand p.productions P →
      p.read operand s = .ok (ts, rest) → Tree.EveryOfAt P rest ts
  | token t, s, rest, ts, hleaf, _, h => by
    simp only [read, Parser.bind_eq_ok, Parser.pure_eq_ok] at h
    obtain ⟨leaf, _, h, rfl, rfl⟩ := h
    have hP := hleaf t List.mem_cons_self h
    obtain ⟨gap, text, rfl⟩ := (Terminal.read_leaf h).eq
    exact ⟨hP, trivial⟩
  | .operand field extent, s, rest, ts, _, _, h => by
    simp only [read, Parser.bind_eq_ok, Parser.pure_eq_ok] at h
    obtain ⟨t, _, h, rfl, rfl⟩ := h
    exact ⟨(hevery h).under hP field, trivial⟩
  | callee, s, rest, ts, _, _, h => by
    simp only [read, Parser.bind_eq_ok, Parser.pure_eq_ok] at h
    obtain ⟨t, _, h, rfl, rfl⟩ := h
    exact Tree.everyOfAt_splitCall hP (hevery h)
  | node field kind parts, s, rest, ts, hleaf, hnodes, h => by
    simp only [read, Parser.bind_eq_ok, Parser.pure_eq_ok] at h
    obtain ⟨inner, _, h, rfl, rfl⟩ := h
    obtain ⟨hnode, hnodes⟩ := List.forall_mem_cons.1 hnodes
    exact ⟨⟨hnode h, readAll_everyAt_of hP ho hevery parts hleaf hnodes h⟩, trivial⟩
  | enclosed field kind opening parts, s, rest, ts, hleaf, hnodes, h => by
    obtain ⟨first, s', inner, hfirst, hinner, rfl⟩ := exists_of_read_enclosed h
    obtain ⟨hopening, hleaf⟩ := List.forall_mem_cons.1 hleaf
    obtain ⟨hnode, hnodes⟩ := List.forall_mem_cons.1 hnodes
    -- The opening token and what comes inside are the production of the node.
    have hread : readAll operand (token opening :: parts) s = .ok (first :: inner, rest) := by
      simp only [readAll, read, Parser.bind_eq_ok, Parser.pure_eq_ok]
      exact ⟨[first], s', ⟨first, s', hfirst, rfl, rfl⟩, inner, rest, hinner, rfl, rfl⟩
    have hnodeP := hnode (f := field) hread
    have hsource := readAll_append ho.source parts hinner
    have hevery := readAll_everyAt_of hP ho hevery parts hleaf hnodes hinner
    have hfirstP := hopening hfirst
    obtain ⟨gap, text, rfl⟩ := (Terminal.read_leaf hfirst).eq
    subst hsource
    exact ⟨⟨hnodeP, hfirstP, hevery⟩, trivial⟩
  | choice _ yes no, s, rest, ts, hleaf, hnodes, h => by
    simp only [read, Parser.bind_eq_ok] at h
    obtain ⟨found, _, _, h⟩ := h
    obtain ⟨hyes, hno⟩ := List.forall_mem_append.1 hleaf
    obtain ⟨hyesNodes, hnoNodes⟩ := nodesSatisfy_append.1 hnodes
    split at h
    · exact readAll_everyAt_of hP ho hevery yes hyes hyesNodes h
    · exact readAll_everyAt_of hP ho hevery no hno hnoNodes h
  | repeated _ parts, s, rest, ts, hleaf, hnodes, h => by
    simp only [read, Parser.bind_eq_ok, Parser.pure_eq_ok] at h
    obtain ⟨rounds, _, h, rfl, rfl⟩ := h
    refine Parser.many_everyOfAt (fun {s a rest} h => ?_) h
    simp only [Parser.bind_eq_ok] at h
    obtain ⟨found, _, hlook, h⟩ := h
    obtain rfl := Look.holds_rest hlook
    split at h
    · simp only [Parser.bind_eq_ok, Parser.pure_eq_ok] at h
      obtain ⟨ts, _, h, rfl, rfl⟩ := h
      exact ⟨readAll_append ho.source parts h,
        readAll_everyAt_of hP ho hevery parts hleaf hnodes h⟩
    · obtain ⟨rfl, rfl⟩ := Parser.pure_eq_ok.1 h
      exact ⟨rfl, trivial⟩
  | refuse cause, s, rest, ts, _, _, h => by
    simp only [read, Parser.bind_eq_ok] at h
    obtain ⟨_, _, _, h⟩ := h
    cases h

/-- What holds of the tokens of a production, and of the nodes that are read by it, holds of every
tree that it is read into, if it does so of operands. -/
theorem readAll_everyAt_of (hP : ∀ {t rest f}, P t rest → P (t.under f) rest)
    (ho : Operands operand)
    (hevery : ∀ {extent s t rest}, operand extent s = .ok (t, rest) → t.EveryAt P rest) :
    ∀ (ps : List Part) {s rest : Input} {ts : List Tree},
      (∀ t ∈ terminalsOf ps, t.Satisfies P) → NodesSatisfy operand (productionsOf ps) P →
      readAll operand ps s = .ok (ts, rest) → Tree.EveryOfAt P rest ts
  | [], s, rest, ts, _, _, h => by
    obtain ⟨rfl, rfl⟩ := Parser.pure_eq_ok.1 h
    trivial
  | p :: ps, s, rest, ts, hleaf, hnodes, h => by
    simp only [readAll, Parser.bind_eq_ok, Parser.pure_eq_ok] at h
    obtain ⟨first, _, hfirst, more, _, hmore, rfl, rfl⟩ := h
    obtain ⟨hp, hps⟩ := List.forall_mem_append.1 hleaf
    obtain ⟨hpNodes, hpsNodes⟩ := nodesSatisfy_append.1 hnodes
    have hsource := readAll_append ho.source ps hmore
    subst hsource
    exact Tree.everyOfAt_append.2 ⟨read_everyAt_of hP ho hevery p hp hpNodes hfirst,
      readAll_everyAt_of hP ho hevery ps hps hpsNodes hmore⟩

end

/-- What holds of the tokens of a production holds of every tree that it is read into, if it does so
of operands. -/
theorem readAll_everyAt (hP : Tree.OfTokens P) (ho : Operands operand)
    (hevery : ∀ {extent s t rest}, operand extent s = .ok (t, rest) → t.EveryAt P rest)
    (ps : List Part) {s rest : Input} {ts : List Tree} (hleaf : ∀ t ∈ terminalsOf ps, t.Satisfies P)
    (h : readAll operand ps s = .ok (ts, rest)) : Tree.EveryOfAt P rest ts :=
  readAll_everyAt_of hP.under ho hevery ps hleaf (fun _ _ _ _ _ _ _ => hP.node _ _ _ _) h

/-- Whether the argument lists that parts make are those of calls and macros. -/
def ListsArguments (ps : List Part) : Prop :=
  ∀ x ∈ productionsOf ps, x.1 = .argumentList → x.2 = argumentList

/-- The argument lists that parts make are counted by going through their productions. -/
theorem listsArguments {ps : List Part} (n : Nat)
    (h : (productionsOf ps).filterMap (fun x => if x.1 = .argumentList then some x.2 else none) =
      List.replicate n argumentList) : ListsArguments ps := by
  intro x hx hkind
  refine List.eq_of_mem_replicate (n := n) ?_
  rw [← h]
  exact List.mem_filterMap.2 ⟨x, hx, if_pos hkind⟩

end Part

/-! ## Expressions -/

/-- A property of tokens that those of expressions have. -/
structure Tree.OfExpressions (P : Tree → Input → Prop) : Prop extends Tree.OfTokens P where
  /-- Tokens that are expressions have it. -/
  leaf : ∀ {s next kind}, Token.scan .operand s = .ok next → Primary.of? next = some (.leaf kind) →
    P (next.leaf none kind) next.rest
  /-- The tokens that expressions begin with have it, and those between their parts. -/
  primary : ∀ {next kind parts}, Primary.of? next = some (.node kind parts) →
    ∀ t ∈ Part.terminalsOf parts, t.Satisfies P
  /-- The tokens that extend expressions have it. -/
  tail : ∀ {next form}, Tail.of? next = some form → ∀ t ∈ Part.terminalsOf form.more, t.Satisfies P

/-- A property that the tokens of expressions have, and the nodes in them: argument lists have it if
they are read by expressions that nest no deeper than a limit. -/
structure Tree.OfCode (limit : Nat) (P : Tree → Input → Prop) : Prop where
  under : ∀ {t rest f}, P t rest → P (t.under f) rest
  node : ∀ {f kind ts rest}, kind ≠ .argumentList → P (.node f kind ts) rest
  /-- How an argument list is read says that it has it. -/
  arguments : ∀ {depth f s ts rest}, depth ≤ limit →
    Part.readAll (expression depth) Part.argumentList s = .ok (ts, rest) →
      P (.node f .argumentList ts) rest
  /-- Tokens that are expressions have it. -/
  leaf : ∀ {s next kind}, Token.scan .operand s = .ok next → Primary.of? next = some (.leaf kind) →
    P (next.leaf none kind) next.rest
  /-- The tokens that expressions begin with have it, and those between their parts. -/
  primary : ∀ {next kind parts}, Primary.of? next = some (.node kind parts) →
    ∀ t ∈ Part.terminalsOf parts, t.Satisfies P
  /-- The tokens that extend expressions have it. -/
  tail : ∀ {next form}, Tail.of? next = some form → ∀ t ∈ Part.terminalsOf form.more, t.Satisfies P

/-- What tokens have and all nodes is what argument lists have too. -/
theorem Tree.OfExpressions.ofCode (hP : OfExpressions P) (limit : Nat) : OfCode limit P where
  under := hP.under
  node _ := hP.node _ _ _ _
  arguments _ _ := hP.node _ _ _ _
  leaf := hP.leaf
  primary := hP.primary
  tail := hP.tail

/-- The nodes that parts are read into have the property, if the argument lists among them are those
of calls and macros. -/
theorem Tree.OfCode.nodesSatisfy {limit depth : Nat} (hP : OfCode limit P) (hdepth : depth ≤ limit)
    {ps : List Part} (hps : Part.ListsArguments ps) :
    Part.NodesSatisfy (expression depth) (Part.productionsOf ps) P := by
  intro x hx f s ts rest h
  by_cases hkind : x.1 = .argumentList
  · rw [hps x hx hkind] at h
    rw [hkind]
    exact hP.arguments hdepth h
  · exact hP.node hkind

/-- A primary that is made of parts is no argument list, and its argument lists are those of
calls. -/
theorem Primary.listsArguments_of_of? {next : Token} {kind : Kind} {parts : List Part}
    (h : of? next = some (.node kind parts)) :
    kind ≠ .argumentList ∧ Part.ListsArguments parts := by
  rcases of?_eq_node h with h | h | ⟨h, -⟩
  all_goals
    cases h
    exact ⟨by decide, Part.listsArguments 0 rfl⟩

/-- What a tail makes is no argument list, and the argument lists in it are those of calls. -/
theorem Tail.listsArguments_of_of? {next : Token} {form : Tail Part} (h : of? next = some form) :
    form.kind ≠ .argumentList ∧ Part.ListsArguments form.more := by
  rcases of?_eq_some h with ⟨rfl, -⟩ | ⟨rfl, -⟩ | ⟨rfl, -⟩ | ⟨rfl, -⟩ | ⟨rfl, -⟩
  · exact ⟨by simp [call], Part.listsArguments 1 rfl⟩
  all_goals exact ⟨by simp [property, subscript, binary], Part.listsArguments 0 rfl⟩

/-- The property holds of every tree in a primary, if it does so in operands. -/
theorem Primary.read_everyAt {limit depth : Nat} (hP : Tree.OfCode limit P) (hdepth : depth ≤ limit)
    (hevery : ∀ {extent s t rest}, expression depth extent s = .ok (t, rest) → t.EveryAt P rest)
    {s rest : Input} {t : Tree} (h : Primary.read (expression depth) s = .ok (t, rest)) :
    t.EveryAt P rest := by
  cases Primary.read_eq_ok.1 h with
  | leaf hscan hform => exact hP.leaf hscan hform
  | node _ hform hparts =>
    obtain ⟨hkind, hlists⟩ := Primary.listsArguments_of_of? hform
    exact ⟨hP.node hkind, Part.readAll_everyAt_of hP.under (Part.operands_expression depth) hevery _
      (hP.primary hform) (hP.nodesSatisfy hdepth hlists) hparts⟩

/-- The property holds of every tree in an expression that a tail extends, if it does so in
operands. -/
theorem Tail.attach_everyAt {limit depth : Nat} (hP : Tree.OfCode limit P) (hdepth : depth ≤ limit)
    (hevery : ∀ {extent s t rest}, expression depth extent s = .ok (t, rest) → t.EveryAt P rest)
    {extent : Extent} {s rest : Input} {t : Tree} {tail : Tail Tree} (ht : t.EveryAt P s)
    (h : Tail.read (expression depth) extent s = .ok (some tail, rest)) :
    (Tail.attach t tail).EveryAt P rest := by
  have ho := Part.operands_expression depth
  have hsource : Tree.sources tail.more ++ rest = s := Tail.read_append ho.source h
  cases Tail.read_eq_ok.1 h with
  | some _ hnext hmore =>
    have hform := (Tail.of?_of_next? hnext).2
    obtain ⟨hkind, hlists⟩ := Tail.listsArguments_of_of? hform
    subst hsource
    exact ⟨hP.node hkind, ht.under hP.under _,
      Part.readAll_everyAt_of hP.under ho hevery _ (hP.tail hform)
        (hP.nodesSatisfy hdepth hlists) hmore⟩

/-- The property holds of every tree in an expression that nests no deeper than the limit. -/
theorem expression_everyAt_of {limit : Nat} (hP : Tree.OfCode limit P) {depth : Nat}
    (hdepth : depth ≤ limit) {extent : Extent} {s rest : Input} {t : Tree}
    (h : expression depth extent s = .ok (t, rest)) : t.EveryAt P rest := by
  induction depth generalizing extent s t rest with
  | zero => cases h
  | succ depth ih =>
    obtain ⟨head, s', tails, hhead, htails, rfl⟩ := exists_of_expression h
    have hdepth : depth ≤ limit := Nat.le_of_succ_le hdepth
    have hevery := fun {extent s t rest} => @ih hdepth extent s rest t
    -- The tails extend the primary one after the other, and each is read where the last one ends.
    refine Parser.many_foldl (fun t s => Tree.EveryAt P s t) (fun t rest => Tree.EveryAt P rest t)
      (fun ht hround => ⟨Tail.attach_everyAt hP hdepth hevery ht hround,
        Tail.read_rest_lt (Part.operands_expression depth) hround⟩)
      (fun ht hround => ?_) (Primary.read_everyAt hP hdepth hevery hhead) htails
    obtain ⟨rfl, -⟩ := Tail.noPostfix_of_read_none hround
    exact ht

/-- What holds of the tokens of expressions holds of every tree in an expression. -/
theorem expression_everyAt (hP : Tree.OfExpressions P) (depth : Nat) {extent : Extent}
    {s rest : Input} {t : Tree} (h : expression depth extent s = .ok (t, rest)) :
    t.EveryAt P rest :=
  expression_everyAt_of (hP.ofCode depth) le_rfl h

/-! ## Items -/

/-- A property of tokens that those of expressions have, and all that are no operators. -/
structure Tree.OfOperators (P : Tree → Input → Prop) : Prop extends Tree.OfExpressions P where
  other : ∀ {t rest}, t.kind ≠ .operator → P t rest

/-- A property of trees that those of expressions have, and all that are no operators and no
argument lists. -/
structure Tree.OfMarkup (limit : Nat) (P : Tree → Input → Prop) : Prop
    extends Tree.OfCode limit P where
  other : ∀ {t rest}, t.kind ≠ .operator → t.kind ≠ .argumentList → P t rest

/-- What only operators may lack argument lists have too. -/
theorem Tree.OfOperators.ofMarkup (hP : OfOperators P) (limit : Nat) : OfMarkup limit P where
  toOfCode := hP.ofCode limit
  other hkind _ := hP.other hkind

namespace Markup

variable {s rest : Input} {ts : List Tree} {recover : Bool} {limit depth : Nat}

/-- The property holds in a production without operators, if it does so in operands. -/
theorem readAll_everyAt (hP : Tree.OfMarkup limit P) (hdepth : depth ≤ limit) (ps : List Part)
    (hps : (Part.terminalsOf ps).all (fun t => t.kind ≠ .operator ∧ t.kind ≠ .argumentList) = true)
    (hlists : Part.ListsArguments ps)
    (h : Part.readAll (expression depth) ps s = .ok (ts, rest)) : Tree.EveryOfAt P rest ts := by
  refine Part.readAll_everyAt_of hP.under (Part.operands_expression depth)
    (expression_everyAt_of hP.toOfCode hdepth) ps (fun t ht s leaf rest h => ?_)
    (hP.nodesSatisfy hdepth hlists) h
  obtain ⟨gap, text, rfl⟩ := (Terminal.read_leaf h).eq
  obtain ⟨hoperator, harguments⟩ := of_decide_eq_true (List.all_eq_true.1 hps t ht)
  exact hP.other hoperator harguments

/-- The property holds in a statement, and in the body of the raw block that it may begin. -/
theorem statement_everyAt (hP : Tree.OfMarkup limit P) (hdepth : depth ≤ limit)
    (h : (statement (expression depth)).parser s = .ok (ts, rest)) : Tree.EveryOfAt P rest ts := by
  obtain ⟨t, s', hread, -, hforms⟩ := exists_of_statement h
  have hstatement := readAll_everyAt hP hdepth [Part.statement] (by decide)
    (Part.listsArguments 2 rfl) (Part.readAll_singleton hread)
  rcases hforms with ⟨-, rfl, rfl⟩ | ⟨-, body, hbody, rfl⟩
  · exact hstatement
  · obtain ⟨text, hsplit, -, rfl⟩ := exists_of_rawBody hbody
    have hsource := splitBefore_append Token.atEndRaw s'
    rw [hsplit] at hsource
    subst hsource
    rw [← List.singleton_append]
    refine Tree.everyOfAt_append.2 ⟨by rwa [sources_textOf], ?_⟩
    rw [textOf]
    split
    · trivial
    · exact ⟨hP.other (by simp [Tree.kind]) (by simp [Tree.kind]), trivial⟩

/-- The property holds in an element, if it does so in the items of its body. -/
theorem element_everyAt (hP : Tree.OfMarkup limit P) (hdepth : depth ≤ limit)
    (hnested : ∀ {s ts rest}, (nested recover depth).parser s = .ok (ts, rest) →
      Tree.EveryOfAt P rest ts) {t : Tree}
    (h : (element (expression depth) (nested recover depth)).parser s = .ok (t, rest)) :
    t.EveryAt P rest := by
  have ho := Part.operands_expression depth
  obtain ⟨first, s₁, tag, s₂, stop, s₃, hfirst, htag, hstop, h⟩ := element_eq_ok h
  have htagEvery := readAll_everyAt hP hdepth header (by decide) (Part.listsArguments 0 rfl) htag
  have hstopEvery := readAll_everyAt hP hdepth headerEnd (by decide)
    (Part.listsArguments 0 rfl) hstop
  obtain ⟨gap, text, rfl⟩ := (Terminal.read_leaf hfirst).eq
  have hopening : Tree.EveryOfAt P s₃ (.leaf opener.field opener.kind gap text :: tag ++ stop) := by
    refine ⟨hP.other (by simp [Tree.kind, opener]) (by simp [Tree.kind, opener]),
      Tree.everyOfAt_append.2 ⟨?_, hstopEvery⟩⟩
    rwa [Part.readAll_append ho.source _ hstop]
  rcases h with ⟨-, rfl, rfl⟩ | ⟨-, items, s₄, closing, hitems, hclosing, rfl⟩
  · exact ⟨hP.node (by decide), hopening⟩
  · have hreads := nested_readsItems recover depth
    obtain ⟨hrow, -⟩ := row_of_body hreads hitems
    have hclosingEvery := readAll_everyAt hP hdepth footer (by decide)
      (Part.listsArguments 0 rfl) hclosing
    have hclosingSource := Part.readAll_append ho.source _ hclosing
    subst hclosingSource
    refine ⟨hP.node (by decide), Tree.everyOfAt_append.2 ⟨Tree.everyOfAt_append.2 ⟨?_, ?_⟩,
      hclosingEvery⟩⟩
    · rwa [hrow.source hreads]
    · exact everyOfAt_of_row hreads hnested hrow

/-- The property holds in what becomes of an item, if it does so in the item. -/
theorem settling_everyAt (hP : Tree.OfMarkup limit P) {item : Reading (List Tree)}
    (hitem : ∀ {s ts rest}, item.parser s = .ok (ts, rest) → Tree.EveryOfAt P rest ts)
    (h : (item.settling recover).parser s = .ok (ts, rest)) : Tree.EveryOfAt P rest ts := by
  rcases exists_of_settling h with h | ⟨-, skipped, rfl⟩
  · exact hitem h
  · exact ⟨hP.other (by simp [Tree.kind]) (by simp [Tree.kind]), trivial⟩

/-- The property holds in an item, if it does so in the element that it may be. -/
theorem itemOf_everyAt (hP : Tree.OfMarkup limit P) (hdepth : depth ≤ limit)
    {element : Reading Tree}
    (helement : ∀ {s t rest}, element.parser s = .ok (t, rest) → t.EveryAt P rest)
    (h : (itemOf (expression depth) element).parser s = .ok (ts, rest)) :
    Tree.EveryOfAt P rest ts := by
  simp only [Reading.parser, itemOf_eq] at h
  split at h
  case h_1 =>
    cases h
    exact ⟨hP.other (by simp [Tree.kind]) (by simp [Tree.kind]), trivial⟩
  case h_2 =>
    exact readAll_everyAt hP hdepth [Part.value none .text "`\x7b\x7b`"] (by decide)
      (Part.listsArguments 0 rfl) (Part.readAll_singleton h)
  case h_3 => exact statement_everyAt hP hdepth h
  case h_4 hscan =>
    obtain ⟨t, ht, rfl⟩ := Reading.parser_single_eq_ok.1 h
    obtain ⟨content, rfl, -⟩ := comment_eq_ok hscan ht
    have hleaf : ∀ (f kind text rest), kind ≠ Kind.operator → kind ≠ .argumentList →
        P (.leaf f kind [] text) rest :=
      fun _ _ _ _ hoperator harguments => hP.other hoperator harguments
    refine ⟨⟨hP.node (by decide), ?_⟩, trivial⟩
    by_cases hcontent : content = [] <;> simp [commentLeaves, hcontent, Tree.EveryOfAt,
      Tree.EveryAt, hleaf]
  case h_5 =>
    obtain ⟨t, ht, rfl⟩ := Reading.parser_single_eq_ok.1 h
    exact ⟨helement ht, trivial⟩
  case h_6 => cases h

/-- The property holds in an item. -/
theorem item_everyAt (hP : Tree.OfMarkup limit P) (hdepth : depth ≤ limit) {s rest : Input}
    {ts : List Tree} (h : (item recover depth).parser s = .ok (ts, rest)) :
    Tree.EveryOfAt P rest ts := by
  induction depth generalizing s rest ts with
  | zero => exact itemOf_everyAt hP hdepth (fun ht => absurd ht tooDeep_ne_ok) h
  | succ depth ih =>
    have hitem := fun {s ts rest} => @ih (Nat.le_of_succ_le hdepth) s rest ts
    refine itemOf_everyAt hP hdepth
      (fun ht => element_everyAt hP (Nat.le_of_succ_le hdepth) (fun hnested => ?_) ht) h
    cases recover with
    | true => exact settling_everyAt hP hitem hnested
    | false => exact hitem hnested

end Markup

namespace Template

/-- What only operators and argument lists may lack holds of every tree in a template with what
follows it. -/
theorem parse_everyAt_of (options : Options) (hP : Tree.OfMarkup options.maxDepth P)
    (source : Input) : (parse options source).tree.EveryAt P [] := by
  have hreads := Markup.settling_readsItems options.recover
    (Markup.item_readsItems options.recover options.maxDepth)
  exact ⟨hP.node (by decide), Markup.everyOfAt_of_row hreads
    (Markup.settling_everyAt hP (Markup.item_everyAt hP le_rfl)) (row_of_steps options source)⟩

/-- What only operators may lack holds of every tree in a template with what follows it. -/
theorem parse_everyAt (hP : Tree.OfOperators P) (options : Options) (source : Input) :
    (parse options source).tree.EveryAt P [] :=
  parse_everyAt_of options (hP.ofMarkup options.maxDepth) source

end Template

end Stencil
