import Stencil.Proofs.Items

/-!
# What is found in a template

Many a property of the trees in a template is a property of the expressions in it that have an
operator, a call, a property or a subscript: of all other trees it holds for no other reason than
their kind. Such a property (`Tree.Common`) need only be shown of expressions. It then holds of
every tree in a template (`Template.parse_every`), whether reading recovers or not. A property may
also ask of literals that they are written as tokens (`Tree.Ordinary`): strings stand outside of
expressions too, but are read as tokens there (`Template.parse_ordinary`).
-/

namespace Stencil

/-- The kinds of the expressions that have an operator, a call, a property or a subscript. -/
def Kind.isOperation : Kind → Bool
  | comparison | binaryOperation | unaryOperation | call | propertyAccess | subscript => true
  | _ => false

/-- The kind of the tokens that are literals of a kind, if there are literals of that kind. -/
def Kind.literal? : Kind → Option TokenKind
  | string => some .quoted
  | integer => some .integer
  | float => some .float
  | _ => none

/-- What only expressions with an operator, a call, a property or a subscript may lack. -/
structure Tree.Common (P : Tree → Prop) : Prop where
  /-- The field of a tree makes no difference. -/
  under : ∀ {t f}, P t → P (t.under f)
  /-- Tokens have it. -/
  leaf : ∀ f kind gap text, P (leaf f kind gap text)
  /-- Nodes of other kinds have it, whatever their children are. -/
  node : ∀ {f kind ts}, kind.isOperation = false → P (node f kind ts)

/-- An ordinary property: only expressions with an operator, a call, a property or a subscript may
lack it, and literals that are not written as tokens. -/
structure Tree.Ordinary (P : Tree → Prop) : Prop where
  /-- The field of a tree makes no difference. -/
  under : ∀ {t f}, P t → P (t.under f)
  /-- Tokens that are no literals have it. -/
  leaf : ∀ {f kind gap text}, kind.literal? = none → P (leaf f kind gap text)
  /-- Strings have it that are written as tokens. -/
  string : ∀ {mode s next} f, Token.scan mode s = .ok next → next.kind = .quoted →
    P (next.leaf f .string)
  /-- Nodes of other kinds have it, whatever their children are. -/
  node : ∀ {f kind ts}, kind.isOperation = false → P (node f kind ts)

/-- What trees have in common is ordinary: all tokens have it. -/
theorem Tree.Common.ordinary {P : Tree → Prop} (h : Common P) : Ordinary P where
  under := h.under
  leaf _ := h.leaf _ _ _ _
  string _ _ _ := h.leaf _ _ _ _
  node := h.node

/-! ## Productions -/

/-- Whether a token is no literal, or a string that is written as one. -/
def Terminal.isOrdinary (t : Terminal) : Bool :=
  match t.kind, t.pattern with
  | .string, .kind .quoted => true
  | kind, _ => kind.literal? = none

/-- The leaves of such a token have an ordinary property. -/
theorem Terminal.Leaf.ordinary {P : Tree → Prop} (hP : Tree.Ordinary P) {t : Terminal}
    (ht : t.isOrdinary = true) {leaf : Tree} (h : t.Leaf leaf) : P leaf := by
  obtain ⟨s, next, taken, hscan, htake, rfl⟩ := h
  unfold isOrdinary at ht
  split at ht
  · rename_i hkind hpattern
    rw [hpattern] at htake
    obtain ⟨hquoted, rfl⟩ := Pattern.kind_of_take? htake
    rw [hkind]
    exact hP.string _ hscan hquoted
  · exact hP.leaf (of_decide_eq_true ht)

namespace Part

/-- Whether no node that a production makes is of a kind that has an operator, a call, a property or
a subscript. -/
def Plain (ps : List (Kind × List Part)) : Prop := ∀ p ∈ ps, p.1.isOperation = false

instance (ps : List (Kind × List Part)) : Decidable (Plain ps) :=
  inferInstanceAs (Decidable (∀ p ∈ ps, p.1.isOperation = false))

mutual

/-- The tokens of a part. -/
def terminals : Part → List Terminal
  | token t => [t]
  | .operand _ _ | callee | refuse _ => []
  | node _ _ parts | repeated _ parts => terminalsOf parts
  | enclosed _ _ opening parts => opening :: terminalsOf parts
  | choice _ yes no => terminalsOf yes ++ terminalsOf no

/-- The tokens of a production. -/
def terminalsOf : List Part → List Terminal
  | [] => []
  | p :: ps => p.terminals ++ terminalsOf ps

end

variable {P : Tree → Prop} {E : Extent → Tree → Prop}

mutual

/-- What holds of the leaves of a part, and of its nodes whatever their children are, holds of every
tree that it yields, if it does so of operands. -/
theorem every_of_yields (hunder : ∀ {t f}, P t → P (t.under f))
    (hE : ∀ {extent t}, E extent t → t.Every P) :
    ∀ (p : Part) {ts : List Tree}, (∀ t ∈ p.terminals, ∀ leaf, t.Leaf leaf → P leaf) →
      (∀ q ∈ p.productions, ∀ f ts, P (.node f q.1 ts)) → p.Yields E ts → Tree.EveryOf P ts
  | token t, ts, hleaf, _, ⟨leaf, h, hts⟩ => by
    have hleaf := hleaf t List.mem_cons_self leaf h
    obtain ⟨gap, text, rfl⟩ := h.eq
    subst hts
    exact ⟨hleaf, trivial⟩
  | .operand field _, ts, _, _, ⟨t, ht, hts⟩ => by
    subst hts
    exact ⟨(hE ht).under hunder field, trivial⟩
  | callee, ts, _, _, ⟨t, ht, hts⟩ => by
    subst hts
    exact every_splitCall hunder (hE ht)
  | node _ kind parts, ts, hleaf, hnode, ⟨inner, hinner, hts⟩ => by
    subst hts
    obtain ⟨hnode, hparts⟩ := List.forall_mem_cons.1 hnode
    exact ⟨⟨hnode _ _, everyOf_of_yields hunder hE parts hleaf hparts hinner⟩, trivial⟩
  | enclosed _ kind opening parts, ts, hleaf, hnode, ⟨first, inner, hfirst, hinner, hts⟩ => by
    subst hts
    obtain ⟨hopening, hleaf⟩ := List.forall_mem_cons.1 hleaf
    obtain ⟨hnode, hparts⟩ := List.forall_mem_cons.1 hnode
    have hfirstLeaf := hopening first hfirst
    obtain ⟨gap, text, rfl⟩ := hfirst.eq
    have hmore := everyOf_of_yields hunder hE parts hleaf hparts hinner
    exact ⟨⟨hnode _ _, hfirstLeaf, hmore⟩, trivial⟩
  | choice _ yes no, ts, hleaf, hnode, h => by
    obtain ⟨hyesLeaf, hnoLeaf⟩ := List.forall_mem_append.1 hleaf
    obtain ⟨hyes, hno⟩ := List.forall_mem_append.1 hnode
    rcases h with h | h
    · exact everyOf_of_yields hunder hE yes hyesLeaf hyes h
    · exact everyOf_of_yields hunder hE no hnoLeaf hno h
  | repeated _ parts, ts, hleaf, hnode, ⟨rounds, hrounds, hts⟩ => by
    subst hts
    refine Tree.everyOf_iff.2 fun t ht => ?_
    obtain ⟨round, hround, ht⟩ := List.mem_flatten.1 ht
    have hevery := everyOf_of_yields hunder hE parts hleaf hnode (hrounds round hround)
    exact Tree.everyOf_iff.1 hevery t ht

/-- What holds of the leaves of a production, and of its nodes whatever their children are, holds of
every tree that it yields, if it does so of operands. -/
theorem everyOf_of_yields (hunder : ∀ {t f}, P t → P (t.under f))
    (hE : ∀ {extent t}, E extent t → t.Every P) :
    ∀ (ps : List Part) {ts : List Tree}, (∀ t ∈ terminalsOf ps, ∀ leaf, t.Leaf leaf → P leaf) →
      (∀ q ∈ productionsOf ps, ∀ f ts, P (.node f q.1 ts)) → YieldsAll E ps ts →
      Tree.EveryOf P ts
  | [], ts, _, _, h => by
    obtain rfl : ts = [] := h
    exact trivial
  | p :: ps, ts, hleaf, hnode, ⟨first, more, hfirst, hmore, hts⟩ => by
    subst hts
    obtain ⟨hpLeaf, hpsLeaf⟩ := List.forall_mem_append.1 hleaf
    obtain ⟨hp, hps⟩ := List.forall_mem_append.1 hnode
    exact Tree.everyOf_append.2
      ⟨every_of_yields hunder hE p hpLeaf hp hfirst,
        everyOf_of_yields hunder hE ps hpsLeaf hps hmore⟩

end

variable {operand : Extent → Parser Tree}

/-- What trees have in common holds of every tree that a plain production is read into, if it does
so of operands. -/
theorem readAll_every (hP : Tree.Common P)
    (ho : ∀ {extent s t rest}, operand extent s = .ok (t, rest) → t.Every P) {ps : List Part}
    (hps : Plain (productionsOf ps)) {s rest : Input} {ts : List Tree}
    (h : readAll operand ps s = .ok (ts, rest)) : Tree.EveryOf P ts := by
  refine everyOf_of_yields (E := fun _ t => t.Every P) hP.under (fun h => h) ps
    (fun t _ leaf hleaf => ?_) (fun q hq _ _ => hP.node (hps q hq)) (readAll_yields ho ps h)
  obtain ⟨gap, text, rfl⟩ := hleaf.eq
  exact hP.leaf _ _ _ _

/-- An ordinary property holds of every tree that a plain production with ordinary tokens is read
into, if it does so of operands. -/
theorem readAll_ordinary (hP : Tree.Ordinary P)
    (ho : ∀ {extent s t rest}, operand extent s = .ok (t, rest) → t.Every P) {ps : List Part}
    (hps : Plain (productionsOf ps)) (hterminals : (terminalsOf ps).all Terminal.isOrdinary = true)
    {s rest : Input} {ts : List Tree} (h : readAll operand ps s = .ok (ts, rest)) :
    Tree.EveryOf P ts :=
  everyOf_of_yields (E := fun _ t => t.Every P) hP.under (fun h => h) ps
    (fun t ht _ hleaf => hleaf.ordinary hP (List.all_eq_true.1 hterminals t ht))
    (fun q hq _ _ => hP.node (hps q hq)) (readAll_yields ho ps h)

/-- An ordinary property holds of every tree that a plain part with ordinary tokens is read into, if
it does so of operands. -/
theorem read_ordinary (hP : Tree.Ordinary P)
    (ho : ∀ {extent s t rest}, operand extent s = .ok (t, rest) → t.Every P) {p : Part}
    (hp : Plain p.productions) (hterminals : p.terminals.all Terminal.isOrdinary = true)
    {s rest : Input} {ts : List Tree} (h : p.read operand s = .ok (ts, rest)) :
    Tree.EveryOf P ts :=
  every_of_yields (E := fun _ t => t.Every P) hP.under (fun h => h) p
    (fun t ht _ hleaf => hleaf.ordinary hP (List.all_eq_true.1 hterminals t ht))
    (fun q hq _ _ => hP.node (hp q hq)) (read_yields ho p h)

end Part

/-! ## Items -/

namespace Markup

variable {P : Tree → Prop} {operand : Extent → Parser Tree}

/-- Reading that answers trees in which a property holds of every tree. -/
def ReadsEvery (P : Tree → Prop) (x : Reading (List Tree)) : Prop :=
  ∀ ⦃s ts rest⦄, x.parser s = .ok (ts, rest) → Tree.EveryOf P ts

/-- Every tree in a comment has an ordinary property. -/
theorem comment_every (hP : Tree.Ordinary P) {s rest : Input} {t : Tree}
    (h : comment.parser s = .ok (t, rest)) : t.Every P := by
  cases commentTree_of_comment h with
  | empty => exact ⟨hP.node rfl, hP.leaf rfl, hP.leaf rfl, trivial⟩
  | filled => exact ⟨hP.node rfl, hP.leaf rfl, hP.leaf rfl, hP.leaf rfl, trivial⟩

/-- Every tree in the body of a raw block has an ordinary property. -/
theorem rawBody_every (hP : Tree.Ordinary P) (opener : Input) : ReadsEvery P (rawBody opener) := by
  intro s ts rest h
  obtain ⟨-, -, rfl⟩ := rawBody_eq_ok.1 h
  split
  · trivial
  · exact ⟨hP.leaf rfl, trivial⟩

/-- Every tree in a statement has an ordinary property, if those in operands do. -/
theorem statement_every (hP : Tree.Ordinary P)
    (ho : ∀ {extent s t rest}, operand extent s = .ok (t, rest) → t.Every P) :
    ReadsEvery P (statement operand) := by
  intro s ts rest h
  obtain ⟨read, s', hread, h⟩ := statement_eq_ok.1 h
  have hstatement := Part.read_ordinary hP ho (by decide) (by decide) hread
  obtain ⟨-, rfl, rfl⟩ | ⟨-, body, hbody, rfl⟩ := h
  · exact hstatement
  · exact Tree.everyOf_append.2 ⟨hstatement, rawBody_every hP _ hbody⟩

/-- Every tree in the body of an element has a property, if those in the items do. -/
theorem body_every {x : Reading (List Tree)} (hx : ReadsEvery P x) : ReadsEvery P (body x) := by
  intro s ts rest h
  refine body_induction (motive := fun _ ts _ => Tree.EveryOf P ts) ?stop ?next ?stuck h
  case stop => exact fun _ _ => trivial
  case next => exact fun _ hfirst _ hothers => Tree.everyOf_append.2 ⟨hx hfirst, hothers⟩
  case stuck => exact fun _ hfirst _ => hx hfirst

/-- Every tree in an element has an ordinary property, if those in operands and in the items of
the body do. -/
theorem element_every (hP : Tree.Ordinary P)
    (ho : ∀ {extent s t rest}, operand extent s = .ok (t, rest) → t.Every P)
    {x : Reading (List Tree)} (hx : ReadsEvery P x) {s rest : Input} {t : Tree}
    (h : (element operand x).parser s = .ok (t, rest)) : t.Every P := by
  obtain ⟨first, s₁, tag, s₂, stop, s₃, hfirst, htag, hstop, h⟩ := element_eq_ok h
  obtain ⟨gap, text, rfl⟩ := (Terminal.read_leaf hfirst).eq
  have htagEvery := Part.readAll_ordinary hP ho (by decide) (by decide) htag
  have hstopEvery := Part.readAll_ordinary hP ho (by decide) (by decide) hstop
  have hopening : Tree.EveryOf P (.leaf opener.field opener.kind gap text :: tag ++ stop) :=
    ⟨hP.leaf rfl, Tree.everyOf_append.2 ⟨htagEvery, hstopEvery⟩⟩
  rcases h with ⟨-, rfl, rfl⟩ | ⟨-, items, s₄, closing, hitems, hclosing, rfl⟩
  · exact ⟨hP.node rfl, hopening⟩
  · have hclosingEvery := Part.readAll_ordinary hP ho (by decide) (by decide) hclosing
    exact ⟨hP.node rfl, Tree.everyOf_append.2
      ⟨Tree.everyOf_append.2 ⟨hopening, body_every hx hitems⟩, hclosingEvery⟩⟩

/-- Every tree in an item has an ordinary property, if those in operands and in the elements
that it may be do. -/
theorem itemOf_every (hP : Tree.Ordinary P)
    (ho : ∀ {extent s t rest}, operand extent s = .ok (t, rest) → t.Every P)
    {element : Reading Tree}
    (he : ∀ {s t rest}, element.parser s = .ok (t, rest) → t.Every P) :
    ReadsEvery P (itemOf operand element) := by
  intro s ts rest h
  simp only [Reading.parser, itemOf_eq] at h
  split at h
  case h_1 =>
    cases h
    exact ⟨hP.leaf rfl, trivial⟩
  case h_2 => exact Part.read_ordinary hP ho (by decide) (by decide) h
  case h_3 => exact statement_every hP ho h
  case h_4 =>
    obtain ⟨t, ht, rfl⟩ := Reading.parser_single_eq_ok.1 h
    exact ⟨comment_every hP ht, trivial⟩
  case h_5 =>
    obtain ⟨t, ht, rfl⟩ := Reading.parser_single_eq_ok.1 h
    exact ⟨he ht, trivial⟩
  case h_6 => cases h

/-- Every tree in what becomes of an item has an ordinary property, if those in the item do: an
error that stands for an item is a token. -/
theorem settle_every (hP : Tree.Ordinary P) {x : Reading (List Tree)} (hx : ReadsEvery P x)
    (recover : Bool) (s : Input) : Tree.EveryOf P ((x s).settle recover s).trees := by
  unfold Reply.settle
  split
  · rename_i ts rest h
    exact hx h
  · exact ⟨hP.leaf rfl, trivial⟩

/-- An element that is refused is no tree. -/
theorem tooDeep_every {s rest : Input} {t : Tree} (h : tooDeep.parser s = .ok (t, rest)) :
    t.Every P := by
  simp only [tooDeep, Reading.parser_bind, Reading.parser_quiet, Parser.bind_eq_ok] at h
  obtain ⟨_, _, _, _, _, _, h⟩ := h
  cases h

/-- Every tree in an item has an ordinary property, if those in expressions do. -/
theorem item_every (hP : Tree.Ordinary P)
    (hexpression : ∀ {depth extent s t rest}, expression depth extent s = .ok (t, rest) → t.Every P)
    (recover : Bool) (depth : Nat) : ReadsEvery P (item recover depth) := by
  induction depth with
  | zero => exact itemOf_every hP hexpression tooDeep_every
  | succ depth ih =>
    have hinner : ReadsEvery P
        (if recover then (item recover depth).recovering else item recover depth) := by
      cases recover with
      | true =>
        intro s ts rest h
        cases h
        exact settle_every hP ih true s
      | false => exact ih
    exact itemOf_every hP hexpression fun h => element_every hP hexpression hinner h

end Markup

namespace Template

variable {P : Tree → Prop}

/-- Each of the steps is taken somewhere. -/
theorem exists_eq_step {options : Options} {s : Input} {done : Step}
    (h : done ∈ steps options s) : ∃ s', done = step options s' := by
  fun_induction steps options s with
  | case1 => cases h
  | case2 s _ first _ ih =>
    rcases List.mem_cons.1 h with rfl | h
    · exact ⟨s, rfl⟩
    · exact ih h
  | case3 s => exact ⟨s, List.mem_singleton.1 h⟩

/-- Every tree in a template has an ordinary property, if those in expressions do. -/
theorem parse_ordinary (hP : Tree.Ordinary P)
    (hexpression : ∀ {depth extent s t rest}, expression depth extent s = .ok (t, rest) → t.Every P)
    (options : Options) (source : Input) : (parse options source).tree.Every P := by
  refine ⟨hP.node rfl, ?_⟩
  -- Every step reads an item, or puts an error in its place.
  have hstep : ∀ s, Tree.EveryOf P (step options s).trees :=
    Markup.settle_every hP (Markup.item_every hP hexpression options.recover options.maxDepth)
      options.recover
  refine Tree.everyOf_iff.2 fun t ht => ?_
  obtain ⟨done, hdone, ht⟩ := List.mem_flatMap.1 ht
  obtain ⟨s, rfl⟩ := exists_eq_step hdone
  exact Tree.everyOf_iff.1 (hstep s) t ht

/-- Every tree in a template has what trees have in common, if those in expressions do. -/
theorem parse_every (hP : Tree.Common P)
    (hexpression : ∀ {depth extent s t rest}, expression depth extent s = .ok (t, rest) → t.Every P)
    (options : Options) (source : Input) : (parse options source).tree.Every P :=
  parse_ordinary hP.ordinary hexpression options source

end Template

end Stencil
