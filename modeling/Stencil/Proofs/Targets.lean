import Mathlib
import Stencil.Proofs.Nesting
import Stencil.Proofs.Statements

/-!
# Targets of loops

The header of a loop is split at the first word `in` that stands in no brackets. What an expression
exposes (`Node.exposed`) is what stands in it without brackets around it. The operand of an operator
holds no operator between operands that is exposed, and the target of a loop none that is a word: so
neither exposes a membership (`expression_sheltered`). Hence the word behind the target of a loop is
the `in` at which its header is split, and the main statement is that this is so for every loop of a
template (`Template.header_of_forStatement`).
-/

namespace Stencil

/-! ## What an expression exposes -/

/-- The fields of the operands of an expression that no brackets are around. -/
def Field.isExposed : Field → Bool
  | left | right | operand | function | object => true
  | _ => false

namespace Node

mutual

/-- The node, and what it exposes: its operands that no brackets are around, and what these
expose. -/
def exposed : Node → List Node
  | ⟨id, start, stop, tree, ns⟩ => ⟨id, start, stop, tree, ns⟩ :: exposedAmong ns

/-- What is exposed among some children. -/
def exposedAmong : List Node → List Node
  | [] => []
  | n :: ns => (if n.field.any Field.isExposed then n.exposed else []) ++ exposedAmong ns

end

/-- A node exposes itself and what is exposed among its children. -/
theorem exposed_eq (n : Node) : n.exposed = n :: exposedAmong n.children := by
  cases n
  rfl

/-- A comparison by the operator `in` or `not in`. -/
def IsMembership (n : Node) : Prop :=
  ∃ left op right, n.view? = some (.comparison left op right) ∧
    op ∈ ["in".toList, "not in".toList]

end Node

namespace Tree

/-- The operator among the children of an expression, with one space for the blanks in it. -/
def operatorOf (ts : List Tree) : List Char :=
  Node.squeeze ((ts.find? fun c => c.field = some .operator).elim [] text)

mutual

/-- Whether an expression exposes no membership. -/
def Sheltered : Tree → Prop
  | leaf .. => True
  | node _ kind ts =>
    (kind = .comparison → operatorOf ts ∉ ["in".toList, "not in".toList]) ∧ ShelteredAmong ts

/-- Whether no membership is exposed among some children. -/
def ShelteredAmong : List Tree → Prop
  | [] => True
  | t :: ts => (t.field.any Field.isExposed = true → t.Sheltered) ∧ ShelteredAmong ts

end

variable {t : Tree} {ts : List Tree}

/-- The field of an expression does not matter for what it exposes. -/
theorem sheltered_under (t : Tree) (f : Option Field) : (t.under f).Sheltered ↔ t.Sheltered := by
  cases t <;> rfl

/-- An expression that exposes no membership does so under every field. -/
theorem Sheltered.under (h : t.Sheltered) (f : Option Field) : (t.under f).Sheltered :=
  (sheltered_under t f).2 h

/-- Where no child is exposed no membership is. -/
theorem shelteredAmong_of_forall (h : ∀ t ∈ ts, t.field.any Field.isExposed = false) :
    ShelteredAmong ts := by
  induction ts with
  | nil => trivial
  | cons t ts ih =>
    obtain ⟨ht, hts⟩ := List.forall_mem_cons.1 h
    exact ⟨fun hexposed => (Bool.false_ne_true (ht.symm.trans hexposed)).elim, ih hts⟩

/-- A tree is a membership, wherever it is placed, if its operator is `in` or `not in`. -/
theorem isMembership_place (t : Tree) (id pos : Nat) :
    (t.place id pos).IsMembership ↔
      t.kind = .comparison ∧ operatorOf t.children ∈ ["in".toList, "not in".toList] := by
  have htext : Node.squeeze ((t.place id pos).textUnder .operator) = operatorOf t.children := by
    rw [operatorOf, ← Node.child?_place t id pos, Node.textUnder]
    cases (t.place id pos).child? .operator <;> rfl
  constructor
  · rintro ⟨left, op, right, hview, hop⟩
    have hkind : t.kind = .comparison := (Node.kind_place t id pos).symm.trans
      (Node.kind_of_view? hview)
    rw [Node.view?, Node.kind_place, hkind] at hview
    obtain ⟨-, rfl, -⟩ := View.comparison.inj (Option.some.inj hview)
    exact ⟨hkind, htext ▸ hop⟩
  · rintro ⟨hkind, hop⟩
    refine ⟨(t.place id pos).expr? .left, _, (t.place id pos).expr? .right, ?_, htext ▸ hop⟩
    rw [Node.view?, Node.kind_place, hkind]

/-- The operator between two operands is the one that stands there. -/
theorem operatorOf_operation {left right : Tree} (sign : Token) :
    operatorOf [left.under (some .left), sign.leaf (some .operator) .operator,
      right.under (some .right)] = Node.squeeze sign.text := by
  have hfield : (sign.leaf (some .operator) .operator).field = some .operator := rfl
  have htext : (sign.leaf (some .operator) .operator).text = sign.text := by
    simp [Token.leaf, text, source, gap]
  simp [operatorOf, hfield, htext]

mutual

/-- An expression exposes no membership exactly if none of the nodes that it exposes is one,
wherever it is placed. -/
theorem sheltered_iff : ∀ (t : Tree) (id pos : Nat),
    t.Sheltered ↔ ∀ n ∈ (t.place id pos).exposed, ¬n.IsMembership
  | leaf f kind gap text, id, pos => by
    refine iff_of_true trivial fun n hn hmember => ?_
    obtain rfl : n = (leaf f kind gap text).place id pos := List.mem_singleton.1 hn
    -- A leaf has no operator.
    have hop := ((isMembership_place _ id pos).1 hmember).2
    simp [operatorOf, children, Node.squeeze] at hop
  | node f kind ts, id, pos => by
    have hts := shelteredAmong_iff ts id pos
    have hmember := isMembership_place (node f kind ts) id pos
    rw [Node.exposed_eq, List.forall_mem_cons, hmember, place_children]
    exact and_congr (not_and.symm) hts

/-- Among some children no membership is exposed exactly if none of the nodes that are exposed there
is one, wherever they are placed. -/
theorem shelteredAmong_iff : ∀ (ts : List Tree) (id pos : Nat),
    ShelteredAmong ts ↔ ∀ n ∈ Node.exposedAmong (placeAll id pos ts), ¬n.IsMembership
  | [], _, _ => iff_of_true trivial nofun
  | t :: ts, id, pos => by
    have ht := sheltered_iff t id pos
    have hts := shelteredAmong_iff ts (id + t.size) (pos + byteLength t.source)
    rw [placeAll_cons, Node.exposedAmong, List.forall_mem_append, ShelteredAmong, hts, ht,
      Node.field_place]
    refine and_congr_left fun _ => ?_
    split
    · exact forall_prop_of_true ‹_›
    · exact iff_of_true (fun h => absurd h ‹_›) nofun

end

end Tree

/-! ## Reading -/

section Expressions

variable {operand : Extent → Parser Tree} {extent : Extent} {s rest : Input} {t : Tree}

/-- No symbol is a word that compares. -/
theorem Token.squeeze_symbol {text : List Char} {kind : TokenKind} (h : (text, kind) ∈ symbols) :
    Node.squeeze text ∉ ["in".toList, "not in".toList] := by
  have hsymbols : ∀ symbol ∈ symbols, Node.squeeze symbol.1 ∉ ["in".toList, "not in".toList] := by
    decide
  exact hsymbols _ h

/-- Where an expression does not go on through all operators, a comparison that it goes on through
is by a symbol. -/
theorem Tail.mem_symbols_of_comparison (he : extent ≠ .whole) {next sign : Token}
    (hscan : Token.scan (mode extent) s = .ok next) (hadmits : admits extent next = true)
    (hcompares : next.kind ∈ comparisonKinds ∨ next.isWord "in" = true)
    (hsign : Token.scan .operator s = .ok sign) (hkind : sign.kind = next.kind) :
    (sign.text, sign.kind) ∈ Token.symbols := by
  cases extent with
  | whole => exact absurd rfl he
  | operand =>
    have hpostfix : ∀ k ∈ comparisonKinds, k ≠ .dot ∧ k ≠ .leftBracket := by decide
    simp only [admits, decide_eq_true_eq] at hadmits
    rcases hcompares with hcompares | hword
    · obtain ⟨hdot, hbracket⟩ := hpostfix _ hcompares
      exact absurd hadmits (not_or.2 ⟨hdot, hbracket⟩)
    · rw [(Token.isWord_iff.1 hword).1] at hadmits
      simp at hadmits
  | target =>
    simp only [admits, ne_eq, decide_not, Bool.not_eq_true', decide_eq_false_iff_not] at hadmits
    have hcompares := hcompares.resolve_right fun hword => hadmits (Token.isWord_iff.1 hword).1
    have hnotIn := (Token.afterBlanks_written hscan).ne_notIn
    have hkinds : ∀ k ∈ comparisonKinds, k ≠ .notIn → k ∈ Token.symbols.map Prod.snd := by decide
    rcases Token.scanOperator_written hsign with hwritten | ⟨hwords, -⟩
    · exact hwritten.mem_symbols (hkind ▸ hkinds _ hcompares hnotIn)
    · exact absurd (hkind.symm.trans hwords) hnotIn

/-- Parts that are held under no field of an operand expose no membership. -/
theorem Part.shelteredAmong_of_readAll {ps : List Part} {ts : List Tree}
    (hps : (fieldsOf ps).all (fun f => !f.any Field.isExposed) = true)
    (h : readAll operand ps s = .ok (ts, rest)) : Tree.ShelteredAmong ts := by
  have hyields := readAll_yields (E := fun _ _ => True) (fun _ => trivial) ps h
  exact Tree.shelteredAmong_of_forall fun t ht =>
    Bool.not_eq_true' _ ▸ List.all_eq_true.1 hps _ (field_mem_of_yieldsAll ps hyields t ht)

/-- A primary exposes no membership, if operands do not. -/
theorem Primary.read_sheltered
    (ho : ∀ {s t rest}, operand .operand s = .ok (t, rest) → Tree.Sheltered t)
    (h : read operand s = .ok (t, rest)) : t.Sheltered := by
  cases read_eq_ok.1 h with
  | leaf => trivial
  | node _ hform hread =>
    rcases of?_eq_node hform with hnode | hnode | ⟨hnode, -⟩
    · cases hnode
      exact ⟨nofun, Part.shelteredAmong_of_readAll (by decide) hread⟩
    · cases hnode
      exact ⟨nofun, Part.shelteredAmong_of_readAll (by decide) hread⟩
    · cases hnode
      obtain ⟨sign, u, _, -, -, hu, rfl⟩ := Part.readAll_operation hread
      exact ⟨nofun, nofun, fun _ => (ho hu).under _, trivial⟩

/-- A tail that is no word exposes no membership behind an expression that does not, if operands do
not. -/
theorem Tail.attach_sheltered
    (ho : ∀ {s t rest}, operand .operand s = .ok (t, rest) → Tree.Sheltered t)
    (he : extent ≠ .whole) {tail : Tail Tree} (ht : t.Sheltered)
    (h : Tail.read operand extent s = .ok (some tail, rest)) : (attach t tail).Sheltered := by
  cases read_eq_ok.1 h with
  | some hscan hnext hread =>
    obtain ⟨hadmits, hform⟩ := of?_of_next? hnext
    rcases of?_eq_some hform with ⟨rfl, -⟩ | ⟨rfl, -⟩ | ⟨rfl, -⟩ | ⟨rfl, hcompares⟩ | ⟨rfl, -⟩
    · exact ⟨nofun, fun _ => ht.under _, Part.shelteredAmong_of_readAll (by decide) hread⟩
    · exact ⟨nofun, fun _ => ht.under _, Part.shelteredAmong_of_readAll (by decide) hread⟩
    · exact ⟨nofun, fun _ => ht.under _, Part.shelteredAmong_of_readAll (by decide) hread⟩
    · obtain ⟨sign, u, _, hsign, hkind, hu, rfl⟩ := Part.readAll_operation hread
      refine ⟨fun _ => ?_, fun _ => ht.under _, nofun, fun _ => (ho hu).under _, trivial⟩
      have hmem := mem_symbols_of_comparison he hscan hadmits hcompares hsign hkind
      exact Tree.operatorOf_operation sign ▸ Token.squeeze_symbol hmem
    · obtain ⟨sign, u, _, -, -, hu, rfl⟩ := Part.readAll_operation hread
      exact ⟨nofun, fun _ => ht.under _, nofun, fun _ => (ho hu).under _, trivial⟩

/-- An expression that does not go on through all operators exposes no membership. -/
theorem expression_sheltered (depth : Nat) (he : extent ≠ .whole)
    (h : expression depth extent s = .ok (t, rest)) : t.Sheltered := by
  induction depth generalizing extent s t rest with
  | zero => cases h
  | succ depth ih =>
    obtain ⟨head, s', tails, hhead, htails, rfl⟩ := exists_of_expression h
    have hoperand : Extent.operand ≠ .whole := by decide
    have ho : ∀ {s t rest}, expression depth .operand s = .ok (t, rest) → Tree.Sheltered t :=
      fun h => ih hoperand h
    exact Parser.many_foldl (fun t _ => Tree.Sheltered t) (fun t _ => Tree.Sheltered t)
      (fun ht hround => ⟨Tail.attach_sheltered ho he ht hround,
        Tail.read_rest_lt (Part.operands_expression depth) hround⟩)
      (fun ht _ => ht) (Primary.read_sheltered ho hhead) htails

end Expressions

/-! ## Loops -/

/-- What is read as a loop begins with the word `for`, its target, the word `in` and its iterable,
and the target exposes no membership. -/
theorem Statement.Reading.exists_header {depth : Nat} {s rest : Input}
    (r : Reading (expression depth) s rest) (hkind : r.kind = .forStatement) :
    ∃ (before after : List Char) (target iterable : Tree) (condition : List Tree),
      r.children = .leaf none .keyword before "for".toList :: target.under (some .target) ::
        .leaf none .keyword after "in".toList :: iterable.under (some .iterable) :: condition ∧
      target.kind.isExpression = true ∧ iterable.kind.isExpression = true ∧ target.Sheltered := by
  have hform := r.form
  rw [hkind] at hform
  obtain ⟨-, hparts⟩ : r.word = "for" ∧ r.parts = [Part.word "for", .operand (some .target) .target,
      Part.word "in", Part.expr .iterable, Part.optional "if" [Part.expr .condition]] := by
    simpa [Statement.bodies, Statement.forms, Statement.endWords, Part.elif, Part.otherwise] using
      hform
  have hread := r.read
  rw [hparts] at hread
  obtain ⟨_, _, _, hfor, hmore, hchildren⟩ := Part.exists_of_readAll_cons hread
  obtain ⟨_, _, _, htarget, hothers, rfl⟩ := Part.exists_of_readAll_cons hmore
  obtain ⟨_, _, _, hin, hlast, rfl⟩ := Part.exists_of_readAll_cons hothers
  obtain ⟨_, _, condition, hiterable, -, rfl⟩ := Part.exists_of_readAll_cons hlast
  obtain ⟨before, rfl⟩ := Part.exists_of_read_word hfor
  obtain ⟨target, hexpr, rfl⟩ := Part.exists_of_read_operand htarget
  obtain ⟨after, rfl⟩ := Part.exists_of_read_word hin
  obtain ⟨iterable, hover, rfl⟩ := Part.exists_of_read_operand hiterable
  exact ⟨before, after, target, iterable, condition, hchildren,
    (expression_formed depth hexpr).1, (expression_formed depth hover).1,
    expression_sheltered depth (by decide) hexpr⟩

/-- Only statements hold loops. -/
theorem Tree.Formed.kind_of_forStatement {t c : Tree} (h : t.Formed) (hc : c ∈ t.children)
    (hkind : c.kind = .forStatement) : t.kind = .statement := by
  have hkinds : ∀ kind ∈ Kind.all, kind ≠ .statement →
      (Shape.ofKind kind).never (fun slot => slot.1 = .forStatement) = true := by decide +kernel
  by_contra hother
  have hcount := Shape.countP_of_never (hkinds _ (Kind.mem_all _) hother) h.matches_shape
  rw [List.countP_map, List.countP_eq_zero] at hcount
  exact hcount c hc (by simp [Tree.slot, hkind])

namespace Template

/-- A loop of a template is seen as its target, its iterable and perhaps a condition. The target
exposes no membership, and right behind it comes the word `in`. -/
theorem header_of_forStatement (options : Options) (source : Input) {n : Node}
    (hn : n ∈ (parse options source).tree.root.descendants) (hkind : n.kind = .forStatement) :
    ∃ target iterable condition first word more,
      n.view? = some (.forStatement (some target) (some iterable) condition) ∧
        (∀ m ∈ target.exposed, ¬m.IsMembership) ∧
        n.children = first :: target :: word :: more ∧
        word.kind = .keyword ∧ word.text = "in".toList := by
  rcases Node.exists_parent hn with rfl | ⟨p, hp, hchild⟩
  · cases hkind
  -- The loop is the body of a statement.
  have hstatement : p.kind = .statement := by
    obtain ⟨u, _, _, _, rfl, -, hevery⟩ := Tree.mem_descendants_place hp
    have hmem : n.tree ∈ u.children := by
      rw [← Tree.placeAll_tree _ _ u.children, ← Tree.place_children]
      exact List.mem_map_of_mem hchild
    rw [Node.kind_place]
    exact (hevery _ (parse_formed options source)).here.kind_of_forStatement hmem hkind
  obtain ⟨depth, number, before, rest, s, r, -, rfl⟩ :=
    exists_reading options source hp hstatement
  rw [Tree.place_children] at hchild
  obtain ⟨t, ht, i, pos, rfl⟩ := Tree.mem_placeAll hchild
  rw [Node.kind_place] at hkind
  obtain rfl : t = r.body := by
    have hother : ∀ u ∈ EndTag.opening r.leading ++ EndTag.closing r.after r.trailing,
        u.kind ≠ .forStatement := by
      rcases r.leading <;> rcases r.trailing <;> simp [EndTag.opening, EndTag.closing, Tree.kind]
    rcases List.mem_cons.1 ht with rfl | ht
    · cases hkind
    · rcases List.mem_append.1 ht with ht | ht
      · exact absurd hkind (hother t (List.mem_append_left _ ht))
      · rcases List.mem_cons.1 ht with rfl | ht
        · rfl
        · exact absurd hkind (hother t (List.mem_append_right _ ht))
  obtain ⟨before, after, target, iterable, condition, hchildren, htarget, hiterable, hsheltered⟩ :=
    r.exists_header hkind
  obtain ⟨a, b, c, d, e, f, more, hplaced⟩ : ∃ a b c d e f more, (r.body.place i pos).children =
      (Tree.leaf none .keyword before "for".toList).place i pos ::
        (target.under (some .target)).place a b ::
        (Tree.leaf none .keyword after "in".toList).place c d ::
        (iterable.under (some .iterable)).place e f :: more := by
    rw [Tree.place_children, Statement.Reading.body, Tree.children, hchildren]
    simp only [Tree.placeAll_cons]
    exact ⟨_, _, _, _, _, _, _, rfl⟩
  refine ⟨(target.under (some .target)).place a b, (iterable.under (some .iterable)).place e f,
    (r.body.place i pos).expr? .condition, _, _, _, ?_,
    (Tree.sheltered_iff _ _ _).1 (hsheltered.under (some .target)), hplaced, rfl, ?_⟩
  · have hword : ∀ gap text, (Tree.leaf none .keyword gap text).field = none := fun _ _ => rfl
    rw [Node.view?, Node.kind_place, hkind]
    simp [Node.expr?, Node.child?, hplaced, htarget, hiterable, hword]
  · simp [Node.text, Tree.text, Tree.source, Tree.gap]

end Template

end Stencil
