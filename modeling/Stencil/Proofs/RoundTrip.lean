import Stencil.Proofs.Beginnings
import Stencil.Proofs.Items

/-!
# Canonical expressions read back

What is written of a canonical expression, with one space before each token, is read as that
expression. Its leftmost operand is read first, and what extends that is read after it, so the
statement that goes through the induction on the classes (`Tree.Reads`) speaks of what comes after
the expression too: if this is read as further tails, the expression is read with these tails
attached to it. An expression whose last operand stands behind an operator or a sign is read so only
if no property and no subscript of that operand follows.
-/

namespace Stencil

/-! ## Reading on after an expression -/

/-- Whether an expression of a class may be read that goes on through an extent: what stands beside
an operator is read through properties and subscripts only. -/
def Grade.Fits (g : Grade) (extent : Extent) : Prop :=
  extent = .whole ∨ g = .tight ∨ g = .signed

/-- Whether an expression of a class may stand before some input: no property and no subscript may
follow the last operand of one that is not extended by these. -/
def Grade.Precedes (g : Grade) (s : Input) : Prop :=
  g = .tight ∨ g = .called ∨ Stops .operand s

/-- An expression of a class that does not fit beside an operator fits where an expression goes on
through every operator. -/
theorem Grade.Fits.eq_whole {g : Grade} {extent : Extent} (h : g.Fits extent) (ht : g ≠ .tight)
    (hs : g ≠ .signed) : extent = .whole :=
  (h.resolve_right fun h => h.elim ht hs)

/-- What comes after an expression of a class is no property and no subscript, if these would extend
its last operand instead of it. -/
theorem Grade.Precedes.stops {g : Grade} {s : Input} (h : g.Precedes s) (ht : g ≠ .tight)
    (hc : g ≠ .called) : Stops .operand s :=
  (h.resolve_left ht).resolve_left hc

/-- What is written of a tree is read as the tree, and what follows it as its tails. -/
structure Tree.Reads (g : Grade) (t : Tree) : Prop where
  read : ∀ {depth : Nat} {extent : Extent} {x stop : Input} {tails : List (Tail Tree)},
    t.nesting ≤ depth → g.Fits extent → g.Precedes (' ' :: x) →
      Parser.many (Tail.read (expression depth) extent) (' ' :: x) = .ok (tails, stop) →
        expression (depth + 1) extent (t.source ++ ' ' :: x) =
          .ok (tails.foldl Tail.attach t, stop)

namespace Tree

variable {g : Grade} {t : Tree}

/-- What reads as one class reads as another in which as much fits, and before as much. -/
theorem Reads.mono {g' : Grade} (h : t.Reads g) (hfits : ∀ extent, g'.Fits extent → g.Fits extent)
    (hprecedes : ∀ s, g'.Precedes s → g.Precedes s) : t.Reads g' :=
  ⟨fun hdepth hextent hs htails => h.read hdepth (hfits _ hextent) (hprecedes _ hs) htails⟩

/-- Where no tail follows, what is written of a tree is read as the tree. -/
theorem Reads.operand (h : t.Reads g) (extent : Extent) {depth : Nat} {x : Input}
    (hdepth : t.nesting < depth) (hfits : g.Fits extent) (hprecedes : g.Precedes (' ' :: x))
    (hstops : Stops extent (' ' :: x)) :
    expression depth extent (t.source ++ ' ' :: x) = .ok (t, ' ' :: x) := by
  obtain ⟨depth, rfl⟩ : ∃ d, depth = d + 1 := ⟨depth - 1, by omega⟩
  exact h.read (by omega) hfits hprecedes (hstops _)

/-- Where every expression ends, what is written of a tree is read as the tree. -/
theorem Reads.member (h : t.Reads g) {depth : Nat} {x : Input} (hdepth : t.nesting < depth)
    (hends : Ends (' ' :: x)) :
    expression depth .whole (t.source ++ ' ' :: x) = .ok (t, ' ' :: x) :=
  h.operand .whole hdepth (.inl rfl) (.inr (.inr (hends.stops .operand))) (hends.stops .whole)

/-- A tree that is read as a primary is read with its tails. -/
theorem reads_of_primary
    (h : ∀ {depth : Nat} {x : Input}, t.nesting ≤ depth → g.Precedes (' ' :: x) →
      Primary.read (expression depth) (t.source ++ ' ' :: x) = .ok (t, ' ' :: x)) : t.Reads g :=
  ⟨fun hdepth _ hprecedes htails => expression_of_tails (h hdepth hprecedes) htails⟩

/-- A tree that a tail extends is read with the tails after that. -/
theorem Reads.attach {g' : Grade} {tail : Tail Tree} (h : t.Reads g)
    (hfits : ∀ extent, g'.Fits extent → g.Fits extent)
    (hprecedes : ∀ x, g.Precedes (sources tail.more ++ ' ' :: x))
    (hspace : ∃ s, sources tail.more = ' ' :: s)
    (htail : ∀ {depth : Nat} {extent : Extent} {x : Input}, nestings tail.kind tail.more ≤ depth →
      g'.Fits extent → g'.Precedes (' ' :: x) →
        Tail.read (expression depth) extent (sources tail.more ++ ' ' :: x) =
          .ok (some tail, ' ' :: x)) :
    (Tail.attach t tail).Reads g' := by
  refine ⟨fun {depth extent x stop tails} hdepth hextent hx htails => ?_⟩
  obtain ⟨s, hs⟩ := hspace
  have hnesting : t.nesting ≤ depth ∧ nestings tail.kind tail.more ≤ depth := by
    simp only [Tail.attach, nesting, nestings, nesting_under] at hdepth
    omega
  have hround := htail hnesting.2 hextent hx
  have hbefore := hprecedes x
  rw [Tail.source_attach, List.append_assoc]
  rw [hs, List.cons_append] at hround hbefore ⊢
  have hlt : (' ' :: x).length < (' ' :: (s ++ ' ' :: x)).length := by
    simp only [List.length_cons, List.length_append]
    omega
  have hmany := Parser.many_of_some hround hlt htails
  exact h.read hnesting.1 (hfits extent hextent) hbefore hmany

end Tree

/-! ## Primaries -/

/-- A word that is not reserved is a name where an operand may stand. -/
theorem Primary.of?_name {w gap : List Char} {rest : Input}
    (h : ∀ r ∈ reservedWords, w ≠ r.toList) :
    of? ⟨.word, gap, w, rest⟩ = some (.leaf .identifier) := by
  have hne : ∀ r ∈ reservedWords, Token.isWord ⟨.word, gap, w, rest⟩ r = false := by
    intro r hr
    rw [Token.isWord, decide_eq_false (h r hr), Bool.and_false]
  have hnot := hne "not" (by decide)
  have htrue := hne "True" (by decide)
  have hfalse := hne "False" (by decide)
  simp only [of?, hnot, htrue, hfalse]
  rfl

/-- A name is read. -/
theorem IsWord.reads {w : List Char} (hw : IsWord w) (hname : ∀ r ∈ reservedWords, w ≠ r.toList)
    (g : Grade) : (Tree.name none w).Reads g :=
  Tree.reads_of_primary fun _ _ =>
    Primary.read_leaf ((hw.isWhole true).scan_operand _) (Primary.of?_name hname)

/-- A literal is read. -/
theorem IsLiteral.reads {kind : Kind} {text : List Char} (h : IsLiteral kind text) (g : Grade) :
    (Tree.leaf none kind [' '] text).Reads g := by
  refine Tree.reads_of_primary fun _ _ => ?_
  cases h with
  | string h => exact Primary.read_leaf (h.scan_operand _) rfl
  | integer h => exact Primary.read_leaf (h.scan_operand _) rfl
  | float h => exact Primary.read_leaf (h.scan_operand _) rfl
  | bool h =>
    simp only [List.mem_cons, List.not_mem_nil, or_false] at h
    rcases h with rfl | rfl
    · exact Primary.read_leaf (t := ⟨.word, [' '], "True".toList, _⟩) rfl rfl
    · exact Primary.read_leaf (t := ⟨.word, [' '], "False".toList, _⟩) rfl rfl

/-- Members between brackets are read as a primary. -/
theorem Tree.reads_bracketed {b : Bracket} {kind : Kind} {member : List Part} {ts : List Tree}
    (hof : ∀ rest, Primary.of? ⟨b.opener, [' '], [b.first], rest⟩ =
      some (.node kind (Part.bracketed b .operand member)))
    (trailing : Bool) (hts : ∀ t ∈ ts, t.Begins)
    (hread : ∀ {depth : Nat}, nestings kind (bracketed b trailing ts) ≤ depth →
      ReadsMembers (expression depth) member ts) (g : Grade) :
    (node none kind (bracketed b trailing ts)).Reads g := by
  refine reads_of_primary fun {depth x} hdepth _ => ?_
  obtain ⟨y, hy⟩ := sources_separated trailing hts (b.closer :: ' ' :: x)
  have hinput : (node none kind (bracketed b trailing ts)).source ++ ' ' :: x =
      ' ' :: ([b.first] ++ ' ' :: y) := by
    rw [← hy]
    simp [source, sources_bracketed]
  have hparts := Part.read_bracketed b (.inr rfl) trailing hts (hread hdepth) x
  rw [← source.eq_2 none kind, hinput] at hparts
  rw [hinput]
  exact Primary.read_node ((b.isWhole_first true).scan_operand y) (hof _) hparts

/-- A list is read, if its items are. -/
theorem Tree.reads_list (trailing : Bool) {items : List Tree}
    (hitems : ∀ t ∈ items, Canonical .any t) (hread : ∀ t ∈ items, t.Reads .any) (g : Grade) :
    (node none .list (bracketed .square trailing items)).Reads g := by
  refine reads_bracketed (fun _ => rfl) trailing (fun t ht => (hitems t ht).begins) ?_ g
  intro depth hdepth t ht y hends
  have hcanonical := hitems t ht
  have hoperand := hcanonical.isOperandIn .list none rfl
  rw [hcanonical.under_none] at hoperand
  have hlt := nesting_lt_of_mem (mem_bracketed .square trailing ht) hoperand
  have hexpression := (hread t ht).member (Nat.lt_of_lt_of_le hlt hdepth) hends
  have hmember := Part.read_operand none hexpression
  rw [hcanonical.under_none] at hmember
  exact Part.readAll_singleton hmember

/-- The members of a dictionary. -/
def Part.pairMember : List Part :=
  [.node none .pair
    [.operand (some .key) .whole, .token (.mark .colon "`:`"), .operand (some .value) .whole]]

/-- A pair is read as a member of a dictionary, if its key and its value are expressions. -/
theorem Tree.read_pair {key value : Tree} {depth : Nat} (hkey : Canonical .any key)
    (hvalue : Canonical .any value) (hreadKey : key.Reads .any) (hreadValue : value.Reads .any)
    (hdepth : (pair key value).nesting ≤ depth) {y : Input} (hends : Ends (' ' :: y)) :
    Part.readAll (expression depth) Part.pairMember ((pair key value).source ++ ' ' :: y) =
      .ok ([pair key value], ' ' :: y) := by
  obtain ⟨hkeyLt, hvalueLt⟩ := Canonical.nesting_lt_pair hkey hvalue
  obtain ⟨s, hs⟩ := hvalue.source_eq
  have hcolon : Ends (' ' :: ':' :: ' ' :: (s ++ ' ' :: y)) := ends_mark isWhole_colon (by simp) _
  have hfirst := Part.read_operand (some .key)
    (hreadKey.member (Nat.lt_of_lt_of_le hkeyLt hdepth) hcolon)
  have hmark : (Part.token (.mark .colon "`:`")).read (expression depth)
      (' ' :: ':' :: ' ' :: (s ++ ' ' :: y)) = .ok ([mark ':'], ' ' :: (s ++ ' ' :: y)) :=
    Part.read_token (Terminal.read_mark isWhole_colon _ _)
  have hlast := Part.read_operand (some .value)
    (hreadValue.member (Nat.lt_of_lt_of_le hvalueLt hdepth) hends)
  rw [hs, List.cons_append] at hlast
  rw [source_pair, hs, List.append_assoc]
  exact Part.readAll_singleton (Part.read_node
    (Part.readAll_cons hfirst (Part.readAll_cons hmark (Part.readAll_singleton hlast))))

/-- A dictionary is read, if its keys and values are. -/
theorem Tree.reads_dict (trailing : Bool) {pairs : List (Tree × Tree)}
    (hkeys : ∀ p ∈ pairs, Canonical .any p.1) (hvalues : ∀ p ∈ pairs, Canonical .any p.2)
    (hreadKeys : ∀ p ∈ pairs, p.1.Reads .any) (hreadValues : ∀ p ∈ pairs, p.2.Reads .any)
    (g : Grade) :
    (node none .dict (bracketed .curly trailing (pairs.map fun p => pair p.1 p.2))).Reads g := by
  have hbegins := begins_pairs fun p hp => (hkeys p hp).begins
  refine reads_bracketed (fun _ => rfl) trailing hbegins ?_ g
  intro depth hdepth t ht y hends
  have hle := nesting_le_of_mem .dict (mem_bracketed .curly trailing ht)
  obtain ⟨p, hp, rfl⟩ := List.mem_map.1 ht
  exact read_pair (hkeys p hp) (hvalues p hp) (hreadKeys p hp) (hreadValues p hp) (by omega) hends

/-- An operator before its operand is read, if the operand is. -/
theorem Tree.reads_unary {sign : String} (hsign : sign ∈ signs) {t : Tree}
    (h : Canonical .signed t) (ht : t.Reads .signed) : (unary sign t).Reads .signed := by
  refine reads_of_primary fun {depth x} hdepth hprecedes => ?_
  obtain ⟨kind, hwhole, hfirst⟩ := sign_isWhole hsign
  obtain ⟨s, hs⟩ := h.source_eq
  have hscan := (hwhole true).scan_operand (s ++ ' ' :: x)
  have hoperator :=
    Terminal.read_of_scan (t := ⟨some .operator, .operator, .operand, .kind kind, "expression"⟩)
      hscan (if_pos rfl)
  -- Nothing follows that would extend the operand.
  have hstops := hprecedes.stops nofun nofun
  have hoperand := Part.read_operand (some .operand) (ht.operand .operand
    (Nat.lt_of_lt_of_le h.nesting_lt_unary hdepth) (.inr (.inr rfl)) hprecedes hstops)
  rw [hs, List.cons_append] at hoperand
  rw [source_unary, hs, List.cons_append, List.append_assoc]
  exact Primary.read_node hscan (hfirst _).2
    (Part.readAll_cons (Part.read_token hoperator) (Part.readAll_singleton hoperand))

/-! ## Tails -/

/-- A property is read. -/
theorem Tail.read_property {operand : Extent → Parser Tree} {w : List Char} (hw : IsWord w)
    (extent : Extent) (x : Input) :
    read operand extent (Tree.sources (propertyTree w).more ++ ' ' :: x) =
      .ok (some (propertyTree w), ' ' :: x) := by
  have hscan := scan_mark isWhole_dot extent (w ++ ' ' :: x)
  have hadmits : admits extent ⟨.dot, [' '], ['.'], ' ' :: (w ++ ' ' :: x)⟩ = true := by
    cases extent <;> rfl
  have hmark := Terminal.read_mark isWhole_dot "`.`" (w ++ ' ' :: x)
  have hname := Terminal.read_name .property hw x
  rw [sources_propertyTree]
  exact read_some hscan hadmits rfl (Part.readAll_cons (Part.read_token hmark)
    (Part.readAll_singleton (Part.read_token hname)))

/-- A subscript is read, if its index is. -/
theorem Tail.read_subscript {index : Tree} (h : Canonical .any index) (hindex : index.Reads .any)
    {depth : Nat} (hdepth : Tree.nestings .subscript (subscriptTree index).more ≤ depth)
    (extent : Extent) (x : Input) :
    read (expression depth) extent (Tree.sources (subscriptTree index).more ++ ' ' :: x) =
      .ok (some (subscriptTree index), ' ' :: x) := by
  obtain ⟨s, hs⟩ := h.source_eq
  have hopener := Bracket.square.isWhole_first false
  have hscan := scan_mark hopener extent (s ++ ' ' :: ']' :: ' ' :: x)
  have hadmits : admits extent
      ⟨.leftBracket, [' '], ['['], ' ' :: (s ++ ' ' :: ']' :: ' ' :: x)⟩ = true := by
    cases extent <;> rfl
  have hcloser := Bracket.square.isWhole_closer false
  have hexpression := Part.read_operand (some .index)
    (hindex.member (Nat.lt_of_lt_of_le h.nesting_lt_subscriptTree hdepth)
      (ends_mark hcloser (by simp [Bracket.closerKind]) x))
  rw [hs, List.cons_append] at hexpression
  have hfirst := Terminal.read_mark hopener "`[`" (s ++ ' ' :: ']' :: ' ' :: x)
  have hlast := Terminal.read_mark hcloser "`]`" x
  have hparts := Part.readAll_cons (Part.read_token hfirst)
    (Part.readAll_cons hexpression (Part.readAll_singleton (Part.read_token hlast)))
  rw [sources_subscriptTree, hs]
  simp only [List.cons_append, List.append_assoc, List.nil_append]
  exact read_some hscan hadmits rfl hparts

/-- The arguments of a call. -/
def Part.argumentMember : List Part :=
  [.choice .named
    [.node none .keywordArgument
      [.token (.name .key), .token (.mark .assign "`=`"), .operand (some .value) .whole]]
    [.operand none .whole]]

/-- An argument is read as a member of a list, if its value is an expression. -/
theorem Tree.read_argument {w : Option (List Char)} {value : Tree} {depth : Nat}
    (hw : ∀ v ∈ w, IsWord v) (h : Canonical .any value) (hread : value.Reads .any)
    (hdepth : nestings .argumentList [argument w value] ≤ depth) {y : Input}
    (hends : Ends (' ' :: y)) :
    Part.readAll (expression depth) Part.argumentMember ((argument w value).source ++ ' ' :: y) =
      .ok ([argument w value], ' ' :: y) := by
  cases w with
  | none =>
    -- The value does not begin as a named argument does.
    have hlt := nesting_lt_of_mem (List.mem_singleton.2 rfl)
      (h.isOperandIn .argumentList none rfl)
    rw [h.under_none] at hlt
    have hvalue := Part.read_operand none (hread.member (Nat.lt_of_lt_of_le hlt hdepth) hends)
    rw [h.under_none] at hvalue
    have hlook : Look.named.holds (value.source ++ ' ' :: y) =
        .ok (false, value.source ++ ' ' :: y) := by
      rw [Look.holds_named, h.not_atNamed hends.noAssign]
    exact Part.readAll_singleton
      (Part.read_choice_no hlook (Part.readAll_singleton hvalue))
  | some v =>
    -- The name and the sign of assignment are seen before they are read.
    have hv := hw v rfl
    obtain ⟨s, hs⟩ := h.source_eq
    have hle := nesting_le_of_mem (t := argument (some v) value) .argumentList
      (List.mem_singleton.2 rfl)
    have hlt : value.nesting < depth := by
      have hlt := h.nesting_lt_argument (w := v)
      omega
    have hvalue := Part.read_operand (some .value) (hread.member hlt hends)
    have hkey := Terminal.read_name .key hv ('=' :: ' ' :: (s ++ ' ' :: y))
    have hmark := Terminal.read_mark isWhole_assign "`=`" (s ++ ' ' :: y)
    rw [hs, List.cons_append] at hvalue
    have hlook : Look.named.holds (' ' :: (v ++ ' ' :: '=' :: ' ' :: (s ++ ' ' :: y))) =
        .ok (true, ' ' :: (v ++ ' ' :: '=' :: ' ' :: (s ++ ' ' :: y))) := by
      have hword := (hv.isWhole false).scan_code ('=' :: ' ' :: (s ++ ' ' :: y))
      have hsign := isWhole_assign.scan_code (s ++ ' ' :: y)
      rw [List.singleton_append] at hsign
      rw [Look.holds_named, atNamed, hword]
      simp only [hsign]
      rfl
    rw [source_argument_some, hs]
    simp only [List.cons_append, List.append_assoc]
    have hparts := Part.readAll_cons (Part.read_token hkey)
      (Part.readAll_cons (Part.read_token hmark) (Part.readAll_singleton hvalue))
    exact Part.readAll_singleton
      (Part.read_choice_yes hlook (Part.readAll_singleton (Part.read_node hparts)))

/-- Arguments are read, if their values are. -/
theorem Tail.read_call (trailing : Bool) {arguments : List (Option (List Char) × Tree)}
    (hnames : ∀ a ∈ arguments, ∀ w ∈ a.1, IsWord w)
    (h : ∀ a ∈ arguments, Canonical .any a.2) (hread : ∀ a ∈ arguments, a.2.Reads .any)
    {depth : Nat} (x : Input) :
    let tail := callTree trailing (arguments.map fun a => .argument a.1 a.2)
    Tree.nestings .call tail.more ≤ depth →
      read (expression depth) .whole (Tree.sources tail.more ++ ' ' :: x) =
        .ok (some tail, ' ' :: x) := by
  intro tail hdepth
  -- The arguments are a list between brackets, and a node.
  have hbegins := Tree.begins_arguments hnames fun a ha => (h a ha).begins
  have hmembers : ReadsMembers (expression depth) Part.argumentMember
      (arguments.map fun a => Tree.argument a.1 a.2) := by
    intro t ht y hends
    -- The node of the arguments is no operand, and so it takes up no depth.
    have hlist : Tree.nestings .argumentList [t] ≤ Tree.nestings .call tail.more := by
      have hle := Tree.nesting_le_of_mem .argumentList (Tree.mem_bracketed .round trailing ht)
      simp only [tail, callTree, Tree.nestings, Tree.nesting]
      omega
    obtain ⟨a, ha, rfl⟩ := List.mem_map.1 ht
    exact Tree.read_argument (hnames a ha) (h a ha) (hread a ha) (Nat.le_trans hlist hdepth) hends
  have hparts := Part.read_bracketed .round (.inl rfl) trailing hbegins hmembers x
  obtain ⟨y, hy⟩ := Tree.sources_separated trailing hbegins (')' :: ' ' :: x)
  have hinput : Tree.sources tail.more ++ ' ' :: x = ' ' :: '(' :: ' ' :: y := by
    rw [sources_callTree, ← hy]
    simp
  have hsame : Tree.sources tail.more = Tree.sources (Tree.bracketed .round trailing
      (arguments.map fun a => Tree.argument a.1 a.2)) := by
    simp [tail, callTree, Tree.sources, Tree.source]
  have hscan := scan_mark (Bracket.round.isWhole_first false) .whole y
  rw [← hsame, hinput] at hparts
  rw [hinput]
  exact read_some hscan rfl rfl (Part.readAll_singleton (Part.read_node hparts))

/-- What is written between operands is one token where an operator may stand. It begins a tail,
and it extends no operand. -/
theorem scan_operator {kind : Kind} {op : String} (h : (kind, op) ∈ operators) (x : Input) :
    ∃ t : Token, Token.scan .operator (' ' :: (op.toList ++ ' ' :: x)) = .ok t ∧
      t.gap = [' '] ∧ t.text = op.toList ∧ t.rest = ' ' :: x ∧
        Tail.of? t = some (Tail.binary kind t) ∧ Tail.admits .operand t = false := by
  simp only [operators, List.mem_cons, List.not_mem_nil, or_false, Prod.mk.injEq] at h
  rcases h with ⟨rfl, rfl⟩ | ⟨rfl, rfl⟩ | ⟨rfl, rfl⟩ | ⟨rfl, rfl⟩ | ⟨rfl, rfl⟩ | ⟨rfl, rfl⟩ |
    ⟨rfl, rfl⟩ | ⟨rfl, rfl⟩ | ⟨rfl, rfl⟩ | ⟨rfl, rfl⟩ | ⟨rfl, rfl⟩ | ⟨rfl, rfl⟩ | ⟨rfl, rfl⟩ |
    ⟨rfl, rfl⟩ | ⟨rfl, rfl⟩
  all_goals exact ⟨_, rfl, rfl, rfl, rfl, rfl, rfl⟩

/-- An operand ends before an operator. -/
theorem stops_operator {kind : Kind} {op : String} (h : (kind, op) ∈ operators) (x : Input) :
    Stops .operand (' ' :: (op.toList ++ ' ' :: x)) := by
  obtain ⟨t, hscan, -, -, -, -, hadmits⟩ := scan_operator h x
  exact stops_of_scan hscan (if_neg (by simp [hadmits]))

/-- An operator is read, if the operand to its right is. -/
theorem Tail.read_binary {kind : Kind} {op : String} (hop : (kind, op) ∈ operators) {right : Tree}
    (h : Canonical .signed right) (hright : right.Reads .signed) {depth : Nat}
    (hdepth : Tree.nestings kind (binaryTree kind op right).more ≤ depth) {x : Input}
    (hstops : Stops .operand (' ' :: x)) :
    read (expression depth) .whole (Tree.sources (binaryTree kind op right).more ++ ' ' :: x) =
      .ok (some (binaryTree kind op right), ' ' :: x) := by
  obtain ⟨s, hs⟩ := h.source_eq
  obtain ⟨t, hscan, hgap, htext, hrest, hof, -⟩ := scan_operator hop (s ++ ' ' :: x)
  have hoperator :=
    Terminal.read_of_scan (t := ⟨some .operator, .operator, .operator, .kind t.kind, "expression"⟩)
      hscan (if_pos rfl)
  have hoperand := Part.read_operand (some .right) (hright.operand .operand
    (Nat.lt_of_lt_of_le h.nesting_lt_binaryTree hdepth) (.inr (.inr rfl)) (.inr (.inr hstops))
    hstops)
  rw [Token.leaf, hgap, htext, hrest] at hoperator
  rw [hs, List.cons_append] at hoperand
  rw [sources_binaryTree, hs, List.cons_append, List.append_assoc]
  have htail : Token.scan (mode .whole) (' ' :: (op.toList ++ ' ' :: (s ++ ' ' :: x))) = .ok t :=
    hscan
  exact read_some htail rfl hof
    (Part.readAll_cons (Part.read_token hoperator) (Part.readAll_singleton hoperand))

/-! ## Canonical expressions -/

/-- What is written of a canonical expression is read as the expression. -/
theorem Canonical.reads {g : Grade} {t : Tree} (h : Canonical g t) : t.Reads g := by
  induction h with
  | name hw hname => exact hw.reads hname .tight
  | literal h => exact h.reads .tight
  | list trailing h ih => exact Tree.reads_list trailing h ih .tight
  | dict trailing hkeys hvalues ihkeys ihvalues =>
    exact Tree.reads_dict trailing hkeys hvalues ihkeys ihvalues .tight
  | @property g t w hg h hw ih =>
    -- A property extends only what it may follow.
    have hprecedes : ∀ s, g.Precedes s := fun s => hg.imp_right .inl
    exact ih.attach (fun _ hfits => hfits) (fun _ => hprecedes _) ⟨_, Tail.sources_propertyTree w⟩
      fun _ _ _ => Tail.read_property hw _ _
  | @subscript g t index hg h hindex ih ihindex =>
    have hprecedes : ∀ s, g.Precedes s := fun s => hg.imp_right .inl
    exact ih.attach (fun _ hfits => hfits) (fun _ => hprecedes _)
      ⟨_, Tail.sources_subscriptTree index⟩
      fun hdepth _ _ => Tail.read_subscript hindex ihindex hdepth _ _
  | tight _ ih =>
    exact ih.mono (fun _ _ => .inr (.inl rfl)) fun _ _ => .inl rfl
  | unary hsign h ih => exact Tree.reads_unary hsign h ih
  | @call trailing t arguments h hnames harguments ih iharguments =>
    have hbegins := Tree.begins_arguments hnames fun a ha => (harguments a ha).begins
    refine ih.attach (fun _ hfits => .inl (hfits.eq_whole nofun nofun)) (fun x => ?_)
      ⟨_, Tail.sources_callTree trailing _⟩ fun {depth extent x} hdepth hfits _ => ?_
    · -- No operand goes on through arguments.
      obtain ⟨y, hy⟩ := Tree.sources_separated trailing hbegins (')' :: ' ' :: x)
      have hscan := Tail.scan_mark (Bracket.round.isWhole_first false) .operand y
      rw [Tail.sources_callTree, List.cons_append, List.cons_append, List.append_assoc]
      simp only [List.cons_append, List.nil_append, hy]
      exact .inr (.inr (stops_of_scan hscan rfl))
    · obtain rfl := hfits.eq_whole nofun nofun
      exact Tail.read_call trailing hnames harguments iharguments x hdepth
  | signed _ ih =>
    exact ih.mono (fun _ _ => .inr (.inr rfl)) fun _ hs => .inr (.inr (hs.stops nofun nofun))
  | called _ ih =>
    exact ih.mono (fun _ hfits => .inl (hfits.eq_whole nofun nofun)) fun _ _ => .inr (.inl rfl)
  | @binary kind op left right hop hleft hright ih ihright =>
    refine ih.attach (fun _ hfits => hfits) (fun x => ?_) ⟨_, Tail.sources_binaryTree kind op right⟩
      fun {depth extent x} hdepth hfits hprecedes => ?_
    · obtain ⟨s, hs⟩ := hright.source_eq
      rw [Tail.sources_binaryTree, hs, List.cons_append, List.append_assoc]
      exact .inr (.inr (stops_operator hop _))
    · obtain rfl := hfits.eq_whole nofun nofun
      exact Tail.read_binary hop hright ihright hdepth (hprecedes.stops nofun nofun)

/-! ## Values -/

/-- Expressions end before the end of a value. -/
theorem ends_value : Ends [' ', '}', '}'] := by
  constructor
  · intro extent
    cases extent
    all_goals exact stops_of_scan (t := ⟨.valueClose, [' '], ['}', '}'], []⟩) rfl rfl
  · exact noAssign_of_scan (t := ⟨.valueClose, [' '], ['}', '}'], []⟩) rfl nofun

/-- The value of an expression, with one space before what closes it. -/
def Tree.value (t : Tree) : Tree :=
  node none .value
    [leaf (some .openDelimiter) .delimiter [] ['{', '{'], t.under (some .expression),
      leaf (some .closeDelimiter) .delimiter [' '] ['}', '}']]

/-- What is written of the value of a canonical expression is read as the value. -/
theorem Part.read_value {t : Tree} (h : Canonical .any t) {depth : Nat}
    (hdepth : t.nesting < depth) (expected : String) :
    (value none .text expected).read (expression depth) t.value.source = .ok ([t.value], []) := by
  obtain ⟨s, hs⟩ := h.source_eq
  have hinput : t.value.source = '{' :: '{' :: (t.source ++ [' ', '}', '}']) := by
    simp [Tree.value, Tree.source, Tree.sources]
  have hopener : Terminal.read ⟨some .openDelimiter, .delimiter, .text, .kind .valueOpen, expected⟩
      ('{' :: '{' :: (t.source ++ [' ', '}', '}'])) =
        .ok (.leaf (some .openDelimiter) .delimiter [] ['{', '{'], t.source ++ [' ', '}', '}']) :=
    rfl
  have hexpression := read_operand (some .expression) (h.reads.member hdepth ends_value)
  have hcloser := Terminal.read_of_scan
    (t := ⟨some .closeDelimiter, .delimiter, .code, .kind .valueClose, "`\x7d\x7d`"⟩)
    (s := [' ', '}', '}']) rfl rfl
  have hparts := readAll_cons hexpression (readAll_singleton (read_token hcloser))
  rw [hinput]
  exact read_enclosed hopener hparts

namespace Tree

/-- Spaces say nothing about what a tree is. -/
@[simp]
theorem kind_spaced (t : Tree) : t.spaced.kind = t.kind := by
  cases t <;> rfl

/-- Spaces say nothing about the field under which a tree is held. -/
@[simp]
theorem field_spaced (t : Tree) : t.spaced.field = t.field := by
  cases t <;> rfl

mutual

/-- Spaces say nothing about what stands inside each other in a tree. -/
theorem nesting_spaced : (t : Tree) → t.spaced.nesting = t.nesting
  | leaf .. => rfl
  | node _ kind ts => nestings_spacedAll kind ts

/-- Spaces say nothing about what stands inside each other in some trees. -/
theorem nestings_spacedAll (parent : Kind) : (ts : List Tree) →
    nestings parent (spacedAll ts) = nestings parent ts
  | [] => rfl
  | t :: ts => by
    have hsame : t.spaced.isOperandIn parent = t.isOperandIn parent := by
      rw [isOperandIn, isOperandIn, kind_spaced, field_spaced]
    rw [spacedAll, nestings, nestings, nesting_spaced t, nestings_spacedAll parent ts, hsame,
      kind_spaced]

end

/-- What is written of the value of an expression: the texts of its tokens with one space between
them, and around them the delimiters of the value. -/
def written (t : Tree) : Input :=
  "\x7b\x7b ".toList ++ [' '].intercalate t.words ++ " \x7d\x7d".toList

/-- What is written of the value of an expression is the value with one space before each token. -/
theorem written_eq_source {t : Tree} (h : t.words ≠ []) : t.written = t.spaced.value.source := by
  have hspaced : ' ' :: [' '].intercalate t.words = t.spaced.source := by
    rw [source_spaced, flatMap_cons_eq_intercalate h]
  calc t.written
      = ['{', '{'] ++ (' ' :: [' '].intercalate t.words) ++ [' ', '}', '}'] := by simp [written]
    _ = ['{', '{'] ++ t.spaced.source ++ [' ', '}', '}'] := by rw [hspaced]
    _ = t.spaced.value.source := by simp [value, source, sources]

end Tree

/-- An item is read whatever reads the elements. -/
theorem Markup.item_eq_itemOf (recover : Bool) (depth : Nat) :
    ∃ element, item recover depth = itemOf (expression depth) element := by
  cases depth with
  | zero => exact ⟨_, rfl⟩
  | succ depth => exact ⟨_, rfl⟩

namespace Template

/-- A step reads a value. -/
theorem step_value (options : Options) {t : Tree} (h : Canonical .any t)
    (hdepth : t.nesting < options.maxDepth) :
    step options t.value.source = ⟨[t.value], [], []⟩ := by
  obtain ⟨element, hitem⟩ := Markup.item_eq_itemOf options.recover options.maxDepth
  have hkind : (Token.scanText t.value.source).kind = .valueOpen := rfl
  have hread := Part.read_value h hdepth "`\x7b\x7b`"
  rw [step, hitem, Markup.itemOf_eq, hkind, Reply.settle]
  simp only [Reading.quiet, hread]

/-- An expression in its canonical form is read back from what is written of it. Its tokens are
written one space apart, between the delimiters of a value; and there is then no fault, and one
value, whose expression is what was written, if operands may nest as deeply as they do in it. -/
theorem parse_written (options : Options) {t : Tree} (h : Canonical .any t.spaced)
    (hdepth : t.nesting < options.maxDepth) :
    (parse options t.written).errors = [] ∧
      (parse options t.written).tree = .node none .sourceFile
        [.node none .value
          [.leaf (some .openDelimiter) .delimiter [] ['{', '{'],
            t.spaced.under (some .expression),
            .leaf (some .closeDelimiter) .delimiter [' '] ['}', '}']]] := by
  -- A canonical expression has a token.
  have hwords : t.words ≠ [] := by
    intro hnil
    obtain ⟨s, hs⟩ := h.source_eq
    rw [Tree.source_spaced, hnil] at hs
    cases hs
  have hnonempty : t.spaced.value.source ≠ [] := by simp [Tree.value, Tree.source, Tree.sources]
  rw [← Tree.nesting_spaced] at hdepth
  -- One step reads all that there is.
  have hsteps : steps options t.written = [⟨[t.spaced.value], [], []⟩] := by
    calc steps options t.written
        = steps options t.spaced.value.source := by rw [Tree.written_eq_source hwords]
      _ = step options t.spaced.value.source ::
            steps options (step options t.spaced.value.source).rest :=
          steps_eq_cons options hnonempty
      _ = [⟨[t.spaced.value], [], []⟩] := by rw [step_value options h hdepth, steps_nil]
  rw [parse, hsteps]
  exact ⟨arrange_nil, rfl⟩

/-- A sign and a word before an operand reach as far as its subscripts; a call takes all that stands
to its left. -/
theorem parse_written_call :
    let sum : Tree := Tail.attach
      (.unary "not" (Tail.attach (Tail.attach (.name none ['a']) (.propertyTree ['b']))
        (.subscriptTree (.leaf none .integer [' '] ['1']))))
      (.binaryTree .binaryOperation "+" (.unary "-" (.name none ['c'])))
    let arguments : List (Option (List Char) × Tree) :=
      [(some ['x'], .node none .list (Tree.bracketed .square false []))]
    let call : Tree :=
      Tail.attach sum (.callTree false (arguments.map fun a => .argument a.1 a.2))
    let options : Options := ⟨true, 3, by decide⟩
    call.written = "\x7b\x7b not a . b [ 1 ] + - c ( x = [ ] ) \x7d\x7d".toList ∧
      Canonical .any call.spaced ∧ call.nesting < options.maxDepth ∧
        (parse options call.written).errors = [] ∧
          (parse options call.written).tree = .node none .sourceFile [call.value] := by
  intro sum arguments call options
  have hsubscript : Canonical .tight (Tail.attach
      (Tail.attach (.name none ['a']) (.propertyTree ['b']))
        (.subscriptTree (.leaf none .integer [' '] ['1']))) := by
    refine .subscript (.inl rfl) (.property (.inl rfl) (.name ?_ (by decide)) ?_) ?_
    · exact ⟨'a', [], rfl, rfl, nofun⟩
    · exact ⟨'b', [], rfl, rfl, nofun⟩
    · exact .tight (.literal (.integer ⟨by decide, rfl⟩))
  have hsign : Canonical .signed (.unary "-" (.name none ['c'])) :=
    .unary (by decide) (.tight (.name ⟨'c', [], rfl, rfl, nofun⟩ (by decide)))
  have hsum : Canonical .any sum :=
    .binary (by decide) (.signed (.unary (by decide) (.tight hsubscript))) hsign
  have hcall : Canonical .any call := by
    have hnames : ∀ a ∈ arguments, ∀ w ∈ a.1, IsWord w := by
      simp only [arguments, List.mem_singleton, forall_eq, Option.mem_some_iff, forall_eq']
      exact ⟨'x', [], rfl, rfl, nofun⟩
    have hvalues : ∀ a ∈ arguments, Canonical .any a.2 := by
      simp only [arguments, List.mem_singleton, forall_eq]
      exact .tight (.list false nofun)
    exact .called (.call false hsum hnames hvalues)
  have hdepth : call.nesting < options.maxDepth := by decide
  obtain ⟨herrors, htree⟩ := parse_written options (t := call) hcall hdepth
  exact ⟨by decide, hcall, hdepth, herrors, htree⟩

end Template

end Stencil
