import Stencil.Proofs.Yields
import Stencil.Grammar.Markup

/-!
# Which children nodes have

The kinds of the children of a node, and the fields under which the node holds them, are those of a
production of its kind. `Part.Fits` says which rows of children a production allows: it looks at the
kind and the field of each child and no deeper. The productions are collected from the grammar
(`Grammar.productions`), and `Part.every_formed` shows that every node in what a production yields
has the children of one of them.
-/

namespace Stencil

/-- The kinds of the trees that are tokens. -/
def Kind.isToken : Kind → Bool
  | text | commentContent | tagName | attributeName | string | bool | integer | float | identifier
  | error | delimiter | trimMarker | keyword | punctuation | operator => true
  | _ => false

/-- A tree of a kind that is held under a field. -/
structure Tree.Has (t : Tree) (kind : Kind) (field : Option Field) : Prop where
  kind : t.kind = kind
  field : t.field = field

/-- An expression that is held under a field. -/
structure Tree.HasExpression (t : Tree) (field : Option Field) : Prop where
  isExpression : t.kind.isExpression = true
  field : t.field = field

namespace Part

/-! ## Rows of children -/

mutual

/-- The rows of trees that a part allows, by their kinds and fields. -/
def Fits : Part → List Tree → Prop
  | token t, ts => ∃ leaf, leaf.Has t.kind t.field ∧ ts = [leaf]
  | .operand field _, ts => ∃ t, t.HasExpression field ∧ ts = [t]
  | callee, ts =>
    (∃ t, t.HasExpression (some .macroExpr) ∧ ts = [t]) ∨
      ∃ t params, t.HasExpression (some .macroExpr) ∧
        params.Has .argumentList (some .params) ∧ ts = [t, params]
  | node field kind _, ts | enclosed field kind _ _, ts => ∃ t, t.Has kind field ∧ ts = [t]
  | choice _ yes no, ts => FitsAll yes ts ∨ FitsAll no ts
  | repeated _ parts, ts => ∃ rounds : List (List Tree),
      (∀ round ∈ rounds, FitsAll parts round) ∧ ts = rounds.flatten
  | refuse _, _ => False

/-- The rows of trees that a production allows, by their kinds and fields. -/
def FitsAll : List Part → List Tree → Prop
  | [], ts => ts = []
  | p :: ps, ts => ∃ first more, Fits p first ∧ FitsAll ps more ∧ ts = first ++ more

end

/-! ## The productions of the grammar -/

mutual

/-- The productions of the nodes that a part makes, each with the kind of the node. -/
def productions : Part → List (Kind × List Part)
  | node _ kind parts => (kind, parts) :: productionsOf parts
  | enclosed _ kind opening parts => (kind, token opening :: parts) :: productionsOf parts
  | choice _ yes no => productionsOf yes ++ productionsOf no
  | repeated _ parts => productionsOf parts
  | token _ | .operand _ _ | callee | refuse _ => []

/-- The productions of the nodes that some parts make. -/
def productionsOf : List Part → List (Kind × List Part)
  | [] => []
  | p :: ps => p.productions ++ productionsOf ps

end

mutual

/-- Whether every token of a part is of a kind that tokens have. -/
def hasTokens : Part → Bool
  | token t => t.kind.isToken
  | .operand _ _ | callee | refuse _ => true
  | node _ _ parts => haveTokens parts
  | enclosed _ _ opening parts => opening.kind.isToken && haveTokens parts
  | choice _ yes no => haveTokens yes && haveTokens no
  | repeated _ parts => haveTokens parts

/-- Whether every token of some parts is of a kind that tokens have. -/
def haveTokens : List Part → Bool
  | [] => true
  | p :: ps => p.hasTokens && haveTokens ps

end

end Part

namespace Grammar

/-- The node that a tail makes. -/
def extension (tail : Tail Part) : Part :=
  .node none tail.kind (.operand (some tail.slot) .whole :: tail.more)

/-- The node that an operator and its operand make. -/
def unary : Part :=
  .node none .unaryOperation
    [.token ⟨some .operator, .operator, .operand, .kind .minus, "expression"⟩,
      .operand (some .operand) .operand]

/-- A comment. -/
def comment : Part :=
  .node none .comment
    [.token ⟨some .openDelimiter, .delimiter, .text, .kind .commentOpen, ""⟩,
      .choice (.next .comment (.kind .commentContent))
        [.token ⟨some .content, .commentContent, .comment, .kind .commentContent, ""⟩] [],
      .token ⟨some .closeDelimiter, .delimiter, .comment, .kind .commentClose, ""⟩]

/-- What nodes are made of. Which token an operator is makes no difference to the kinds and fields
of the children, nor does the mode in which the opening token of a value is read. -/
def roots : List Part :=
  [Part.value none .text "`\x7b\x7b`", Part.statement, Markup.attributePart, comment,
    .node none .list Part.list, .node none .dict Part.dict, unary,
    extension .call, extension .property, extension .subscript,
    extension (.binary .comparison .atEnd), extension (.binary .binaryOperation .atEnd)]

/-- The productions of the grammar, each with the kind of the node that it makes. -/
def productions : List (Kind × List Part) := Part.productionsOf roots

end Grammar

/-- The productions of the nodes of a kind. Templates and elements have none: items are no parts. -/
def Kind.productions (kind : Kind) : List (List Part) :=
  Grammar.productions.filterMap fun (k, parts) => if k = kind then some parts else none

/-- A call is a function and its arguments. -/
theorem Kind.productions_call :
    call.productions = [[.operand (some .function) .whole, .arguments .arguments]] := rfl

/-! ## Schema -/

/-- A tree that stands in a row of items. -/
structure Tree.HasItem (t : Tree) : Prop where
  isItem : t.kind.isItem = true
  field : t.field = none

/-- The rows of children that a node of a kind may have. A template is items, and an element is an
opening tag, items and a closing tag, or only a tag. -/
inductive Schema : Kind → List Tree → Prop
  | production {kind : Kind} {parts : List Part} {ts : List Tree}
    (h : parts ∈ kind.productions) (hts : Part.FitsAll parts ts) : Schema kind ts
  | sourceFile {items : List Tree} (h : ∀ t ∈ items, t.HasItem) : Schema .sourceFile items
  | selfClosing {tag : List Tree}
    (h : Part.FitsAll (.token Markup.opener :: (Markup.header ++ Markup.headerEnd)) tag) :
    Schema .element tag
  | element {tag items closing : List Tree}
    (htag : Part.FitsAll (.token Markup.opener :: (Markup.header ++ Markup.headerEnd)) tag)
    (hitems : ∀ t ∈ items, t.HasItem) (hclosing : Part.FitsAll Markup.footer closing) :
    Schema .element (tag ++ items ++ closing)

/-- What holds of the children of a tree: those of a token are none, and those of another tree are a
row that the schema allows. -/
def Tree.Formed : Tree → Prop
  | leaf _ kind _ _ => kind.isToken = true
  | node _ kind ts => Schema kind ts

/-- The field of a tree says nothing about its children. -/
theorem Tree.Formed.under {t : Tree} {f : Option Field} (h : t.Formed) : (t.under f).Formed := by
  cases t <;> exact h

/-- What a production of the grammar allows is a row of the schema. -/
theorem Schema.of_mem {kind : Kind} {parts : List Part} {ts : List Tree}
    (h : (kind, parts) ∈ Grammar.productions) (hts : Part.FitsAll parts ts) : Schema kind ts :=
  .production (List.mem_filterMap.2 ⟨_, h, if_pos rfl⟩) hts

/-- A call has two children: an expression and its arguments. -/
theorem Schema.call_children {ts : List Tree} (h : Schema .call ts) :
    ∃ function arguments, function.HasExpression (some .function) ∧
      arguments.Has .argumentList (some .arguments) ∧ ts = [function, arguments] := by
  cases h with
  | production h hts =>
    rw [Kind.productions_call, List.mem_singleton] at h
    subst h
    obtain ⟨_, _, ⟨function, hfunction, rfl⟩, hmore, rfl⟩ := hts
    obtain ⟨_, _, ⟨arguments, harguments, rfl⟩, rfl, rfl⟩ := hmore
    exact ⟨function, arguments, hfunction, harguments, rfl⟩

/-- Rows that two halves of a production allow make a row that it allows. -/
theorem Part.fitsAll_append {ps qs : List Part} {as bs : List Tree} (hp : FitsAll ps as)
    (hq : FitsAll qs bs) : FitsAll (ps ++ qs) (as ++ bs) := by
  induction ps generalizing as with
  | nil =>
    obtain rfl : as = [] := hp
    exact hq
  | cons p ps ih =>
    obtain ⟨first, more, hfirst, hmore, rfl⟩ := hp
    exact ⟨first, more ++ bs, hfirst, ih hmore, List.append_assoc _ _ _⟩

/-- A comment has its delimiters as children, and perhaps its content between them. -/
theorem Schema.comment_children (opener closer : Token) {content : List Tree}
    (h : content = [] ∨ ∃ t : Token, content = [t.leaf (some .content) .commentContent]) :
    Schema .comment (opener.leaf (some .openDelimiter) .delimiter :: content ++
      [closer.leaf (some .closeDelimiter) .delimiter]) := by
  refine .production List.mem_cons_self ⟨_, _, ⟨_, ⟨rfl, rfl⟩, rfl⟩,
    ⟨_, _, ?_, ⟨_, _, ⟨_, ⟨rfl, rfl⟩, rfl⟩, rfl, rfl⟩, rfl⟩, rfl⟩
  rcases h with rfl | ⟨t, rfl⟩
  · exact .inr rfl
  · exact .inl ⟨_, _, ⟨_, ⟨rfl, rfl⟩, rfl⟩, rfl, rfl⟩

/-! ## What productions yield -/

namespace Part

/-- Whether the nodes that some parts make have the children of the schema. -/
def Covered (ps : List (Kind × List Part)) : Prop :=
  ∀ p ∈ ps, ∀ ts, FitsAll p.2 ts → Schema p.1 ts

/-- Where no node is made there is nothing to cover. -/
theorem covered_nil : Covered [] := nofun

/-- What productions of two rows cover is what those of each row do. -/
theorem covered_append {ps qs : List (Kind × List Part)} :
    Covered (ps ++ qs) ↔ Covered ps ∧ Covered qs := by
  simp [Covered, or_imp, forall_and]

/-- The grammar covers the nodes of its parts. -/
theorem covered_of_mem {p : Part} (h : p ∈ Grammar.roots) : Covered p.productions := by
  have hsubset : ∀ {ps : List Part}, p ∈ ps → ∀ x ∈ p.productions, x ∈ productionsOf ps := by
    intro ps hp x hx
    induction ps with
    | nil => cases hp
    | cons q qs ih =>
      rcases List.mem_cons.1 hp with rfl | hp
      · exact List.mem_append_left _ hx
      · exact List.mem_append_right _ (ih hp)
  exact fun x hx ts hts => .of_mem (hsubset h x hx) hts

/-- The tokens of the grammar are of kinds that tokens have. -/
theorem hasTokens_of_mem {p : Part} (h : p ∈ Grammar.roots) : p.hasTokens = true := by
  have hroots : ∀ p ∈ Grammar.roots, p.hasTokens = true := by decide
  exact hroots p h

variable {E : Extent → Tree → Prop}

/-- The trees of a call statement's callee are formed and fit, if the expression is formed. -/
theorem splitCall_formed {t : Tree} (hkind : t.kind.isExpression = true)
    (h : t.Every Tree.Formed) :
    callee.Fits (splitCall t) ∧ Tree.EveryOf Tree.Formed (splitCall t) := by
  unfold splitCall
  split
  · -- A call is taken apart.
    obtain ⟨hschema, hfunction, harguments, -⟩ := h
    obtain ⟨_, _, hfirst, hsecond, heq⟩ := Schema.call_children hschema
    obtain ⟨rfl, hmore⟩ := List.cons_eq_cons.1 heq
    obtain ⟨rfl, -⟩ := List.cons_eq_cons.1 hmore
    refine ⟨.inr ⟨_, _, ⟨?_, Tree.field_under _ _⟩, ⟨?_, Tree.field_under _ _⟩, rfl⟩, ?_⟩
    · rw [Tree.kind_under]
      exact hfirst.isExpression
    · rw [Tree.kind_under]
      exact hsecond.kind
    · exact ⟨hfunction.under Tree.Formed.under _, harguments.under Tree.Formed.under _, trivial⟩
  · refine ⟨.inl ⟨_, ⟨?_, Tree.field_under _ _⟩, rfl⟩, h.under Tree.Formed.under _, trivial⟩
    rw [Tree.kind_under]
    exact hkind

mutual

/-- What a part yields fits it, and every tree in it is formed. -/
theorem every_formed (hE : ∀ {extent t}, E extent t →
      t.kind.isExpression = true ∧ t.Every Tree.Formed) :
    ∀ (p : Part) {ts : List Tree}, p.hasTokens = true → Covered p.productions → p.Yields E ts →
      p.Fits ts ∧ Tree.EveryOf Tree.Formed ts
  | token t, ts, hp, _, ⟨leaf, hleaf, h⟩ => by
    obtain ⟨gap, text, rfl⟩ := hleaf.eq
    subst h
    exact ⟨⟨_, ⟨rfl, rfl⟩, rfl⟩, hp, trivial⟩
  | .operand field _, ts, _, _, ⟨t, ht, h⟩ => by
    subst h
    obtain ⟨hkind, hformed⟩ := hE ht
    have hhas : (t.under field).HasExpression field :=
      ⟨by rw [Tree.kind_under, hkind], Tree.field_under t field⟩
    exact ⟨⟨_, hhas, rfl⟩, hformed.under Tree.Formed.under field, trivial⟩
  | callee, ts, _, _, ⟨t, ht, h⟩ => by
    subst h
    obtain ⟨hkind, hformed⟩ := hE ht
    exact splitCall_formed hkind hformed
  | node _ kind parts, ts, hp, hcovered, ⟨inner, hinner, h⟩ => by
    subst h
    obtain ⟨hhere, hbelow⟩ := List.forall_mem_cons.1 hcovered
    obtain ⟨hfits, hformed⟩ := everyOf_formed hE parts hp hbelow hinner
    exact ⟨⟨_, ⟨rfl, rfl⟩, rfl⟩, ⟨hhere inner hfits, hformed⟩, trivial⟩
  | enclosed _ kind opening parts, ts, hp, hcovered, ⟨first, inner, hfirst, hinner, h⟩ => by
    subst h
    simp only [hasTokens, Bool.and_eq_true] at hp
    obtain ⟨hhere, hbelow⟩ := List.forall_mem_cons.1 hcovered
    obtain ⟨hfits, hformed⟩ := everyOf_formed hE parts hp.2 hbelow hinner
    obtain ⟨gap, text, rfl⟩ := hfirst.eq
    have hrow : FitsAll (token opening :: parts)
        (.leaf opening.field opening.kind gap text :: inner) :=
      ⟨_, inner, ⟨_, ⟨rfl, rfl⟩, rfl⟩, hfits, rfl⟩
    exact ⟨⟨_, ⟨rfl, rfl⟩, rfl⟩, ⟨hhere _ hrow, hp.1, hformed⟩, trivial⟩
  | choice _ yes no, ts, hp, hcovered, h => by
    simp only [hasTokens, Bool.and_eq_true] at hp
    obtain ⟨hyes, hno⟩ := covered_append.1 hcovered
    rcases h with h | h
    · obtain ⟨hfits, hformed⟩ := everyOf_formed hE yes hp.1 hyes h
      exact ⟨.inl hfits, hformed⟩
    · obtain ⟨hfits, hformed⟩ := everyOf_formed hE no hp.2 hno h
      exact ⟨.inr hfits, hformed⟩
  | repeated _ parts, ts, hp, hcovered, ⟨rounds, hrounds, h⟩ => by
    subst h
    have hround := fun round hround =>
      everyOf_formed hE parts hp hcovered (hrounds round hround)
    refine ⟨⟨rounds, fun round hr => (hround round hr).1, rfl⟩, Tree.everyOf_iff.2 fun t ht => ?_⟩
    obtain ⟨round, hr, ht⟩ := List.mem_flatten.1 ht
    exact Tree.everyOf_iff.1 (hround round hr).2 t ht

/-- What a production yields fits it, and every tree in it is formed. -/
theorem everyOf_formed (hE : ∀ {extent t}, E extent t →
      t.kind.isExpression = true ∧ t.Every Tree.Formed) :
    ∀ (ps : List Part) {ts : List Tree}, haveTokens ps = true → Covered (productionsOf ps) →
      YieldsAll E ps ts → FitsAll ps ts ∧ Tree.EveryOf Tree.Formed ts
  | [], ts, _, _, h => by
    obtain rfl : ts = [] := h
    exact ⟨rfl, trivial⟩
  | p :: ps, ts, hp, hcovered, ⟨first, more, hfirst, hmore, h⟩ => by
    subst h
    simp only [haveTokens, Bool.and_eq_true] at hp
    obtain ⟨hcoveredFirst, hcoveredMore⟩ := covered_append.1 hcovered
    obtain ⟨hfitsFirst, hformedFirst⟩ := every_formed hE p hp.1 hcoveredFirst hfirst
    obtain ⟨hfitsMore, hformedMore⟩ := everyOf_formed hE ps hp.2 hcoveredMore hmore
    exact ⟨⟨first, more, hfitsFirst, hfitsMore, rfl⟩,
      Tree.everyOf_append.2 ⟨hformedFirst, hformedMore⟩⟩

end

end Part

/-! ## Expressions -/

/-- An expression in which every tree is formed. -/
def Tree.FormedExpression (t : Tree) : Prop := t.kind.isExpression = true ∧ t.Every Formed

/-- The nodes of one kind are covered by any production that allows the same rows. -/
theorem Part.covered_of_fits {field : Option Field} {kind : Kind} {parts others : List Part}
    (h : Covered (node field kind parts).productions)
    (hfits : ∀ ts, FitsAll others ts → FitsAll parts ts)
    (hbelow : productionsOf others = productionsOf parts) :
    Covered (node field kind others).productions := by
  obtain ⟨hhere, hmore⟩ := List.forall_mem_cons.1 h
  refine List.forall_mem_cons.2 ⟨fun ts hts => hhere ts (hfits ts hts), ?_⟩
  rw [hbelow]
  exact hmore

/-- A token that is a primary is an expression. -/
theorem Primary.kind_of_of? {t : Token} {kind : Kind} (h : of? t = some (.leaf kind)) :
    kind.isExpression = true ∧ kind.isToken = true := by
  unfold of? at h
  repeat' split at h
  all_goals cases h
  all_goals exact ⟨rfl, rfl⟩

/-- A primary that is made of parts is an expression, which the grammar covers. -/
theorem Primary.covered_of_of? {t : Token} {kind : Kind} {parts : List Part}
    (h : of? t = some (.node kind parts)) :
    kind.isExpression = true ∧ Part.haveTokens parts = true ∧
      Part.Covered (Part.node none kind parts).productions := by
  rcases of?_eq_node h with h | h | ⟨h, -⟩
  · cases h
    exact ⟨rfl, by decide, Part.covered_of_mem (by simp [Grammar.roots])⟩
  · cases h
    exact ⟨rfl, by decide, Part.covered_of_mem (by simp [Grammar.roots])⟩
  · cases h
    have hunary : Part.Covered Grammar.unary.productions :=
      Part.covered_of_mem (by simp [Grammar.roots])
    exact ⟨rfl, rfl, Part.covered_of_fits hunary (fun _ h => h) rfl⟩

/-- What a tail makes is an expression, which the grammar covers. -/
theorem Tail.covered_of_of? {t : Token} {tail : Tail Part} (h : of? t = some tail) :
    tail.kind.isExpression = true ∧ Part.haveTokens tail.more = true ∧
      Part.Covered (Grammar.extension tail).productions := by
  have hbinary : ∀ kind ∈ [Kind.comparison, .binaryOperation],
      Part.Covered (Grammar.extension (binary kind .atEnd)).productions := by
    simp only [List.mem_cons, List.not_mem_nil, or_false]
    rintro kind (rfl | rfl) <;> exact Part.covered_of_mem (by simp [Grammar.roots])
  rcases of?_eq_some h with ⟨rfl, -⟩ | ⟨rfl, -⟩ | ⟨rfl, -⟩ | ⟨rfl, -⟩ | ⟨rfl, -⟩
  · exact ⟨rfl, by decide, Part.covered_of_mem (by simp [Grammar.roots])⟩
  · exact ⟨rfl, by decide, Part.covered_of_mem (by simp [Grammar.roots])⟩
  · exact ⟨rfl, by decide, Part.covered_of_mem (by simp [Grammar.roots])⟩
  · exact ⟨rfl, rfl, Part.covered_of_fits (hbinary _ (by simp)) (fun _ h => h) rfl⟩
  · exact ⟨rfl, rfl, Part.covered_of_fits (hbinary _ (by simp)) (fun _ h => h) rfl⟩

/-- Every tree in a primary is formed, if those in operands are. -/
theorem Primary.read_formed {operand : Extent → Parser Tree} {s rest : Input} {t : Tree}
    (ho : ∀ {extent s t rest}, operand extent s = .ok (t, rest) → t.FormedExpression)
    (h : Primary.read operand s = .ok (t, rest)) :
    t.FormedExpression := by
  rcases read_yields (E := fun _ t => t.FormedExpression) ho h with
    ⟨next, kind, -, hform, rfl⟩ | ⟨next, kind, parts, hform, hyields⟩
  · exact kind_of_of? hform
  · obtain ⟨hkind, htokens, hcovered⟩ := covered_of_of? hform
    have hformed := (Part.every_formed (fun h => h) (.node none kind parts) htokens hcovered
      hyields).2.1
    obtain ⟨_, -, hnode⟩ := hyields
    obtain rfl := List.singleton_inj.1 hnode
    exact ⟨hkind, hformed⟩

/-- Every tree in an expression that a tail extends is formed, if those in operands are. -/
theorem Tail.attach_formed {operand : Extent → Parser Tree} {extent : Extent} {s rest : Input}
    {tail : Tail Tree} {t : Tree}
    (ho : ∀ {extent s t rest}, operand extent s = .ok (t, rest) → t.FormedExpression)
    (h : Tail.read operand extent s = .ok (some tail, rest)) (ht : t.FormedExpression) :
    (attach t tail).FormedExpression := by
  obtain ⟨next, form, -, -, hof, hkind, hslot, hyields⟩ :=
    read_yields (E := fun _ t => t.FormedExpression) ho h
  obtain ⟨hexpression, htokens, hcovered⟩ := covered_of_of? hof
  -- The expression is the first child of what its tail makes.
  have hnode : (Grammar.extension form).Yields (fun _ t => t.FormedExpression)
      [attach t tail] := by
    rw [attach, hkind, hslot]
    exact ⟨_, ⟨_, _, ⟨t, ht, rfl⟩, hyields, rfl⟩, rfl⟩
  refine ⟨?_, (Part.every_formed (fun h => h) (Grammar.extension form) htokens hcovered hnode).2.1⟩
  rw [← hkind] at hexpression
  exact hexpression

/-- Every tree in an expression is formed. -/
theorem expression_formed (depth : Nat) {extent : Extent} {s rest : Input} {t : Tree}
    (h : expression depth extent s = .ok (t, rest)) : t.FormedExpression :=
  expression_induction Primary.read_formed Tail.attach_formed depth h

end Stencil
