import Mathlib.Data.List.Forall2
import Stencil.Proofs.Locality
import Stencil.Proofs.Similar
import Stencil.Tree.SExpr

/-!
# Respaced trees

A tree is respaced (`Tree.Respaced`) if other blanks stand before its tokens, where some stood, and
between the words `not in`. What a respaced tree holds is similar to what the tree holds, and a
parser that reads the one where the other stood reads it as it is (`Parser.Respaces`): the answer is
the respaced tree, and what is left is what follows it. For the parts of a production it is enough
that what follows is alike up to the end of the value or the statement (`Part.readAll_respaces`),
and so it is for expressions of every depth (`expression_respaces`).
-/

namespace Stencil

/-- Whether blanks may stand where others stood: there are some only where there were some. -/
def RespacedGap (gap gap' : List Char) : Prop :=
  (∀ c ∈ gap', isBlank c = true) ∧ (gap' = [] ↔ gap = [])

/-- Whether the text of a leaf may stand where another stood: it is the same, or both are the
operator `not in`. -/
def RespacedText (kind : Kind) (text text' : List Char) : Prop :=
  text' = text ∨ kind = .operator ∧ Token.IsNotIn text ∧ Token.IsNotIn text'

/-- Whether a tree is another with other blanks between its tokens. -/
inductive Tree.Respaced : Tree → Tree → Prop
  | leaf {field : Option Field} {kind : Kind} {gap gap' text text' : List Char}
    (hgap : RespacedGap gap gap') (htext : RespacedText kind text text') :
    Respaced (.leaf field kind gap text) (.leaf field kind gap' text')
  | node {field : Option Field} {kind : Kind} {ts ts' : List Tree}
    (h : List.Forall₂ Respaced ts ts') : Respaced (.node field kind ts) (.node field kind ts')

/-! ## Rows -/

section Rows

variable {α : Type} {R : α → α → Prop}

/-- What is related to two rows is two rows. -/
theorem forall₂_append {as bs l : List α} (h : List.Forall₂ R (as ++ bs) l) :
    ∃ as' bs', l = as' ++ bs' ∧ List.Forall₂ R as as' ∧ List.Forall₂ R bs bs' := by
  induction as generalizing l with
  | nil => exact ⟨[], l, rfl, .nil, h⟩
  | cons a as ih =>
    cases h with
    | cons ha h =>
      obtain ⟨as', bs', rfl, has, hbs⟩ := ih h
      exact ⟨_ :: as', bs', rfl, .cons ha has, hbs⟩

/-- What is related to one is one. -/
theorem forall₂_singleton {a : α} {l : List α} (h : List.Forall₂ R [a] l) :
    ∃ b, l = [b] ∧ R a b := by
  cases h with
  | cons hab h =>
    cases h
    exact ⟨_, rfl, hab⟩

/-- What is related to rows in a row is rows in a row. -/
theorem forall₂_flatten {rounds : List (List α)} {l : List α}
    (h : List.Forall₂ R rounds.flatten l) :
    ∃ rounds', List.Forall₂ (List.Forall₂ R) rounds rounds' ∧ l = rounds'.flatten := by
  induction rounds generalizing l with
  | nil =>
    cases h
    exact ⟨[], .nil, rfl⟩
  | cons round rounds ih =>
    obtain ⟨round', others, rfl, hround, h⟩ := forall₂_append h
    obtain ⟨rounds', hrounds, rfl⟩ := ih h
    exact ⟨round' :: rounds', .cons hround hrounds, rfl⟩

end Rows

namespace Tree.Respaced

variable {t t' : Tree}

/-- A respaced tree is of the same kind. -/
theorem kind (h : t.Respaced t') : t'.kind = t.kind := by
  cases h <;> rfl

/-- A respaced tree is held under the same field. -/
theorem field (h : t.Respaced t') : t'.field = t.field := by
  cases h <;> rfl

/-- A respaced tree may be held under any field. -/
theorem of_under {f : Option Field} {u : Tree} (h : (t.under f).Respaced u) :
    ∃ t', t.Respaced t' ∧ u = t'.under f := by
  cases t with
  | leaf g kind gap text =>
    cases h with
    | leaf hgap htext => exact ⟨.leaf g kind _ _, .leaf hgap htext, rfl⟩
  | node g kind ts =>
    cases h with
    | node h => exact ⟨.node g kind _, .node h, rfl⟩

/-- What a call statement makes of an expression is respaced as the expression is. -/
theorem of_splitCall {us : List Tree} (h : List.Forall₂ Respaced (Part.splitCall t) us) :
    ∃ t', t.Respaced t' ∧ us = Part.splitCall t' := by
  by_cases hcall : ∃ f function arguments, t = .node f .call [function, arguments]
  · obtain ⟨f, function, arguments, rfl⟩ := hcall
    obtain ⟨u, us, hfunction, hmore, rfl⟩ := List.forall₂_cons_left_iff.1 h
    obtain ⟨v, rfl, harguments⟩ := forall₂_singleton hmore
    obtain ⟨function', hfunction', rfl⟩ := of_under hfunction
    obtain ⟨arguments', harguments', rfl⟩ := of_under harguments
    exact ⟨.node f .call [function', arguments'], .node (.cons hfunction' (.cons harguments' .nil)),
      rfl⟩
  · have whole : ∀ {t : Tree}, (¬∃ f function arguments, t = .node f .call [function, arguments]) →
        Part.splitCall t = [t.under (some .macroExpr)] := by
      intro t ht
      unfold Part.splitCall
      split
      · exact absurd ⟨_, _, _, rfl⟩ ht
      · rfl
    rw [whole hcall] at h
    obtain ⟨u, rfl, hu⟩ := forall₂_singleton h
    obtain ⟨t', ht, rfl⟩ := of_under hu
    refine ⟨t', ht, (whole ?_).symm⟩
    -- What is respaced as a call is a call.
    rintro ⟨f, function, arguments, rfl⟩
    cases ht with
    | node ht =>
      obtain ⟨a, as, -, hmore, rfl⟩ := List.forall₂_cons_right_iff.1 ht
      obtain ⟨b, bs, -, hnone, rfl⟩ := List.forall₂_cons_right_iff.1 hmore
      obtain rfl := List.forall₂_nil_right_iff.1 hnone
      exact hcall ⟨f, a, b, rfl⟩

end Tree.Respaced

/-- A leaf without blanks before it is respaced as itself, if it is no operator. -/
theorem Tree.Respaced.eq_of_leaf {f : Option Field} {kind : Kind} {text : List Char} {u : Tree}
    (h : (Tree.leaf f kind [] text).Respaced u) (hkind : kind ≠ .operator) :
    u = .leaf f kind [] text := by
  cases h with
  | leaf hgap htext =>
    rw [hgap.2.2 rfl, htext.resolve_right fun hwords => hkind hwords.1]

/-- Leaves without blanks before them are respaced as themselves, if they are no operators. -/
theorem Tree.Respaced.eq_of_leaves {ts us : List Tree} (h : List.Forall₂ Respaced ts us)
    (hts : ∀ t ∈ ts, ∃ f kind text, t = .leaf f kind [] text ∧ kind ≠ .operator) : us = ts := by
  induction h with
  | nil => rfl
  | cons ht _ ih =>
    obtain ⟨hfirst, hmore⟩ := List.forall_mem_cons.1 hts
    obtain ⟨f, kind, text, rfl, hkind⟩ := hfirst
    rw [ht.eq_of_leaf hkind, ih hmore]

mutual

/-- A respaced tree is written as the tree is. -/
theorem Tree.Respaced.sexp_eq : ∀ {t t' : Tree}, t.Respaced t' → t'.sexp = t.sexp
  | .leaf .., _, .leaf _ _ => rfl
  | .node f kind ts, _, .node h => by rw [Tree.sexp, Tree.sexp, sexps_eq h]

/-- Respaced trees are written as the trees are. -/
theorem Tree.Respaced.sexps_eq : ∀ {ts ts' : List Tree}, List.Forall₂ Tree.Respaced ts ts' →
    Tree.sexps ts' = Tree.sexps ts
  | [], _, .nil => rfl
  | t :: ts, _, .cons ht hts => by
    rw [Tree.sexps, Tree.sexps, ht.kind, ht.field, sexp_eq ht, sexps_eq hts]

end

/-! ## Leaves -/

mutual

/-- The leaves of a tree, in order. -/
def Tree.leaves : Tree → List Tree
  | leaf f kind gap text => [leaf f kind gap text]
  | node _ _ ts => leavesOfAll ts

/-- The leaves of some trees in a row, in order. -/
def Tree.leavesOfAll : List Tree → List Tree
  | [] => []
  | t :: ts => t.leaves ++ leavesOfAll ts

end

mutual

/-- A tree holds the characters of its leaves. -/
theorem Tree.sources_leaves : ∀ t : Tree, sources t.leaves = t.source
  | leaf _ _ _ _ => List.append_nil _
  | node _ _ ts => sources_leavesOfAll ts

/-- Trees in a row hold the characters of their leaves. -/
theorem Tree.sources_leavesOfAll : ∀ ts : List Tree, sources (leavesOfAll ts) = sources ts
  | [] => rfl
  | t :: ts => by rw [leavesOfAll, sources_append, sources_leaves, sources_leavesOfAll, sources]

end

mutual

/-- Where the leaves of a tree are respaced, the tree is. -/
theorem Tree.exists_respaced : ∀ {t : Tree} {leaves : List Tree},
    List.Forall₂ Respaced t.leaves leaves → ∃ t', t.Respaced t' ∧ t'.leaves = leaves
  | leaf _ _ _ _, _, h => by
    obtain ⟨t', rfl, ht⟩ := forall₂_singleton h
    refine ⟨t', ht, ?_⟩
    cases ht
    rfl
  | node f kind ts, _, h => by
    obtain ⟨ts', hts, rfl⟩ := exists_respaced_of_all h
    exact ⟨.node f kind ts', .node hts, rfl⟩

/-- Where the leaves of trees in a row are respaced, the trees are. -/
theorem Tree.exists_respaced_of_all : ∀ {ts leaves : List Tree},
    List.Forall₂ Respaced (leavesOfAll ts) leaves →
      ∃ ts', List.Forall₂ Respaced ts ts' ∧ leavesOfAll ts' = leaves
  | [], _, h => by
    cases h
    exact ⟨[], .nil, rfl⟩
  | t :: ts, _, h => by
    obtain ⟨_, _, rfl, hfirst, hmore⟩ := forall₂_append h
    obtain ⟨t', ht, rfl⟩ := exists_respaced hfirst
    obtain ⟨ts', hts, rfl⟩ := exists_respaced_of_all hmore
    exact ⟨t' :: ts', .cons ht hts, rfl⟩

end

/-! ## Layouts -/

/-- What is said of the answers of a parser: the characters that one holds, and which answers it may
be respaced to. -/
structure Layout (α : Type) where
  text : α → List Char
  Respaced : α → α → Prop

namespace Layout

variable {α β : Type}

/-- One tree. -/
def tree : Layout Tree := ⟨Tree.source, Tree.Respaced⟩

/-- Trees in a row. -/
def row : Layout (List Tree) := ⟨Tree.sources, List.Forall₂ Tree.Respaced⟩

/-- What extends an expression: its kind and the field that it puts the expression under stay. -/
def tail : Layout (Tail Tree) :=
  ⟨fun tail => Tree.sources tail.more, fun tail tail' => tail'.kind = tail.kind ∧
    tail'.slot = tail.slot ∧ List.Forall₂ Tree.Respaced tail.more tail'.more⟩

/-- An answer or none. -/
def option (l : Layout α) : Layout (Option α) :=
  ⟨fun a => a.elim [] l.text, Option.Rel l.Respaced⟩

/-- Answers in a row. -/
def list (l : Layout α) : Layout (List α) :=
  ⟨fun as => as.flatMap l.text, List.Forall₂ l.Respaced⟩

/-- Whether what is made of an answer holds its characters, and is respaced as it is. -/
structure Keeps (l : Layout α) (m : Layout β) (f : α → β) : Prop where
  text : ∀ a, m.text (f a) = l.text a
  respaced : ∀ ⦃a b⦄, m.Respaced (f a) b → ∃ a', l.Respaced a a' ∧ b = f a'

/-- A tree in a row of its own. -/
theorem keeps_singleton : Keeps tree row fun t => [t] where
  text t := by simp [tree, row, Tree.sources]
  respaced t us h := by
    obtain ⟨t', rfl, ht⟩ := forall₂_singleton h
    exact ⟨t', ht, rfl⟩

/-- A tree under another field. -/
theorem keeps_under (f : Option Field) : Keeps tree row fun t => [t.under f] where
  text t := by simp [tree, row, Tree.sources]
  respaced t us h := by
    obtain ⟨u, rfl, hu⟩ := forall₂_singleton h
    obtain ⟨t', ht, rfl⟩ := hu.of_under
    exact ⟨t', ht, rfl⟩

/-- What a call statement makes of an expression. -/
theorem keeps_splitCall : Keeps tree row Part.splitCall where
  text t := Part.sources_splitCall t
  respaced _ _ h := Tree.Respaced.of_splitCall h

/-- A node that has the trees of a row as children. -/
theorem keeps_node (f : Option Field) (kind : Kind) : Keeps row tree (.node f kind) where
  text _ := rfl
  respaced ts u h := by
    cases h with
    | node h => exact ⟨_, h, rfl⟩

/-- What is made of what is made of an answer. -/
theorem Keeps.comp {γ : Type} {l : Layout α} {m : Layout β} {n : Layout γ} {f : α → β} {g : β → γ}
    (hg : Keeps m n g) (hf : Keeps l m f) : Keeps l n fun a => g (f a) where
  text a := (hg.text _).trans (hf.text a)
  respaced a c h := by
    obtain ⟨b, hb, rfl⟩ := hg.respaced h
    obtain ⟨a', ha, rfl⟩ := hf.respaced hb
    exact ⟨a', ha, rfl⟩

/-- The rows of some rounds in one row. -/
theorem keeps_flatten : Keeps row.list row List.flatten where
  text := Part.sources_flatten
  respaced _ _ h := forall₂_flatten h

/-- An answer that there is. -/
theorem keeps_some (l : Layout α) : Keeps l l.option some where
  text _ := rfl
  respaced a b h := by
    cases h with
    | some h => exact ⟨_, h, rfl⟩

/-- A tail that is made of the trees of a row. -/
theorem keeps_tail (kind : Kind) (slot : Field) :
    Keeps row tail fun more => ⟨kind, slot, more⟩ where
  text _ := rfl
  respaced more tail' h := by
    obtain ⟨kind', slot', more'⟩ := tail'
    obtain ⟨rfl, rfl, h⟩ := h
    exact ⟨more', h, rfl⟩

/-- An expression that tails extend. -/
theorem of_foldl_attach {tails : List (Tail Tree)} {head u : Tree}
    (h : (tails.foldl Tail.attach head).Respaced u) :
    ∃ head' tails', head.Respaced head' ∧ tail.list.Respaced tails tails' ∧
      u = tails'.foldl Tail.attach head' := by
  induction tails generalizing head with
  | nil => exact ⟨u, [], h, .nil, rfl⟩
  | cons first tails ih =>
    obtain ⟨attached, tails', hattached, htails, rfl⟩ := ih h
    unfold Tail.attach at hattached
    cases hattached with
    | node hattached =>
      obtain ⟨held, more, hheld, hmore, rfl⟩ := List.forall₂_cons_left_iff.1 hattached
      obtain ⟨head', hhead, rfl⟩ := hheld.of_under
      exact ⟨head', ⟨first.kind, first.slot, more⟩ :: tails', hhead, .cons ⟨rfl, rfl, hmore⟩ htails,
        rfl⟩

end Layout

end Stencil
