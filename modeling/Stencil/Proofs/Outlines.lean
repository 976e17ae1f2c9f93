import Mathlib
import Stencil.Proofs.Nesting
import Stencil.Tree.SExpr

/-!
# Reading written trees back

The written form of a tree says all that it shows: no two nodes of different named structure
(`Node.SameOutline`) are written alike. A label holds no blank, colon or parenthesis, so that it
ends where the first of these stands; what is written of a node can therefore be told from what
stands behind it (`Node.sexp_append_inj`), and with that the kind, the fields and the named children
are read off one after another (`Template.parse_sexp_inj`).
-/

namespace Stencil

/-- Two nodes of the same named structure: they are of one kind, and the one has as many named
children as the other, under the same fields and of the same named structure one by one. -/
inductive Node.SameOutline : Node → Node → Prop
  | intro {n m : Node} (kind : n.kind = m.kind)
      (fields : n.namedChildren.map Node.field = m.namedChildren.map Node.field)
      (children : List.Forall₂ Node.SameOutline n.namedChildren m.namedChildren) :
      Node.SameOutline n m

/-! ## Labels -/

/-- The characters of labels. -/
def isLabelChar (c : Char) : Bool := c.isAlpha || c = '_'

/-- The label of a kind holds letters and underscores only. -/
theorem Kind.isLabelChar_of_mem (k : Kind) : ∀ c ∈ k.label.toList, isLabelChar c = true := by
  cases k <;> exact List.all_eq_true.1 rfl

/-- The label of a field holds letters and underscores only. -/
theorem Field.isLabelChar_of_mem (f : Field) : ∀ c ∈ f.label.toList, isLabelChar c = true := by
  cases f <;> exact List.all_eq_true.1 rfl

/-- No two kinds have one label. -/
theorem Kind.label_injective : Function.Injective Kind.label := fun k k' h =>
  Option.some.inj (by rw [← ofLabel?_label k, h, ofLabel?_label])

/-- No two fields have one label. -/
theorem Field.label_injective : Function.Injective Field.label := fun f f' h =>
  Option.some.inj (by rw [← ofLabel?_label f, h, ofLabel?_label])

/-- A label ends where the first character stands that is none of a label. -/
theorem label_append_inj {as bs x y : List Char} {c d : Char}
    (has : ∀ a ∈ as, isLabelChar a = true) (hbs : ∀ b ∈ bs, isLabelChar b = true)
    (hc : isLabelChar c = false) (hd : isLabelChar d = false) (h : as ++ c :: x = bs ++ d :: y) :
    as = bs ∧ c = d ∧ x = y := by
  have hlabels := congrArg (List.takeWhile isLabelChar) h
  rw [List.takeWhile_append_of_pos has, List.takeWhile_append_of_pos hbs,
    List.takeWhile_cons_of_neg (by simp [hc]), List.takeWhile_cons_of_neg (by simp [hd]),
    List.append_nil, List.append_nil] at hlabels
  subst hlabels
  exact ⟨rfl, List.cons_eq_cons.1 (List.append_cancel_left h)⟩

/-- What is written before a node tells its field. -/
theorem Field.lead_append_inj {f g : Option Field} {x y : List Char}
    (h : (lead f).toList ++ '(' :: x = (lead g).toList ++ '(' :: y) : f = g ∧ x = y := by
  have hnone : ∀ c ∈ ([] : List Char), isLabelChar c = true := List.forall_mem_nil _
  cases f with
  | none =>
    cases g with
    | none => exact ⟨rfl, (List.cons_eq_cons.1 h).2⟩
    | some g =>
      rw [lead, String.toList_append, List.append_assoc] at h
      obtain ⟨-, hc, -⟩ := label_append_inj (c := '(') (d := ':') hnone g.isLabelChar_of_mem rfl
        rfl h
      cases hc
  | some f =>
    rw [lead, String.toList_append, List.append_assoc] at h
    cases g with
    | none =>
      obtain ⟨-, hc, -⟩ := label_append_inj (c := ':') (d := '(') f.isLabelChar_of_mem hnone rfl
        rfl h
      cases hc
    | some g =>
      rw [lead, String.toList_append, List.append_assoc] at h
      obtain ⟨hlabel, -, hrest⟩ := label_append_inj (c := ':') (d := ':') f.isLabelChar_of_mem
        g.isLabelChar_of_mem rfl rfl h
      rw [label_injective (String.toList_inj.1 hlabel)]
      exact ⟨rfl, (List.cons_eq_cons.1 (List.cons_eq_cons.1 hrest).2).2⟩

/-! ## Nodes that are placed -/

namespace Node

/-- A node is a node of a tree that is placed. -/
def IsPlaced (n : Node) : Prop := ∃ t id pos, n = Tree.place id pos t

mutual

/-- What holds of a placed node as soon as it holds of its children holds of the node of every
tree. -/
theorem holds_place {P : Node → Prop}
    (step : ∀ n : Node, n.IsPlaced → (∀ c ∈ n.children, P c) → P n) :
    (t : Tree) → (id pos : Nat) → P (t.place id pos)
  | .leaf f k gap text, id, pos => step _ ⟨.leaf f k gap text, id, pos, rfl⟩ nofun
  | .node f k ts, id, pos => step _ ⟨.node f k ts, id, pos, rfl⟩ (holds_placeAll step ts id pos)

/-- What holds of a placed node as soon as it holds of its children holds of the nodes of all
trees. -/
theorem holds_placeAll {P : Node → Prop}
    (step : ∀ n : Node, n.IsPlaced → (∀ c ∈ n.children, P c) → P n) :
    (ts : List Tree) → (id pos : Nat) → ∀ c ∈ Tree.placeAll id pos ts, P c
  | [], _, _ => nofun
  | t :: ts, id, pos => by
    rw [Tree.placeAll_cons]
    exact List.forall_mem_cons.2 ⟨holds_place step t id pos, holds_placeAll step ts _ _⟩

end

/-- What holds of a placed node as soon as it holds of its children holds of every placed node. -/
theorem IsPlaced.induction {P : Node → Prop} {n : Node} (hn : n.IsPlaced)
    (step : ∀ n : Node, n.IsPlaced → (∀ c ∈ n.children, P c) → P n) : P n := by
  obtain ⟨t, id, pos, rfl⟩ := hn
  exact holds_place step t id pos

/-- The nodes of a template are placed. -/
theorem isPlaced_of_mem_descendants {t : Tree} {id pos : Nat} {n : Node}
    (h : n ∈ (t.place id pos).descendants) : n.IsPlaced := by
  obtain ⟨u, number, before, -, rfl, -⟩ := Tree.mem_descendants_place h
  exact ⟨u, _, _, rfl⟩

/-- The named children of a node that is placed are placed. -/
theorem IsPlaced.of_mem {n c : Node} (hn : n.IsPlaced) (hc : c ∈ n.namedChildren) :
    c.IsPlaced := by
  obtain ⟨t, id, pos, rfl⟩ := hn
  have hmem := List.mem_of_mem_filter hc
  rw [Tree.place_children] at hmem
  obtain ⟨u, -, number, start, rfl⟩ := Tree.mem_placeAll hmem
  exact ⟨u, _, _, rfl⟩

end Node

/-! ## Written nodes -/

/-- What is written of some nodes in their parent: each stands after a space and its field. -/
def Node.written (ns : List Node) : List Char :=
  ns.flatMap fun n => ' ' :: ((Field.lead n.field).toList ++ n.tree.sexp.toList)

/-- What is written of some trees is what is written of the named ones of their nodes. -/
theorem Tree.sexps_toList (ts : List Tree) (id pos : Nat) :
    (sexps ts).toList = Node.written ((placeAll id pos ts).filter Node.isNamed) := by
  induction ts generalizing id pos with
  | nil => rfl
  | cons t ts ih =>
    have hnamed : (t.place id pos).isNamed = t.kind.isNamed :=
      congrArg Kind.isNamed (Node.kind_place t id pos)
    rw [placeAll_cons, sexps, String.toList_append, ih (id + t.size) (pos + byteLength t.source),
       List.filter_cons, hnamed]
    cases t.kind.isNamed with
    | true => simp [Node.written]
    | false => rfl

namespace Node

/-- What is written of a node is its kind and its named children. -/
theorem IsPlaced.sexp_toList {n : Node} (hn : n.IsPlaced) :
    n.tree.sexp.toList = '(' :: (n.kind.label.toList ++ (written n.namedChildren ++ [')'])) := by
  obtain ⟨t, id, pos, rfl⟩ := hn
  rw [namedChildren, Tree.place_children, ← Tree.sexps_toList, kind_place, Tree.place_tree,
    Tree.sexp_eq]
  simp

/-- What is written of a node can be told from what stands behind it, and nodes of which the same is
written are of the same named structure. -/
def WrittenOnce (n : Node) : Prop :=
  ∀ (m : Node) (x y : List Char), m.IsPlaced →
    n.tree.sexp.toList ++ x = m.tree.sexp.toList ++ y → n.SameOutline m ∧ x = y

/-- What is written of some nodes ends where the parenthesis of their parent is closed. -/
theorem written_append_inj {ns ms : List Node} {x y : List Char}
    (hplaced : ∀ n ∈ ns, n.IsPlaced) (hns : ∀ n ∈ ns, n.WrittenOnce) (hms : ∀ m ∈ ms, m.IsPlaced)
    (h : written ns ++ ')' :: x = written ms ++ ')' :: y) :
    ns.map field = ms.map field ∧ List.Forall₂ SameOutline ns ms ∧ x = y := by
  induction ns generalizing ms with
  | nil =>
    cases ms with
    | nil => exact ⟨rfl, .nil, (List.cons_eq_cons.1 h).2⟩
    | cons m ms =>
      have hparen : ')' = ' ' := (List.cons_eq_cons.1 h).1
      cases hparen
  | cons n ns ih =>
    cases ms with
    | nil =>
      have hparen : ' ' = ')' := (List.cons_eq_cons.1 h).1
      cases hparen
    | cons m ms =>
      obtain ⟨hp, hps⟩ := List.forall_mem_cons.1 hplaced
      obtain ⟨hn, hns⟩ := List.forall_mem_cons.1 hns
      obtain ⟨hm, hms⟩ := List.forall_mem_cons.1 hms
      -- First the field, then the node itself, and then the nodes behind it.
      simp only [written, List.flatMap_cons, List.cons_append, List.append_assoc,
        List.cons.injEq, true_and] at h
      have hlead := h
      rw [hp.sexp_toList, hm.sexp_toList] at hlead
      obtain ⟨hfield, -⟩ := Field.lead_append_inj hlead
      rw [hfield] at h
      obtain ⟨hsame, hrest⟩ := hn m _ _ hm (List.append_cancel_left h)
      obtain ⟨hfields, hall, hxy⟩ := ih hps hns hms hrest
      exact ⟨by rw [List.map_cons, List.map_cons, hfield, hfields], .cons hsame hall, hxy⟩

/-- What is written of a node tells its named structure, and where it ends. -/
theorem IsPlaced.writtenOnce {n : Node} (hn : n.IsPlaced) : n.WrittenOnce := by
  refine hn.induction fun n hn ih m x y hm h => ?_
  rw [hn.sexp_toList, hm.sexp_toList] at h
  simp only [List.cons_append, List.append_assoc, List.cons.injEq, true_and,
    List.nil_append] at h
  -- Behind the label stands a space or the parenthesis that is closed.
  have hbehind : ∀ (ns : List Node) (x : List Char), ∃ c y, isLabelChar c = false ∧
      written ns ++ ')' :: x = c :: y := by
    rintro (_ | ⟨n, ns⟩) x
    · exact ⟨')', x, rfl, rfl⟩
    · exact ⟨' ', _, rfl, rfl⟩
  obtain ⟨c, u, hc, hu⟩ := hbehind n.namedChildren x
  obtain ⟨d, v, hd, hv⟩ := hbehind m.namedChildren y
  rw [hu, hv] at h
  obtain ⟨hlabel, rfl, rfl⟩ := label_append_inj n.kind.isLabelChar_of_mem
    m.kind.isLabelChar_of_mem hc hd h
  obtain ⟨hfields, hall, hxy⟩ := written_append_inj (fun c hc => hn.of_mem hc)
    (fun c hc => ih c (List.mem_of_mem_filter hc)) (fun c hc => hm.of_mem hc) (hu.trans hv.symm)
  exact ⟨.intro (Kind.label_injective (String.toList_inj.1 hlabel)) hfields hall, hxy⟩

/-- Nodes of the same named structure are written alike. -/
def WrittenAlike (n : Node) : Prop :=
  ∀ m : Node, m.IsPlaced → n.SameOutline m → n.tree.sexp = m.tree.sexp

/-- Nodes of the same named structure under the same fields are written alike in their parents. -/
theorem written_congr {ns ms : List Node} (hns : ∀ n ∈ ns, n.WrittenAlike)
    (hms : ∀ m ∈ ms, m.IsPlaced) (hfields : ns.map field = ms.map field)
    (hall : List.Forall₂ SameOutline ns ms) : written ns = written ms := by
  induction hall with
  | nil => rfl
  | cons hsame hall ih =>
    obtain ⟨hn, hns⟩ := List.forall_mem_cons.1 hns
    obtain ⟨hm, hms⟩ := List.forall_mem_cons.1 hms
    obtain ⟨hfield, hfields⟩ := List.cons_eq_cons.1 hfields
    rw [written, List.flatMap_cons, hfield, hn _ hm hsame]
    exact congrArg _ (ih hns hms hfields)

/-- Nodes of the same named structure are written alike. -/
theorem IsPlaced.writtenAlike {n : Node} (hn : n.IsPlaced) : n.WrittenAlike := by
  refine hn.induction fun n hn ih m hm ⟨hkind, hfields, hall⟩ => ?_
  have hwritten : written n.namedChildren = written m.namedChildren :=
    written_congr (fun c hc => ih c (List.mem_of_mem_filter hc)) (fun c hc => hm.of_mem hc) hfields
      hall
  rw [← String.toList_inj, hn.sexp_toList, hm.sexp_toList, hkind, hwritten]

end Node

namespace Template

/-- Two nodes of templates are written alike if and only if they are of the same named
structure. -/
theorem parse_sexp_eq_iff (options options' : Options) (source source' : Input) {n m : Node}
    (hn : n ∈ (parse options source).tree.root.descendants)
    (hm : m ∈ (parse options' source').tree.root.descendants) :
    n.tree.sexp = m.tree.sexp ↔ n.SameOutline m := by
  have hn := Node.isPlaced_of_mem_descendants hn
  have hm := Node.isPlaced_of_mem_descendants hm
  constructor
  · intro h
    exact (hn.writtenOnce m [] [] hm (by rw [h])).1
  · exact hn.writtenAlike m hm

/-- Two values of a name are of the same named structure, as their written forms show. -/
theorem parse_sexp_eq_names :
    let options : Options := ⟨false, 2, by decide⟩
    let n := (parse options ['{', '{', ' ', 'a', ' ', '}', '}']).tree.root
    let m := (parse options ['{', '{', 'b', '}', '}']).tree.root
    n.tree.sexp = m.tree.sexp ∧ n.SameOutline m := by
  intro options n m
  have hn : n.tree.sexp = "(source_file (value expression: (identifier)))" := by
    unfold n parse ofSteps
    dsimp only
    cbv
  have hm : m.tree.sexp = "(source_file (value expression: (identifier)))" := by
    unfold m parse ofSteps
    dsimp only
    cbv
  exact ⟨hn.trans hm.symm, (parse_sexp_eq_iff options options _ _ n.mem_descendants_self
    m.mem_descendants_self).1 (hn.trans hm.symm)⟩

end Template

end Stencil
