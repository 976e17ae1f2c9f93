import Stencil.Proofs.Documents
import Stencil.Proofs.Outlines
import Stencil.Proofs.Views

/-!
# Trees in lines

The written form of a tree shows its named nodes one behind the other, every node before its
children (`Node.shown`): what is shown of a node is its field, its kind and the parentheses that are
closed behind it. The lines of a tree show the same nodes in the same order, cut into rows
(`Shown.Layout`): a line begins with the indentation of the first node of its row, and it shows more
than one node only if it fits the width. So the tree in lines is its written form in which some
spaces are ends of lines (`Shown.Layout.unbroken_eq`), and a line is too long only where it shows a
single node.
-/

namespace Stencil

/-- A node as the written form of a tree shows it. -/
structure Shown where
  /-- The number of nodes around it. -/
  depth : Nat
  /-- The node. -/
  node : Node
  /-- The number of parentheses that are closed behind the kind of the node. -/
  closers : Nat

namespace Node

mutual

/-- The node and those below it that the written form shows, every node before its children.
Behind the last one, `closers` parentheses close the trees around this one. -/
def shown (depth closers : Nat) : Node → List Shown
  | ⟨id, start, stop, tree, ns⟩ =>
    ⟨depth, ⟨id, start, stop, tree, ns⟩, if ns.any isNamed then 0 else closers + 1⟩ ::
      shownOfAll (depth + 1) (closers + 1) ns

/-- The named ones of some nodes, and those below them, every node before its children. -/
def shownOfAll (depth closers : Nat) : List Node → List Shown
  | [] => []
  | n :: ns =>
    (if n.isNamed then n.shown depth (if ns.any isNamed then 0 else closers) else [])
      ++ shownOfAll depth closers ns

end

/-- A node is shown before those below it. -/
theorem shown_eq (n : Node) (depth closers : Nat) :
    n.shown depth closers = ⟨depth, n, if n.children.any isNamed then 0 else closers + 1⟩ ::
      shownOfAll (depth + 1) (closers + 1) n.children := by
  cases n
  rfl

/-- Among some nodes there is a named one if there is one among their trees. -/
theorem any_isNamed_placeAll (ts : List Tree) (id pos : Nat) :
    (Tree.placeAll id pos ts).any isNamed = Tree.anyNamed ts := by
  have htrees := Tree.placeAll_tree id pos ts
  conv => rhs; rw [Tree.anyNamed, ← htrees, List.any_map]
  rfl

/-- Nothing is shown of some nodes if and only if none of them has a name. -/
theorem shownOfAll_eq_nil_iff {ns : List Node} {depth closers : Nat} :
    shownOfAll depth closers ns = [] ↔ ns.any isNamed = false := by
  induction ns with
  | nil => exact ⟨fun _ => rfl, fun _ => rfl⟩
  | cons n ns ih =>
    rw [shownOfAll, List.append_eq_nil_iff, ih, List.any_cons, Bool.or_eq_false_iff]
    cases n.isNamed <;> simp [shown_eq]

end Node

namespace Shown

/-- What is written of a node that is shown. -/
def text (s : Shown) : String :=
  Field.lead s.node.field ++ "(" ++ s.node.kind.label ++ Tree.pad s.closers ')'

/-- What is written of some nodes, each behind a space. -/
def spaced (row : List Shown) : List Char := row.flatMap fun s => ' ' :: s.text.toList

/-- The line that shows some nodes: the indentation of the first of them, and then what is written
of them, with one space between two. -/
def line (row : List Shown) : String :=
  Tree.pad (row.head?.elim 0 fun s => 2 * s.depth) ' ' ++ " ".intercalate (row.map text)

/-- Texts that are not the first stand behind a space each. -/
theorem intercalate_cons (s : Shown) (row : List Shown) :
    (" ".intercalate ((s :: row).map text)).toList = s.text.toList ++ spaced row := by
  have hspaced : ((s :: row).map (String.toList ∘ text)).flatMap (' ' :: ·) = _ :=
    flatMap_cons_eq_intercalate (List.cons_ne_nil _ _)
  rw [List.flatMap_map, List.flatMap_cons] at hspaced
  rw [String.toList_intercalate, List.map_map]
  exact (List.cons_eq_cons.1 hspaced).2.symm

/-- A line is its indentation, its first node and its other nodes. -/
theorem line_cons (s : Shown) (row : List Shown) :
    (line (s :: row)).toList =
      List.replicate (2 * s.depth) ' ' ++ (s.text.toList ++ spaced row) := by
  rw [line, String.toList_append, intercalate_cons, Tree.pad, String.toList_ofList]
  rfl

/-- What is written of some nodes and then of others. -/
theorem spaced_append (row more : List Shown) : spaced (row ++ more) = spaced row ++ spaced more :=
  List.flatMap_append

/-- What is written of a node begins with a letter or with a parenthesis. -/
theorem exists_text (s : Shown) : ∃ c r, s.text.toList = c :: r ∧ c ≠ ' ' := by
  cases hfield : s.node.field with
  | none =>
    exact ⟨'(', (s.node.kind.label ++ Tree.pad s.closers ')').toList,
      by simp [text, hfield, Field.lead], by decide⟩
  | some f =>
    have hlabel := f.isLabelChar_of_mem
    have htext : s.text.toList = f.label.toList ++
        (": (".toList ++ (s.node.kind.label ++ Tree.pad s.closers ')').toList) := by
      simp [text, hfield, Field.lead]
    cases hchars : f.label.toList with
    | nil => exact ⟨':', _, by rw [htext, hchars]; rfl, by decide⟩
    | cons c r =>
      have hc := hlabel c (by rw [hchars]; exact List.mem_cons_self)
      refine ⟨c, _, by rw [htext, hchars]; rfl, ?_⟩
      rintro rfl
      cases hc

/-- No line ends in what is written of a node. -/
theorem newline_notMem_text (s : Shown) : '\n' ∉ s.text.toList := by
  have hkind : '\n' ∉ s.node.kind.label.toList := fun h =>
    absurd (s.node.kind.isLabelChar_of_mem _ h) (by decide)
  have hlead : '\n' ∉ (Field.lead s.node.field).toList := by
    cases s.node.field with
    | none => simp [Field.lead]
    | some f =>
      have hlabel : '\n' ∉ f.label.toList := fun h =>
        absurd (f.isLabelChar_of_mem _ h) (by decide)
      simpa [Field.lead] using hlabel
  simp [text, Tree.pad, hkind, hlead]

/-- No line ends in what is written of some nodes. -/
theorem newline_notMem_spaced (row : List Shown) : '\n' ∉ spaced row := by
  intro h
  obtain ⟨s, -, hs⟩ := List.mem_flatMap.1 h
  exact s.newline_notMem_text ((List.mem_cons.1 hs).resolve_left (by decide))

end Shown

/-! ## What the written form shows -/

namespace Tree

/-- What is written of a tree and the parentheses behind it is what is written of the nodes that are
shown of it, if this holds of its children. -/
theorem spaced_shown_of_children {t : Tree} {id pos depth closers : Nat}
    (h : Shown.spaced
        (Node.shownOfAll (depth + 1) (closers + 1) (placeAll id pos t.children)) =
      (sexps t.children).toList ++
        (if anyNamed t.children then List.replicate (closers + 1) ')' else [])) :
    Shown.spaced ((t.place id pos).shown depth closers) =
      ' ' :: ((Field.lead t.field).toList ++ (t.sexp.toList ++ List.replicate closers ')')) := by
  rw [Node.shown_eq, place_children, Node.any_isNamed_placeAll, Shown.spaced, List.flatMap_cons,
    ← Shown.spaced, h, Shown.text, Node.field_place, Node.kind_place, sexp_eq]
  -- The parentheses stand behind the last node below, or behind this one if there is none.
  cases hany : anyNamed t.children with
  | true => simp [pad, List.replicate_succ]
  | false => simp [(written_of_not_anyNamed hany).1, pad, List.replicate_succ]

mutual

/-- What is written of a tree and the parentheses behind it is what is written of the nodes that are
shown of it. -/
theorem spaced_shown : (t : Tree) → (id pos depth closers : Nat) →
    Shown.spaced ((t.place id pos).shown depth closers) =
      ' ' :: ((Field.lead t.field).toList ++ (t.sexp.toList ++ List.replicate closers ')'))
  | leaf .., _, _, _, _ => spaced_shown_of_children rfl
  | node _ _ ts, id, pos, depth, closers =>
    spaced_shown_of_children (spaced_shownOfAll ts id pos (depth + 1) (closers + 1))

/-- What is written of some trees is what is written of the nodes that are shown of them. -/
theorem spaced_shownOfAll : (ts : List Tree) → (id pos depth closers : Nat) →
    Shown.spaced (Node.shownOfAll depth closers (placeAll id pos ts)) =
      (sexps ts).toList ++ (if anyNamed ts then List.replicate closers ')' else [])
  | [], _, _, _, _ => rfl
  | t :: ts, id, pos, depth, closers => by
    have hts := spaced_shownOfAll ts (id + t.size) (pos + byteLength t.source) depth closers
    have hnamed : (t.place id pos).isNamed = t.kind.isNamed :=
      congrArg Kind.isNamed (Node.kind_place t id pos)
    have hany : anyNamed (t :: ts) = (t.kind.isNamed || anyNamed ts) := List.any_cons
    rw [placeAll_cons, Node.shownOfAll, Node.any_isNamed_placeAll, hnamed, sexps, hany,
      Shown.spaced_append, hts]
    cases t.kind.isNamed with
    | false => simp [Shown.spaced]
    | true =>
      have ht := spaced_shown t id pos depth (if anyNamed ts then 0 else closers)
      rw [if_pos rfl, ht]
      cases hts : anyNamed ts with
      | true => simp
      | false => simp [(written_of_not_anyNamed hts).1]

end

/-! ## Rows -/

end Tree

/-- How nodes that are shown are laid out in lines: the nodes of each line, in rows. -/
structure Shown.Layout (width : Nat) (shown : List Shown) (lines : List String)
    (rows : List (List Shown)) : Prop where
  /-- Each node is in one row, and the nodes stand in order. -/
  nodes : rows.flatten = shown
  /-- A row takes a line. -/
  lines : lines = rows.map Shown.line
  /-- In a line that does not fit the width a single node is shown. -/
  fits : ∀ row ∈ rows, ∃ first more, row = first :: more ∧
    (width < (Shown.line row).length → more = [])

namespace Shown.Layout

variable {width : Nat} {shown more : List Shown} {ls ms : List String}
  {rows others : List (List Shown)}

/-- Nothing is laid out in no line. -/
theorem nil : Shown.Layout width [] [] [] := ⟨rfl, rfl, List.forall_mem_nil _⟩

/-- What is laid out in lines, and then more in more lines. -/
theorem append (h : Shown.Layout width shown ls rows) (h' : Shown.Layout width more ms others) :
    Shown.Layout width (shown ++ more) (ls ++ ms) (rows ++ others) where
  nodes := by rw [List.flatten_append, h.nodes, h'.nodes]
  lines := by rw [List.map_append, h.lines, h'.lines]
  fits row hrow := (List.mem_append.1 hrow).elim (h.fits row) (h'.fits row)

/-- Nodes in one line: it fits, or it is the line of a single node. -/
theorem singleton {s : Shown} (h : width < (Shown.line (s :: shown)).length → shown = []) :
    Shown.Layout width (s :: shown) [Shown.line (s :: shown)] [s :: shown] where
  nodes := List.flatten_singleton
  lines := rfl
  fits row hrow := by
    obtain rfl := List.mem_singleton.1 hrow
    exact ⟨s, shown, rfl, h⟩

end Shown.Layout

namespace Tree

variable {width : Nat}

/-- The line that shows all nodes of a tree holds its written form. -/
theorem line_shown (t : Tree) (id pos depth closers : Nat) :
    Shown.line ((t.place id pos).shown depth closers) =
      line (2 * depth) (Field.lead t.field ++ t.sexp) closers := by
  have hspaced := spaced_shown t id pos depth closers
  rw [Node.shown_eq] at hspaced ⊢
  rw [← String.toList_inj, Shown.line_cons]
  rw [Shown.spaced, List.flatMap_cons, ← Shown.spaced, List.cons_append] at hspaced
  rw [(List.cons_eq_cons.1 hspaced).2]
  simp [line, pad]

/-- A tree that takes one line is laid out in a row. -/
theorem layout_of_oneLine {t : Tree} {depth closers : Nat} (id pos : Nat)
    (h : OneLine width (2 * depth + (Field.lead t.field).length + closers) t) :
    ∃ rows, Shown.Layout width ((t.place id pos).shown depth closers)
      (t.lines width (2 * depth) (Field.lead t.field) closers) rows := by
  have hline := line_shown t id pos depth closers
  have hlength := congrArg String.length hline
  rw [lines_of_oneLine h, ← hline]
  rw [Node.shown_eq] at hlength ⊢
  refine ⟨_, .singleton fun hlong => ?_⟩
  rcases h with hfits | hnone
  · simp only [hlength, line, pad, String.length_append, String.length_ofList,
      List.length_replicate] at hlong
    omega
  · rw [place_children]
    exact Node.shownOfAll_eq_nil_iff.2 ((Node.any_isNamed_placeAll _ _ _).trans hnone)

mutual

/-- The lines of a tree show its nodes, in rows. -/
theorem exists_layout : (t : Tree) → (id pos depth closers : Nat) →
    ∃ rows, Shown.Layout width ((t.place id pos).shown depth closers)
      (t.lines width (2 * depth) (Field.lead t.field) closers) rows
  | leaf .., id, pos, _, _ => layout_of_oneLine id pos (.inr rfl)
  | node f kind ts, id, pos, depth, closers => by
    by_cases hone : OneLine width (2 * depth + (Field.lead f).length + closers) (node f kind ts)
    · exact layout_of_oneLine id pos hone
    · -- The node has a line of its own, and those below it have the others.
      obtain ⟨rows, hrows⟩ := exists_layoutOfAll ts id pos (depth + 1) (closers + 1)
      have hany : anyNamed ts = true := Bool.eq_true_of_not_eq_false (not_or.1 hone).2
      have hline : line (2 * depth) (Field.lead f ++ "(" ++ kind.label) 0 =
          Shown.line [⟨depth, (node f kind ts).place id pos, 0⟩] := by
        rw [← String.toList_inj, Shown.line_cons, Shown.text, Node.field_place, Node.kind_place]
        simp [line, pad, Shown.spaced, field, Tree.kind]
      rw [show (node f kind ts).field = f from rfl, lines_of_not_oneLine hone, Node.shown_eq,
        place_children, children, Node.any_isNamed_placeAll, hany, if_pos rfl, hline]
      exact ⟨_, Shown.Layout.append (.singleton fun _ => rfl) hrows⟩

/-- The lines of some trees show their nodes, in rows. -/
theorem exists_layoutOfAll : (ts : List Tree) → (id pos depth closers : Nat) →
    ∃ rows, Shown.Layout width (Node.shownOfAll depth closers (placeAll id pos ts))
      (linesOfAll width (2 * depth) closers ts) rows
  | [], _, _, _, _ => ⟨[], .nil⟩
  | t :: ts, id, pos, depth, closers => by
    obtain ⟨others, hothers⟩ :=
      exists_layoutOfAll ts (id + t.size) (pos + byteLength t.source) depth closers
    have hnamed : (t.place id pos).isNamed = t.kind.isNamed :=
      congrArg Kind.isNamed (Node.kind_place t id pos)
    rw [placeAll_cons, Node.shownOfAll, Node.any_isNamed_placeAll, hnamed, linesOfAll]
    cases t.kind.isNamed with
    | false => exact ⟨others, hothers⟩
    | true =>
      obtain ⟨rows, hrows⟩ := exists_layout t id pos depth (if anyNamed ts then 0 else closers)
      exact ⟨rows ++ others, hrows.append hothers⟩

end

end Tree

/-! ## The nodes that are shown -/

/-- The schema has rows of children for named kinds only. -/
theorem Schema.isNamed {kind : Kind} {ts : List Tree} (h : Schema kind ts) :
    kind.isNamed = true := by
  cases h with
  | production h _ => cases kind <;> first | rfl | cases h
  | sourceFile | selfClosing | element => rfl

/-- A node without a name is a token. -/
theorem Tree.Formed.children_eq_nil {t : Tree} (h : t.Formed) (hnamed : t.kind.isNamed = false) :
    t.children = [] := by
  cases t with
  | leaf => rfl
  | node f kind ts => exact absurd (Schema.isNamed h) (by simpa [Tree.kind] using hnamed)

namespace Tree

/-- The nodes that are shown of a named tree are those that have names, if this holds of its
children. -/
theorem map_node_shown_of_children {t : Tree} {id pos depth closers : Nat}
    (hnamed : t.kind.isNamed = true)
    (h : (Node.shownOfAll (depth + 1) (closers + 1) (placeAll id pos t.children)).map Shown.node =
      (Node.descendantsOfAll (placeAll id pos t.children)).filter Node.isNamed) :
    ((t.place id pos).shown depth closers).map Shown.node =
      (t.place id pos).descendants.filter Node.isNamed := by
  have hroot : (t.place id pos).isNamed = true :=
    (congrArg Kind.isNamed (Node.kind_place t id pos)).trans hnamed
  rw [Node.shown_eq, Node.descendants_eq, place_children, List.map_cons,
    List.filter_cons_of_pos hroot, h]

mutual

/-- The nodes that are shown of a named tree are those that have names. -/
theorem map_node_shown : (t : Tree) → (id pos depth closers : Nat) → t.Every Formed →
    t.kind.isNamed = true → ((t.place id pos).shown depth closers).map Shown.node =
      (t.place id pos).descendants.filter Node.isNamed
  | leaf .., _, _, _, _, _, hnamed => map_node_shown_of_children hnamed rfl
  | node _ _ ts, id, pos, depth, closers, h, hnamed =>
    map_node_shown_of_children hnamed (map_node_shownOfAll ts id pos (depth + 1) (closers + 1) h.2)

/-- The nodes that are shown of some trees are those that have names. -/
theorem map_node_shownOfAll : (ts : List Tree) → (id pos depth closers : Nat) →
    EveryOf Formed ts → (Node.shownOfAll depth closers (placeAll id pos ts)).map Shown.node =
      (Node.descendantsOfAll (placeAll id pos ts)).filter Node.isNamed
  | [], _, _, _, _, _ => rfl
  | t :: ts, id, pos, depth, closers, h => by
    have hts := map_node_shownOfAll ts (id + t.size) (pos + byteLength t.source) depth closers h.2
    have hroot : (t.place id pos).isNamed = t.kind.isNamed :=
      congrArg Kind.isNamed (Node.kind_place t id pos)
    rw [placeAll_cons, Node.shownOfAll, Node.descendantsOfAll, List.map_append,
      List.filter_append, hts, hroot]
    cases hnamed : t.kind.isNamed with
    | true => rw [if_pos rfl, map_node_shown t id pos _ _ h.1 hnamed]
    | false =>
      -- Nothing stands below a node without a name.
      rw [hnamed] at hroot
      rw [Node.descendants_eq, place_children, h.1.here.children_eq_nil hnamed, placeAll_nil,
        Node.descendantsOfAll, List.filter_cons_of_neg (Bool.not_eq_true _ ▸ hroot)]
      rfl

end

end Tree

/-! ## Lines of text -/

/-- A text with every end of a line, together with the indentation behind it, written as one
space. -/
def unbroken (s : List Char) : List Char :=
  match s.splitOn '\n' with
  | [] => []
  | first :: more => first ++ more.flatMap fun l => ' ' :: l.dropWhile (· = ' ')

namespace Shown

/-- A line is indented by two columns for every node around its first one. -/
theorem takeWhile_line (s : Shown) (row : List Shown) :
    (line (s :: row)).toList.takeWhile (· = ' ') = List.replicate (2 * s.depth) ' ' := by
  obtain ⟨c, r, htext, hc⟩ := s.exists_text
  rw [line_cons, htext, List.takeWhile_append_of_pos (by simp), List.cons_append,
    List.takeWhile_cons_of_neg (by simpa using hc), List.append_nil]

/-- A line without its indentation shows its nodes. -/
theorem dropWhile_line (s : Shown) (row : List Shown) :
    (line (s :: row)).toList.dropWhile (· = ' ') = s.text.toList ++ spaced row := by
  obtain ⟨c, r, htext, hc⟩ := s.exists_text
  rw [line_cons, htext, List.dropWhile_append_of_pos (by simp), List.cons_append,
    List.dropWhile_cons_of_neg (by simpa using hc)]

/-- Lines without their indentation, each behind a space, show their nodes. -/
theorem flatMap_dropWhile_line {rows : List (List Shown)} (h : ∀ row ∈ rows, row ≠ []) :
    rows.flatMap (fun row => ' ' :: (line row).toList.dropWhile (· = ' ')) =
      spaced rows.flatten := by
  induction rows with
  | nil => rfl
  | cons row rows ih =>
    obtain ⟨hrow, hrows⟩ := List.forall_mem_cons.1 h
    obtain ⟨first, more, rfl⟩ := List.exists_cons_of_ne_nil hrow
    rw [List.flatMap_cons, ih hrows, dropWhile_line, List.flatten_cons, spaced_append]
    rfl

/-- No line ends inside a line. -/
theorem newline_notMem_line (s : Shown) (row : List Shown) :
    '\n' ∉ (line (s :: row)).toList := by
  have htext := s.newline_notMem_text
  have hspaced := newline_notMem_spaced row
  simp [line_cons, htext, hspaced]

end Shown

namespace Shown.Layout

variable {width : Nat} {s : Shown} {shown : List Shown} {ls : List String}
  {rows : List (List Shown)}

/-- No row is empty. -/
theorem row_ne_nil (h : Shown.Layout width shown ls rows) {row : List Shown} (hrow : row ∈ rows) :
    row ≠ [] := by
  obtain ⟨first, more, rfl, -⟩ := h.fits row hrow
  exact List.cons_ne_nil first more

/-- The lines of a text that is laid out are its rows. -/
theorem splitOn_eq (h : Shown.Layout width (s :: shown) ls rows) :
    ("\n".intercalate ls).toList.splitOn '\n' = rows.map fun row => (Shown.line row).toList := by
  have hlines : ls.map String.toList = rows.map fun row => (Shown.line row).toList := by
    rw [h.lines, List.map_map]
    rfl
  have hne : rows ≠ [] := by
    rintro rfl
    cases h.nodes
  rw [String.toList_intercalate, hlines]
  refine List.splitOn_intercalate '\n' (fun l hl => ?_) (by simpa using hne)
  obtain ⟨row, hrow, rfl⟩ := List.mem_map.1 hl
  obtain ⟨first, more, rfl, -⟩ := h.fits row hrow
  exact Shown.newline_notMem_line first more

/-- A text that is laid out shows its nodes with one space, or the end of a line with the
indentation behind it, between two. -/
theorem unbroken_eq (h : Shown.Layout width (s :: shown) ls rows) (hdepth : s.depth = 0) :
    unbroken ("\n".intercalate ls).toList = s.text.toList ++ Shown.spaced shown := by
  have hnodes := h.nodes
  rw [unbroken, h.splitOn_eq]
  cases rows with
  | nil => cases hnodes
  | cons row rows =>
    obtain ⟨first, more, rfl, -⟩ := h.fits row List.mem_cons_self
    -- The first row is not indented.
    obtain ⟨rfl, hshown⟩ := List.cons_eq_cons.1 hnodes
    have hfirst : (Shown.line (first :: more)).toList = first.text.toList ++ Shown.spaced more := by
      rw [Shown.line_cons, hdepth]
      rfl
    have hmore := Shown.flatMap_dropWhile_line fun row hrow =>
      h.row_ne_nil (List.mem_cons_of_mem _ hrow)
    rw [List.map_cons]
    dsimp only
    rw [List.flatMap_map, hmore, hfirst, List.append_assoc, ← Shown.spaced_append]
    exact congrArg (fun l => first.text.toList ++ Shown.spaced l) hshown

end Shown.Layout

namespace Tree

/-- The lines of a tree that is held under no field show its nodes, in rows. -/
theorem exists_layout_pretty {t : Tree} (hfield : t.field = none) (width : Nat) :
    ∃ rows, Shown.Layout width (t.root.shown 0 0) (t.lines width 0 "" 0) rows := by
  have hlayout : ∃ rows, Shown.Layout width (t.root.shown 0 0)
      (t.lines width 0 (Field.lead t.field) 0) rows := exists_layout t 0 0 0 0
  rwa [hfield] at hlayout

/-- What is written of the nodes of a tree, with one space between two, is its written form. -/
theorem sexp_toList_eq {t : Tree} (hfield : t.field = none) {s : Shown} {shown : List Shown}
    (h : t.root.shown 0 0 = s :: shown) : t.sexp.toList = s.text.toList ++ Shown.spaced shown := by
  have hspaced := spaced_shown t 0 0 0 0
  rw [← root, h, hfield, Shown.spaced, List.flatMap_cons, ← Shown.spaced] at hspaced
  simpa [Field.lead] using hspaced.symm

/-- No line ends in the written form of a tree. -/
theorem newline_notMem_sexp {t : Tree} (hfield : t.field = none) : '\n' ∉ t.sexp.toList := by
  rw [sexp_toList_eq hfield (t.root.shown_eq 0 0)]
  exact List.not_mem_append (Shown.newline_notMem_text _) (Shown.newline_notMem_spaced _)

/-- A tree that takes one line is written there. -/
theorem pretty_of_oneLine {t : Tree} {width : Nat} (h : OneLine width 0 t) :
    t.pretty width = t.sexp := by
  have hlines : t.lines width 0 "" 0 = [line 0 ("" ++ t.sexp) 0] := lines_of_oneLine h
  rw [pretty, hlines, ← String.toList_inj, String.toList_intercalate]
  simp [line, pad]

/-- A tree in lines is its written form if and only if that fits the width, or no child is shown. -/
theorem pretty_eq_sexp_iff {t : Tree} (hfield : t.field = none) (width : Nat) :
    t.pretty width = t.sexp ↔ t.sexp.length ≤ width ∨ t.root.namedChildren = [] := by
  have hnamed : t.root.namedChildren = [] ↔ t.root.children.any Node.isNamed = false := by
    rw [Node.namedChildren, List.filter_eq_nil_iff, List.any_eq_false]
  rw [hnamed]
  constructor
  · intro h
    obtain ⟨rows, hrows⟩ := exists_layout_pretty hfield width
    rw [t.root.shown_eq] at hrows
    -- There is no end of a line in the text, and so one row in the layout.
    have hone : [t.sexp.toList] = rows.map fun row => (Shown.line row).toList := by
      have hsplit := List.splitOn_intercalate '\n'
        (List.forall_mem_singleton.2 (newline_notMem_sexp hfield)) (List.cons_ne_nil _ _)
      rw [List.intercalate_singleton] at hsplit
      rw [← hrows.splitOn_eq, ← pretty, h, hsplit]
    obtain ⟨row, rfl, hrow⟩ := List.map_eq_singleton_iff.1 hone.symm
    have hnodes := hrows.nodes
    obtain ⟨first, more, rfl, hlong⟩ := hrows.fits row List.mem_cons_self
    rw [List.flatten_singleton] at hnodes
    by_cases hwidth : width < (Shown.line (first :: more)).length
    · have hnone := (List.cons_eq_cons.1 hnodes).2
      rw [hlong hwidth] at hnone
      exact .inr (Node.shownOfAll_eq_nil_iff.1 hnone.symm)
    · rw [String.toList_inj.1 hrow] at hwidth
      exact .inl (Nat.le_of_not_lt hwidth)
  · rintro (hfits | hnone)
    · exact pretty_of_oneLine (.inl (by omega))
    · rw [root, place_children, Node.any_isNamed_placeAll] at hnone
      exact pretty_of_oneLine (.inr hnone)

end Tree

namespace Template

/-- The text of a template's tree in lines is what its document is printed as by the rule for
groups. It is the written form of the tree in which some spaces are ends of lines, with an
indentation behind them; and it is the written form itself if and only if that fits the width, or
the root has no named children. -/
theorem parse_pretty_unbroken (options : Options) (source : Input) (width : Nat) :
    let tree := (parse options source).tree
    (∀ out, tree.doc.Printed width out ↔ out = (tree.pretty width).toList) ∧
      unbroken (tree.pretty width).toList = tree.sexp.toList ∧
      (tree.pretty width = tree.sexp ↔
        tree.sexp.length ≤ width ∨ tree.root.namedChildren = []) := by
  intro tree
  have hfield : tree.field = none := rfl
  have hshown := tree.root.shown_eq 0 0
  obtain ⟨rows, hrows⟩ := Tree.exists_layout_pretty hfield width
  rw [hshown] at hrows
  refine ⟨tree.printed_doc_iff width, ?_, Tree.pretty_eq_sexp_iff hfield width⟩
  rw [Tree.sexp_toList_eq hfield hshown]
  exact hrows.unbroken_eq rfl

/-- The lines of a template's tree show its named nodes in rows, each node once and before those
below it. A line is indented by two columns for every node around its first one, and one that is
longer than the width shows nothing but this node: its field, its kind and parentheses. -/
theorem parse_pretty_rows (options : Options) (source : Input) (width : Nat) :
    let tree := (parse options source).tree
    let shown := tree.root.shown 0 0
    shown.map Shown.node = tree.root.descendants.filter Node.isNamed ∧
      ∃ rows : List (List Shown), rows.flatten = shown ∧
        (tree.pretty width).toList.splitOn '\n' = rows.map (fun row => (Shown.line row).toList) ∧
        ∀ row ∈ rows, ∃ first more, row = first :: more ∧
          (Shown.line row).toList.takeWhile (· = ' ') = List.replicate (2 * first.depth) ' ' ∧
          (width < (Shown.line row).length → more = [] ∧ Shown.line row =
            Tree.pad (2 * first.depth) ' ' ++ Field.lead first.node.field ++
              "(" ++ first.node.kind.label ++ Tree.pad first.closers ')') := by
  intro tree shown
  have hformed : tree.Every Tree.Formed := parse_formed options source
  obtain ⟨rows, hrows⟩ := Tree.exists_layout_pretty (rfl : tree.field = none) width
  refine ⟨tree.map_node_shown 0 0 0 0 hformed rfl, rows, hrows.nodes, ?_, fun row hrow => ?_⟩
  · have hsplit := hrows
    rw [tree.root.shown_eq] at hsplit
    exact hsplit.splitOn_eq
  · obtain ⟨first, more, rfl, hlong⟩ := hrows.fits row hrow
    refine ⟨first, more, rfl, Shown.takeWhile_line first more, fun h => ?_⟩
    obtain rfl := hlong h
    refine ⟨rfl, ?_⟩
    rw [← String.toList_inj, Shown.line_cons, Shown.text]
    simp [Tree.pad, Shown.spaced]

end Template

end Stencil
