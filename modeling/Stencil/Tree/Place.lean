import Stencil.Tree

/-!
# Nodes

A node is a tree at its place in a source. The nodes of a template are numbered so that every node
comes after its children and siblings stand in order; the root has the last number.
-/

namespace Stencil

/-- A tree at its place. -/
structure Node where
  /-- The number of the node. -/
  id : Nat
  /-- The byte offset at which the text of the node begins. -/
  start : Nat
  /-- The byte offset at which the text of the node ends. -/
  stop : Nat
  /-- The tree that stands there. -/
  tree : Tree
  /-- The nodes of the tree's children. -/
  children : List Node
deriving Repr

mutual

/-- The node of a tree: its first node is numbered `id`, and the blanks before it begin at byte
`pos`. -/
def Tree.place (id pos : Nat) : Tree → Node
  | .leaf field kind gap text =>
    let start := pos + byteLength gap
    ⟨id, start, start + byteLength text, .leaf field kind gap text, []⟩
  | .node field kind ts =>
    let nodes := Tree.placeAll id pos ts
    { id := nodes.getLast?.elim id (·.id + 1)
      start := nodes.head?.elim pos (·.start)
      stop := nodes.getLast?.elim pos (·.stop)
      tree := .node field kind ts
      children := nodes }

/-- The nodes of some trees in a row. -/
def Tree.placeAll (id pos : Nat) : List Tree → List Node
  | [] => []
  | t :: ts =>
    let first := t.place id pos
    first :: Tree.placeAll (first.id + 1) first.stop ts

end

/-- The root of the nodes of a template, whose tree begins where the source does. -/
def Tree.root (t : Tree) : Node := t.place 0 0

/-! ## Where nodes stand -/

namespace Tree

/-- The node of a tree has that tree. -/
@[simp]
theorem place_tree (t : Tree) (id pos : Nat) : (t.place id pos).tree = t := by
  cases t <;> simp [place]

/-- The text of a node begins after the blanks before its tree. -/
theorem place_start : (t : Tree) → (id pos : Nat) →
    (t.place id pos).start = pos + byteLength t.gap
  | leaf .., _, _ => by simp [place, gap]
  | node _ _ [], _, _ => by simp [place, placeAll, gap, gaps, byteLength]
  | node _ _ (t :: ts), id, pos => by
    have ht := place_start t id pos
    simpa [place, placeAll, gap, gaps] using ht

mutual

/-- The number of a node is that of the last node of its tree. -/
theorem place_id : (t : Tree) → (id pos : Nat) → (t.place id pos).id + 1 = id + t.size
  | leaf .., _, _ => by simp [place, size]
  | node _ _ ts, id, pos => by
    have hts := placeAll_id ts id pos
    simp only [place, size]
    omega

/-- Numbers go up to that of the last node of some trees in a row. -/
theorem placeAll_id : (ts : List Tree) → (id pos : Nat) →
    (placeAll id pos ts).getLast?.elim id (·.id + 1) = id + sizes ts
  | [], _, _ => rfl
  | t :: ts, id, pos => by
    have ht := place_id t id pos
    have hts := placeAll_id ts ((t.place id pos).id + 1) (t.place id pos).stop
    simp only [placeAll, sizes, List.getLast?_cons]
    cases hlast : (placeAll ((t.place id pos).id + 1) (t.place id pos).stop ts).getLast? with
    | none =>
      rw [hlast] at hts
      simp only [Option.elim_none, Option.getD_none, Option.elim_some] at hts ⊢
      omega
    | some last =>
      rw [hlast] at hts
      simp only [Option.getD_some, Option.elim_some] at hts ⊢
      omega

end

mutual

/-- The text of a node ends where the characters of its tree do. -/
theorem place_stop : (t : Tree) → (id pos : Nat) →
    (t.place id pos).stop = pos + byteLength t.source
  | leaf .., _, _ => by simp [place, source, byteLength_append, Nat.add_assoc]
  | node _ _ ts, id, pos => placeAll_stop ts id pos

/-- Some nodes in a row end where the characters of their trees do. -/
theorem placeAll_stop : (ts : List Tree) → (id pos : Nat) →
    (placeAll id pos ts).getLast?.elim pos (·.stop) = pos + byteLength (sources ts)
  | [], _, _ => rfl
  | t :: ts, id, pos => by
    have ht := place_stop t id pos
    have hts := placeAll_stop ts ((t.place id pos).id + 1) (t.place id pos).stop
    simp only [placeAll, sources, List.getLast?_cons, byteLength_append]
    cases hlast : (placeAll ((t.place id pos).id + 1) (t.place id pos).stop ts).getLast? with
    | none =>
      rw [hlast] at hts
      simp only [Option.elim_none, Option.getD_none, Option.elim_some] at hts ⊢
      omega
    | some last =>
      rw [hlast] at hts
      simp only [Option.getD_some, Option.elim_some] at hts ⊢
      omega

end

/-- No trees have no nodes. -/
@[simp]
theorem placeAll_nil (id pos : Nat) : placeAll id pos [] = [] := rfl

/-- The nodes of trees in a row: those of the first tree, and then those of the others. -/
theorem placeAll_cons (id pos : Nat) (t : Tree) (ts : List Tree) :
    placeAll id pos (t :: ts) =
      t.place id pos :: placeAll (id + t.size) (pos + byteLength t.source) ts := by
  rw [placeAll, ← place_id t id pos, ← place_stop t id pos]

/-- The nodes of trees in two rows are those of the one row and then those of the other. -/
theorem placeAll_append (id pos : Nat) (as bs : List Tree) :
    placeAll id pos (as ++ bs) =
      placeAll id pos as ++ placeAll (id + sizes as) (pos + byteLength (sources as)) bs := by
  induction as generalizing id pos with
  | nil => rfl
  | cons t ts ih =>
    rw [List.cons_append, placeAll_cons, ih, placeAll_cons, sizes, sources, byteLength_append,
      Nat.add_assoc, Nat.add_assoc, List.cons_append]

/-- The nodes of some trees have these trees. -/
theorem placeAll_tree (id pos : Nat) (ts : List Tree) :
    (placeAll id pos ts).map Node.tree = ts := by
  induction ts generalizing id pos with
  | nil => rfl
  | cons t ts ih => rw [placeAll_cons, List.map_cons, place_tree, ih]

/-- The children of a node are the nodes of the children of its tree. -/
theorem place_children (t : Tree) (id pos : Nat) :
    (t.place id pos).children = placeAll id pos t.children := by
  cases t <;> rfl

/-- A node does not end before it begins. -/
theorem place_start_le_stop (t : Tree) (id pos : Nat) :
    (t.place id pos).start ≤ (t.place id pos).stop := by
  have hsource := congrArg byteLength (gap_append_text t)
  rw [byteLength_append] at hsource
  rw [place_start, place_stop]
  omega

end Tree

namespace Node

/-- What the node is. -/
def kind (n : Node) : Kind := n.tree.kind

/-- The field under which the parent holds the node. -/
def field (n : Node) : Option Field := n.tree.field

/-- The text of the node. -/
def text (n : Node) : List Char := n.tree.text

/-- A node is what its tree is. -/
@[simp]
theorem kind_place (t : Tree) (id pos : Nat) : (t.place id pos).kind = t.kind :=
  congrArg Tree.kind (Tree.place_tree t id pos)

/-- A node is held under the field of its tree. -/
@[simp]
theorem field_place (t : Tree) (id pos : Nat) : (t.place id pos).field = t.field :=
  congrArg Tree.field (Tree.place_tree t id pos)

/-- Whether the node is one that the written form of the tree shows. -/
def isNamed (n : Node) : Bool := n.kind.isNamed

/-- The children that the written form of the tree shows. -/
def namedChildren (n : Node) : List Node := n.children.filter isNamed

/-- The children under a field, in order. -/
def childrenUnder (n : Node) (f : Field) : List Node :=
  n.children.filter fun c => c.field = some f

/-- The first child under a field. -/
def child? (n : Node) (f : Field) : Option Node := n.children.find? fun c => c.field = some f

/-- The first child under a field is the node of the first child of the tree under it. -/
theorem child?_place (t : Tree) (id pos : Nat) (f : Field) :
    ((t.place id pos).child? f).map Node.tree = t.children.find? fun c => c.field = some f := by
  have htrees := Tree.placeAll_tree id pos t.children
  rw [child?, Tree.place_children]
  conv => rhs; rw [← htrees, List.find?_map]
  rfl

/-- The first child of a kind. -/
def childOfKind? (n : Node) (k : Kind) : Option Node := n.children.find? fun c => c.kind = k

mutual

/-- The node and all below it, every node before its children. -/
def descendants : Node → List Node
  | ⟨id, start, stop, tree, ns⟩ => ⟨id, start, stop, tree, ns⟩ :: descendantsOfAll ns

/-- Some nodes and all below them, every node before its children. -/
def descendantsOfAll : List Node → List Node
  | [] => []
  | n :: ns => n.descendants ++ descendantsOfAll ns

end

mutual

/-- The node and all below it, every node after its children. In a template's tree the place of a
node in this list is its number. -/
def numbered : Node → List Node
  | ⟨id, start, stop, tree, ns⟩ => numberedAll ns ++ [⟨id, start, stop, tree, ns⟩]

/-- Some nodes and all below them, every node after its children. -/
def numberedAll : List Node → List Node
  | [] => []
  | n :: ns => n.numbered ++ numberedAll ns

end

/-- A node comes before all below it. -/
theorem descendants_eq (n : Node) : n.descendants = n :: descendantsOfAll n.children := by
  cases n
  rfl

/-- A node counts as one of those below it. -/
theorem mem_descendants_self (n : Node) : n ∈ n.descendants := by
  rw [descendants_eq]
  exact List.mem_cons_self

/-- What is below nodes in two rows is below those of the one row or below those of the other. -/
theorem descendantsOfAll_append (ns ms : List Node) :
    descendantsOfAll (ns ++ ms) = descendantsOfAll ns ++ descendantsOfAll ms := by
  induction ns with
  | nil => rfl
  | cons n ns ih => simp [descendantsOfAll, ih]

/-- Some nodes are below themselves. -/
theorem mem_descendantsOfAll_of_mem {n : Node} : ∀ {ns : List Node}, n ∈ ns →
    n ∈ descendantsOfAll ns
  | m :: ns, h => by
    rw [descendantsOfAll, descendants_eq]
    rcases List.mem_cons.1 h with rfl | h
    · simp
    · exact List.mem_append_right _ (mem_descendantsOfAll_of_mem h)

mutual

/-- A child of a node below another is below that too. -/
theorem mem_descendants_of_child : ∀ {root m n : Node}, m ∈ root.descendants → n ∈ m.children →
    n ∈ root.descendants
  | ⟨id, start, stop, tree, ns⟩, m, n, hm, hn => by
    rw [descendants] at hm ⊢
    rcases List.mem_cons.1 hm with rfl | hm
    · exact List.mem_cons_of_mem _ (mem_descendantsOfAll_of_mem hn)
    · exact List.mem_cons_of_mem _ (mem_descendantsOfAll_of_child hm hn)

/-- A child of a node below some others is below these too. -/
theorem mem_descendantsOfAll_of_child : ∀ {ns : List Node} {m n : Node},
    m ∈ descendantsOfAll ns → n ∈ m.children → n ∈ descendantsOfAll ns
  | [], _, _, hm, _ => nomatch hm
  | root :: ns, m, n, hm, hn => by
    rw [descendantsOfAll] at hm ⊢
    rcases List.mem_append.1 hm with hm | hm
    · exact List.mem_append_left _ (mem_descendants_of_child hm hn)
    · exact List.mem_append_right _ (mem_descendantsOfAll_of_child hm hn)

end

/-- A node comes after all below it. -/
theorem numbered_eq (n : Node) : n.numbered = numberedAll n.children ++ [n] := by
  cases n
  rfl

/-- The node with a number in the tree below `root`. -/
def find? (root : Node) (id : Nat) : Option Node := root.descendants.find? fun n => n.id = id

/-- For every number up to that of `root`, the number of the node that has its node as a child. -/
def parents (root : Node) : Array (Option Nat) :=
  root.numbered.foldl
    (fun table n => n.children.foldl (fun table c => table.setIfInBounds c.id (some n.id)) table)
    (Array.replicate (root.id + 1) none)

/-- The parent of the node with a number in the tree below `root`. -/
def parent? (root : Node) (id : Nat) : Option Node :=
  root.parents[id]?.join.bind root.find?

end Node

/-! ## What is below a node -/

namespace Tree

mutual

/-- A node below a tree that is placed is a tree in it, placed where its characters stand. -/
theorem mem_descendants_place : ∀ {t : Tree} {id pos : Nat} {n : Node},
    n ∈ (t.place id pos).descendants → ∃ (u : Tree) (number : Nat) (before after : List Char),
      n = u.place number (pos + byteLength before) ∧ t.source = before ++ (u.source ++ after) ∧
        ∀ P, t.Every P → u.Every P
  | leaf field kind gap text, id, pos, n, h => by
    have h : n ∈ [(leaf field kind gap text).place id pos] := h
    rw [List.mem_singleton] at h
    exact ⟨leaf field kind gap text, id, [], [], h, by simp, fun _ h => h⟩
  | node field kind ts, id, pos, n, h => by
    rw [Node.descendants_eq, place_children] at h
    rcases List.mem_cons.1 h with rfl | h
    · exact ⟨node field kind ts, id, [], [], rfl, by simp, fun _ h => h⟩
    · obtain ⟨u, number, before, after, hn, hsource, hevery⟩ := mem_descendants_placeAll h
      exact ⟨u, number, before, after, hn, hsource, fun P hP => hevery P hP.2⟩

/-- A node below some trees that are placed is a tree in them, placed where its characters stand. -/
theorem mem_descendants_placeAll : ∀ {ts : List Tree} {id pos : Nat} {n : Node},
    n ∈ Node.descendantsOfAll (placeAll id pos ts) →
    ∃ (u : Tree) (number : Nat) (before after : List Char),
      n = u.place number (pos + byteLength before) ∧ sources ts = before ++ (u.source ++ after) ∧
        ∀ P, EveryOf P ts → u.Every P
  | [], _, _, _, h => nomatch h
  | t :: ts, id, pos, n, h => by
    rw [placeAll_cons] at h
    rcases List.mem_append.1 h with h | h
    · obtain ⟨u, number, before, after, hn, hsource, hevery⟩ := mem_descendants_place h
      refine ⟨u, number, before, after ++ sources ts, hn, ?_, fun P hP => hevery P hP.1⟩
      simp [sources, hsource]
    · obtain ⟨u, number, before, after, hn, hsource, hevery⟩ := mem_descendants_placeAll h
      refine ⟨u, number, t.source ++ before, after, ?_, ?_, fun P hP => hevery P hP.2⟩
      · rw [hn, byteLength_append, Nat.add_assoc]
      · simp [sources, hsource]

end

end Tree

end Stencil
