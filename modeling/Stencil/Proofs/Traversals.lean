import Mathlib
import Stencil.Proofs.Numbering
import Stencil.Template

/-!
# Walks through the nodes

The nodes of a tree stand in an arena, where each knows the places of its children. A walk with a
stack (`Arena.Walks`) takes the place on top, and puts those of the children in its stead, the last
child lowest. It lists the nodes in the order in which every node comes before its children
(`Arena.walks_iff`): when a place is on top of the stack, the walk goes through all nodes below it
before it comes to what lay under it. A sweep through the arena (`Node.parents`) writes for every
child the place of its parent; since every node but the root is a child once
(`Node.descendants_perm_cons`), no entry is written twice.
-/

namespace Stencil

/-- What the arena holds of a node. -/
structure Cell where
  kind : Kind
  /-- The byte offset at which the text of the node begins. -/
  start : Nat
  /-- The byte offset at which the text of the node ends. -/
  stop : Nat
  /-- The places of the children in the arena. -/
  children : List Nat
deriving DecidableEq, Repr

/-- What the arena holds of a node. -/
def Node.cell (n : Node) : Cell := ⟨n.kind, n.start, n.stop, n.children.map Node.id⟩

/-- The arena of some trees in a row, which hold the source up to where a reader is. -/
def arena (held : List Tree) : List Cell :=
  (Node.numberedAll (Tree.placeAll 0 0 held)).map Node.cell

/-! ## The walk with a stack -/

namespace Arena

/-- The places that a walk lists, from what is on its stack; the top is the last member. -/
inductive Walks (cells : List Cell) : List Nat → List Nat → Prop
  | done : Walks cells [] []
  | step {stack ids : List Nat} {id : Nat} {cell : Cell} (hcell : cells[id]? = some cell)
    (h : Walks cells (stack ++ cell.children.reverse) ids) : Walks cells (stack ++ [id]) (id :: ids)

/-- A walk lists the same places every time. -/
theorem Walks.unique {cells : List Cell} {stack ids ids' : List Nat} (h : Walks cells stack ids)
    (h' : Walks cells stack ids') : ids = ids' := by
  induction h generalizing ids' with
  | done =>
    generalize hstack : ([] : List Nat) = stack at h'
    cases h' with
    | done => rfl
    | step => simp at hstack
  | @step stack ids id cell hcell h ih =>
    generalize hstack : stack ++ [id] = top at h'
    cases h' with
    | done => simp at hstack
    | @step stack' ids' id' cell' hcell' h' =>
      obtain ⟨rfl, hid⟩ := List.append_inj' hstack rfl
      obtain rfl : id = id' := List.singleton_inj.1 hid
      obtain rfl : cell = cell' := Option.some.inj (hcell.symm.trans hcell')
      rw [ih h']

variable {cells : List Cell}

mutual

/-- A walk that has a node on top of its stack lists all nodes below it, and goes on with what lay
under it. -/
theorem walks_descendants : (n : Node) → {stack ids : List Nat} →
    (∀ m ∈ n.descendants, cells[m.id]? = some m.cell) → Walks cells stack ids →
    Walks cells (stack ++ [n.id]) (n.descendants.map Node.id ++ ids)
  | ⟨id, start, stop, tree, ns⟩, stack, ids, hcells, h => by
    rw [Node.descendants] at hcells ⊢
    obtain ⟨hcell, hbelow⟩ := List.forall_mem_cons.1 hcells
    exact .step hcell (walks_descendantsOfAll ns hbelow h)

/-- A walk that has some nodes on top of its stack, the first of them highest, lists all nodes below
them, and goes on with what lay under them. -/
theorem walks_descendantsOfAll : (ns : List Node) → {stack ids : List Nat} →
    (∀ m ∈ Node.descendantsOfAll ns, cells[m.id]? = some m.cell) → Walks cells stack ids →
    Walks cells (stack ++ (ns.map Node.id).reverse)
      ((Node.descendantsOfAll ns).map Node.id ++ ids)
  | [], _, _, _, h => by simpa [Node.descendantsOfAll] using h
  | n :: ns, stack, ids, hcells, h => by
    rw [Node.descendantsOfAll] at hcells ⊢
    obtain ⟨hfirst, hmore⟩ := List.forall_mem_append.1 hcells
    rw [List.map_cons, List.reverse_cons, ← List.append_assoc, List.map_append,
      List.append_assoc (n.descendants.map Node.id)]
    exact walks_descendants n hfirst (walks_descendantsOfAll ns hmore h)

end

/-- The arena of a tree holds every node at its number. -/
theorem getElem?_arena {t : Tree} {n : Node} (hn : n ∈ t.root.descendants) :
    (arena [t])[n.id]? = some n.cell := by
  have harena : arena [t] = t.root.numbered.map Node.cell := by
    rw [arena, Tree.placeAll_cons, Tree.placeAll_nil, Node.numberedAll, Node.numberedAll,
      List.append_nil]
    rfl
  obtain ⟨i, hi, rfl⟩ := List.getElem_of_mem (t.root.descendants_perm.mem_iff.1 hn)
  rw [harena, t.root_numbered.place i hi, List.getElem?_map, List.getElem?_eq_getElem hi]
  rfl

/-- The walk through the nodes of a tree lists every node before its children. -/
theorem walks_iff (t : Tree) (ids : List Nat) :
    Walks (arena [t]) [t.root.id] ids ↔ ids = t.root.descendants.map Node.id := by
  have hwalk : Walks (arena [t]) ([] ++ [t.root.id]) (t.root.descendants.map Node.id ++ []) :=
    walks_descendants t.root (fun _ hn => getElem?_arena hn) .done
  rw [List.append_nil] at hwalk
  constructor
  · exact fun h => h.unique hwalk
  · rintro rfl
    exact hwalk

end Arena

/-! ## Where the nodes of a walk begin -/

namespace Tree

mutual

/-- The nodes below a tree, every node before its children, begin one behind the other, between the
first and the last character of its text. -/
theorem starts_place : (t : Tree) → (id pos : Nat) →
    (t.place id pos).descendants.Pairwise (fun a b => a.start ≤ b.start) ∧
      ∀ n ∈ (t.place id pos).descendants,
        (t.place id pos).start ≤ n.start ∧ n.start ≤ (t.place id pos).stop
  | leaf f kind gap text, id, pos => by
    have hle := place_start_le_stop (leaf f kind gap text) id pos
    rw [Node.descendants_eq, place_children, children, placeAll_nil, Node.descendantsOfAll]
    exact ⟨List.pairwise_singleton _ _, List.forall_mem_singleton.2 ⟨Nat.le_refl _, hle⟩⟩
  | node f kind ts, id, pos => by
    obtain ⟨hpairwise, hbounds⟩ := starts_placeAll ts id pos
    have hle := place_start_le_stop (node f kind ts) id pos
    have hbelow : ∀ n ∈ Node.descendantsOfAll (placeAll id pos ts),
        ((node f kind ts).place id pos).start ≤ n.start ∧
          n.start ≤ ((node f kind ts).place id pos).stop := by
      rw [place_start, place_stop, gap, source]
      exact hbounds
    rw [Node.descendants_eq, place_children, children]
    exact ⟨.cons (fun n hn => (hbelow n hn).1) hpairwise,
      List.forall_mem_cons.2 ⟨⟨Nat.le_refl _, hle⟩, hbelow⟩⟩

/-- The nodes below some trees, every node before its children, begin one behind the other, between
the first and the last character of their text. -/
theorem starts_placeAll : (ts : List Tree) → (id pos : Nat) →
    (Node.descendantsOfAll (placeAll id pos ts)).Pairwise (fun a b => a.start ≤ b.start) ∧
      ∀ n ∈ Node.descendantsOfAll (placeAll id pos ts),
        pos + byteLength (gaps ts) ≤ n.start ∧ n.start ≤ pos + byteLength (sources ts)
  | [], _, _ => ⟨.nil, List.forall_mem_nil _⟩
  | t :: ts, id, pos => by
    obtain ⟨hfirst, hfirstBounds⟩ := starts_place t id pos
    obtain ⟨hmore, hmoreBounds⟩ := starts_placeAll ts (id + t.size) (pos + byteLength t.source)
    have hle := place_start_le_stop t id pos
    simp only [place_start, place_stop] at hfirstBounds hle
    simp only [gaps, sources, byteLength_append]
    rw [placeAll_cons, Node.descendantsOfAll]
    -- The first tree ends before the others begin.
    refine ⟨List.pairwise_append.2 ⟨hfirst, hmore, fun a ha b hb => ?_⟩, fun n hn => ?_⟩
    · have hstop := (hfirstBounds a ha).2
      have hstart := (hmoreBounds b hb).1
      omega
    · rcases List.mem_append.1 hn with hn | hn
      · have hn := hfirstBounds n hn
        omega
      · have hn := hmoreBounds n hn
        omega

end

end Tree

/-! ## The table of parents -/

namespace Node

/-- What a sweep through some nodes writes: for the number of every child that of its parent. -/
def writes (ns : List Node) : List (Nat × Nat) :=
  ns.flatMap fun n => n.children.map fun c => (c.id, n.id)

/-- A table after some writes. -/
def fill (table : Array (Option Nat)) (ws : List (Nat × Nat)) : Array (Option Nat) :=
  ws.foldl (fun table w => table.setIfInBounds w.1 (some w.2)) table

/-- The table of parents is filled by a sweep through the nodes. -/
theorem parents_eq_fill (root : Node) :
    root.parents = fill (Array.replicate (root.id + 1) none) (writes root.numbered) := by
  rw [parents, fill, writes, List.foldl_flatMap]
  simp only [List.foldl_map]

/-- No write changes the size of a table. -/
theorem size_fill (table : Array (Option Nat)) (ws : List (Nat × Nat)) :
    (fill table ws).size = table.size := by
  induction ws generalizing table with
  | nil => rfl
  | cons w ws ih => rw [fill, List.foldl_cons, ← fill, ih, Array.size_setIfInBounds]

/-- An entry to which nothing is written stays as it was. -/
theorem getElem?_fill_of_notMem {table : Array (Option Nat)} {ws : List (Nat × Nat)} {i : Nat}
    (h : i ∉ ws.map Prod.fst) : (fill table ws)[i]? = table[i]? := by
  induction ws generalizing table with
  | nil => rfl
  | cons w ws ih =>
    rw [List.map_cons, List.mem_cons, not_or] at h
    rw [fill, List.foldl_cons, ← fill, ih h.2, Array.getElem?_setIfInBounds_ne (Ne.symm h.1)]

/-- An entry to which one value is written has this value. -/
theorem getElem?_fill_of_mem {table : Array (Option Nat)} {ws : List (Nat × Nat)} {w : Nat × Nat}
    (hnodup : (ws.map Prod.fst).Nodup) (hw : w ∈ ws) (hsize : w.1 < table.size) :
    (fill table ws)[w.1]? = some (some w.2) := by
  induction ws generalizing table with
  | nil => cases hw
  | cons v ws ih =>
    obtain ⟨hfirst, hmore⟩ := List.nodup_cons.1 hnodup
    rw [fill, List.foldl_cons, ← fill]
    rcases List.mem_cons.1 hw with rfl | hw
    · rw [getElem?_fill_of_notMem hfirst, Array.getElem?_setIfInBounds_self_of_lt hsize]
    · exact ih hmore hw (by rwa [Array.size_setIfInBounds])

/-- What is written in a sweep through some nodes is the number of the parent of each child. -/
theorem mem_writes {ns : List Node} {w : Nat × Nat} :
    w ∈ writes ns ↔ ∃ p ∈ ns, ∃ c ∈ p.children, w = (c.id, p.id) := by
  simp [writes, eq_comm]

/-- A sweep writes for the number of every child. -/
theorem map_fst_writes (ns : List Node) :
    (writes ns).map Prod.fst = (ns.flatMap children).map Node.id := by
  simp [writes, List.map_flatMap, Function.comp_def]

end Node

/-- The walks through a tree with the root `root` agree with the tree. -/
structure Traversed (root : Node) : Prop where
  /-- A walk with a stack through the arena lists the nodes, every node before its children. -/
  walk : ∀ ids, Arena.Walks (arena [root.tree]) [root.id] ids ↔
    ids = root.descendants.map Node.id
  /-- It lists each number once. -/
  once : (root.descendants.map Node.id).Perm (List.range root.numbered.length)
  /-- No node begins before one that is listed earlier. -/
  ordered : root.descendants.Pairwise fun a b => a.start ≤ b.start
  /-- The table of parents has an entry for every number. -/
  size : root.parents.size = root.numbered.length
  /-- The root has no parent. -/
  root_parent : root.parents[root.id]? = some none
  /-- Every other node is the child of one node, whose number is its entry in the table. -/
  parent : ∀ n ∈ root.descendants, n ≠ root → ∃ p ∈ root.descendants,
    (∀ q ∈ root.descendants, n ∈ q.children ↔ q = p) ∧ root.parents[n.id]? = some (some p.id)
  /-- Going from parent to parent leads to the root. -/
  reaches : ∀ n ∈ root.descendants,
    Relation.ReflTransGen (fun i j => root.parents[i]? = some (some j)) n.id root.id

namespace Numbered

variable {root : Node}

/-- No two nodes have one number. -/
theorem ids_nodup (h : Numbered root) : (root.descendants.map Node.id).Nodup :=
  h.once.nodup_iff.2 List.nodup_range

/-- A node is known by its number. -/
theorem eq_of_id (h : Numbered root) {n m : Node} (hn : n ∈ root.descendants)
    (hm : m ∈ root.descendants) (hid : n.id = m.id) : n = m :=
  List.inj_on_of_nodup_map h.ids_nodup hn hm hid

/-- No number is greater than that of the root. -/
theorem id_le (h : Numbered root) {n : Node} (hn : n ∈ root.descendants) : n.id ≤ root.id := by
  have hmem := h.once.mem_iff.1 (List.mem_map_of_mem hn)
  rw [List.mem_range, ← h.last] at hmem
  omega

/-- The nodes of a tree are the root and the children of its nodes. -/
theorem ids_perm (h : Numbered root) :
    (root.id :: (Node.writes root.numbered).map Prod.fst).Nodup := by
  have hperm := (Node.descendants_perm_cons root).trans
    ((root.descendants_perm.flatMap_right Node.children).cons root)
  rw [Node.map_fst_writes, ← List.map_cons]
  exact (hperm.map Node.id).nodup_iff.1 h.ids_nodup

/-- The table of parents has no parent of the root. -/
theorem parents_root (h : Numbered root) : root.parents[root.id]? = some none := by
  rw [Node.parents_eq_fill, Node.getElem?_fill_of_notMem (List.nodup_cons.1 h.ids_perm).1]
  simp

/-- The table of parents has the parent of every child. -/
theorem parents_child (h : Numbered root) {p c : Node} (hp : p ∈ root.descendants)
    (hc : c ∈ p.children) : root.parents[c.id]? = some (some p.id) := by
  have hle := h.id_le (Node.mem_descendants_of_child hp hc)
  have hwrite : (c.id, p.id) ∈ Node.writes root.numbered :=
    Node.mem_writes.2 ⟨p, root.descendants_perm.mem_iff.1 hp, c, hc, rfl⟩
  rw [Node.parents_eq_fill]
  refine Node.getElem?_fill_of_mem (List.nodup_cons.1 h.ids_perm).2 hwrite ?_
  rw [Array.size_replicate]
  exact Nat.lt_succ_of_le hle

/-- Every node but the root is the child of one node, and the table has that. -/
theorem exists_parent (h : Numbered root) {n : Node} (hn : n ∈ root.descendants) (hne : n ≠ root) :
    ∃ p ∈ root.descendants, (∀ q ∈ root.descendants, n ∈ q.children ↔ q = p) ∧
      root.parents[n.id]? = some (some p.id) := by
  obtain ⟨p, hp, hchild⟩ := (Node.exists_parent hn).resolve_left hne
  refine ⟨p, hp, fun q hq => ⟨fun hother => ?_, ?_⟩, h.parents_child hp hchild⟩
  · have hentry := (h.parents_child hq hother).symm.trans (h.parents_child hp hchild)
    exact h.eq_of_id hq hp (by simpa using hentry)
  · rintro rfl
    exact hchild

/-- Going from parent to parent leads to the root, since the numbers grow. -/
theorem reaches (h : Numbered root) {n : Node} (hn : n ∈ root.descendants) :
    Relation.ReflTransGen (fun i j => root.parents[i]? = some (some j)) n.id root.id := by
  induction hk : root.id - n.id using Nat.strong_induction_on generalizing n with
  | h k ih =>
    by_cases hroot : n = root
    · rw [hroot]
    · obtain ⟨p, hp, hchild, hentry⟩ := h.exists_parent hn hroot
      have hlt := (h.children p hp).2 n ((hchild p hp).2 rfl)
      have hle := h.id_le hp
      exact .head hentry (ih (root.id - p.id) (by omega) hp rfl)

end Numbered

/-- The walks through a tree agree with it. -/
theorem Tree.root_traversed (t : Tree) : Traversed t.root where
  walk ids := by
    have htree : t.root.tree = t := place_tree t 0 0
    rw [htree]
    exact Arena.walks_iff t ids
  once := t.root_numbered.once
  ordered := (starts_place t 0 0).1
  size := by
    rw [Node.parents_eq_fill, Node.size_fill, Array.size_replicate, t.root_numbered.last]
  root_parent := t.root_numbered.parents_root
  parent _ hn hne := t.root_numbered.exists_parent hn hne
  reaches _ hn := t.root_numbered.reaches hn

/-- The walks through a template's tree agree with it: they list every node once, before its
children and in the order of the source, and they find the parent of every node but the root. -/
theorem Template.parse_traversed (options : Options) (source : Input) :
    Traversed (parse options source).tree.root :=
  (parse options source).tree.root_traversed

end Stencil
