import Mathlib.Data.List.Nodup
import Stencil.Proofs.Items
import Stencil.Tree.Place

/-!
# How the nodes of a template are numbered

A node has the number of its place among all nodes when every node comes after its children. So the
numbers below that of the root are each given once, and a node is found by its number. The children
that a node has by these numbers are those of its tree, and so they fill the places of a production
of its kind: each is held under the field that the production has for its place.
-/

namespace Stencil

namespace Tree

/-- A tree has a node. -/
theorem size_pos (t : Tree) : 0 < t.size := by
  cases t <;> simp [size]

mutual

/-- The nodes below a tree are numbered without gaps, every node after its children. -/
theorem numbered_place_ids : (t : Tree) → (id pos : Nat) →
    (t.place id pos).numbered.map Node.id = List.range' id t.size
  | leaf .., _, _ => rfl
  | node field kind ts, id, pos => by
    have hchildren := numberedAll_place_ids ts id pos
    have hid := place_id (node field kind ts) id pos
    have hlast : ((node field kind ts).place id pos).id = id + sizes ts := by
      simp only [size] at hid
      omega
    rw [Node.numbered_eq, place_children, List.map_append, children, hchildren, size,
      List.range'_concat, List.map_singleton, hlast, Nat.one_mul]

/-- The nodes below some trees are numbered without gaps, every node after its children. -/
theorem numberedAll_place_ids : (ts : List Tree) → (id pos : Nat) →
    (Node.numberedAll (placeAll id pos ts)).map Node.id = List.range' id (sizes ts)
  | [], _, _ => rfl
  | t :: ts, id, pos => by
    have ht := numbered_place_ids t id pos
    have hts := numberedAll_place_ids ts (id + t.size) (pos + byteLength t.source)
    rw [placeAll_cons, Node.numberedAll, List.map_append, ht, hts, sizes, List.range'_append_1]

end

/-- The nodes of trees in a row have growing numbers. -/
theorem placeAll_ids (ts : List Tree) (id pos : Nat) :
    (placeAll id pos ts).Pairwise (fun a b => a.id < b.id) ∧
      ∀ n ∈ placeAll id pos ts, id ≤ n.id ∧ n.id < id + sizes ts := by
  induction ts generalizing id pos with
  | nil => exact ⟨.nil, nofun⟩
  | cons t ts ih =>
    obtain ⟨hpairwise, hbounds⟩ := ih (id + t.size) (pos + byteLength t.source)
    have hid := place_id t id pos
    have hpos := t.size_pos
    rw [placeAll_cons]
    simp only [sizes]
    refine ⟨.cons (fun n hn => ?_) hpairwise, fun n hn => ?_⟩
    · have hn := hbounds n hn
      omega
    · rcases List.mem_cons.1 hn with rfl | hn
      · omega
      · have hn := hbounds n hn
        omega

end Tree

namespace Node

/-- The nodes of two rows are those of the one and then those of the other. -/
theorem numberedAll_append (as bs : List Node) :
    numberedAll (as ++ bs) = numberedAll as ++ numberedAll bs := by
  induction as with
  | nil => rfl
  | cons n ns ih => rw [List.cons_append, numberedAll, ih, numberedAll, List.append_assoc]

mutual

/-- A tree has the same nodes in both orders. -/
theorem descendants_perm : (n : Node) → n.descendants.Perm n.numbered
  | ⟨id, start, stop, tree, ns⟩ => by
    have hns := descendantsOfAll_perm ns
    rw [descendants, numbered]
    exact (hns.cons _).trans (List.perm_append_singleton _ _).symm

/-- Trees in a row have the same nodes in both orders. -/
theorem descendantsOfAll_perm : (ns : List Node) → (descendantsOfAll ns).Perm (numberedAll ns)
  | [] => .nil
  | n :: ns => (descendants_perm n).append (descendantsOfAll_perm ns)

end

mutual

/-- The nodes below a node are this node and the children of nodes below it. -/
theorem descendants_perm_cons : (n : Node) →
    n.descendants.Perm (n :: n.descendants.flatMap children)
  | ⟨id, start, stop, tree, ns⟩ => by
    rw [descendants, List.flatMap_cons]
    exact (descendantsOfAll_perm_append ns).cons _

/-- The nodes below some nodes are these nodes and the children of nodes below them. -/
theorem descendantsOfAll_perm_append : (ns : List Node) →
    (descendantsOfAll ns).Perm (ns ++ (descendantsOfAll ns).flatMap children)
  | [] => .nil
  | n :: ns => by
    rw [descendantsOfAll, List.flatMap_append]
    exact ((descendants_perm_cons n).append (descendantsOfAll_perm_append ns)).trans
      ((List.perm_append_comm_assoc _ _ _).cons n)

end

/-- A node below another is a child of a node below that, or it is the other. -/
theorem exists_parent {root n : Node} (h : n ∈ root.descendants) :
    n = root ∨ ∃ m ∈ root.descendants, n ∈ m.children := by
  have hmem := root.descendants_perm_cons.mem_iff.1 h
  rwa [List.mem_cons, List.mem_flatMap] at hmem

end Node

/-- The numbers of the nodes below `root` are the places of the nodes in the order in which every
node comes after its children. -/
structure Numbered (root : Node) : Prop where
  /-- The number of a node is its place. -/
  place : ∀ (i : Nat) (h : i < root.numbered.length), root.numbered[i].id = i
  /-- The root has the last number. -/
  last : root.id + 1 = root.numbered.length
  /-- Going down from the root reaches every number once. -/
  once : (root.descendants.map Node.id).Perm (List.range root.numbered.length)
  /-- The numbers of the children of a node grow, and are smaller than its own. -/
  children : ∀ n ∈ root.descendants,
    n.children.Pairwise (fun a b => a.id < b.id) ∧ ∀ c ∈ n.children, c.id < n.id
  /-- A node is found by its number. -/
  found : ∀ n ∈ root.descendants, root.find? n.id = some n

/-- The nodes of a tree are numbered. -/
theorem Tree.root_numbered (t : Tree) : Numbered t.root := by
  have hids : t.root.numbered.map Node.id = List.range' 0 t.size := numbered_place_ids t 0 0
  have hlength : t.root.numbered.length = t.size := by
    have h := congrArg List.length hids
    rwa [List.length_map, List.length_range'] at h
  have honce : (t.root.descendants.map Node.id).Perm (List.range t.root.numbered.length) := by
    rw [hlength, List.range_eq_range', ← hids]
    exact t.root.descendants_perm.map Node.id
  refine ⟨fun i h => ?_, ?_, honce, fun n hn => ?_, fun n hn => ?_⟩
  · -- The numbers of the nodes are `0`, `1` and so on.
    have hi : (t.root.numbered.map Node.id)[i]? = some (0 + 1 * i) := by
      rw [hids]
      exact List.getElem?_range' (hlength ▸ h)
    rw [List.getElem?_map, List.getElem?_eq_getElem h] at hi
    simpa using hi
  · have hid := place_id t 0 0
    rw [hlength, root]
    omega
  · -- A node is a tree that is placed after others.
    obtain ⟨u, number, before, after, rfl, -, -⟩ := mem_descendants_place hn
    rw [place_children]
    obtain ⟨hpairwise, hbounds⟩ :=
      placeAll_ids u.children number (0 + byteLength before)
    refine ⟨hpairwise, fun c hc' => ?_⟩
    have hc := (hbounds c hc').2
    have hid := place_id u number (0 + byteLength before)
    cases u with
    | leaf => cases hc'
    | node field kind ts =>
      simp only [size, children] at hid hc
      omega
  · -- Nodes with one number are one node.
    have hnodup : (t.root.descendants.map Node.id).Nodup := honce.nodup_iff.2 List.nodup_range
    cases hfind : t.root.find? n.id with
    | none =>
      have hne := List.find?_eq_none.1 hfind n hn
      simp at hne
    | some m =>
      have hid : m.id = n.id := by simpa using List.find?_some hfind
      rw [List.inj_on_of_nodup_map hnodup (List.mem_of_find?_eq_some hfind) hn hid]

/-- The nodes below `root` stand where the schema has places for them. -/
structure Slotted (root : Node) : Prop where
  /-- No node holds the root. -/
  unheld : root.field = none
  /-- A node is a token, or its children fill the places of a row that the schema has for its kind:
  each is of the kind of its place, and has the field of its place. -/
  slots : ∀ n ∈ root.descendants,
    (n.kind.isToken = true ∧ n.children = []) ∨ Schema n.kind (n.children.map Node.tree)

/-- The nodes of a tree stand where the schema has places for them, if every tree in it is
formed. -/
theorem Tree.root_slotted {t : Tree} (hfield : t.field = none) (h : t.Every Formed) :
    Slotted t.root := by
  have htree : t.root.tree = t := place_tree t 0 0
  refine ⟨?_, fun n hn => ?_⟩
  · rw [Node.field, htree, hfield]
  · obtain ⟨u, number, before, after, rfl, -, hevery⟩ := mem_descendants_place hn
    have hformed := (hevery Formed h).here
    rw [place_children, placeAll_tree, Node.kind, place_tree]
    cases u with
    | leaf => exact .inl ⟨hformed, rfl⟩
    | node => exact .inr hformed

/-- The nodes of a template are numbered by their places, every node after its children, and no
other numbers are given; and each node is held under the field that the schema has for its place
among the children of its parent. -/
theorem Template.parse_numbered (options : Options) (source : Input) :
    Numbered (parse options source).tree.root ∧ Slotted (parse options source).tree.root := by
  obtain ⟨items, htree, hitems, -⟩ := parse_items options source
  refine ⟨Tree.root_numbered _, ?_⟩
  rw [htree]
  refine Tree.root_slotted rfl ⟨.sourceFile fun t ht => ?_, Tree.everyOf_iff.2 fun t ht => ?_⟩
  · exact ⟨(hitems t ht).kind, (hitems t ht).field⟩
  · exact (hitems t ht).formed

end Stencil
