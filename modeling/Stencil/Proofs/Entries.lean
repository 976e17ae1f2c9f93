import Stencil.Proofs.Machine
import Stencil.Proofs.Numbering
import Stencil.Proofs.Substitution

/-!
# Trees in the arena

What the arena of a machine holds of a tree are the nodes of the tree, each after its children
(`Tree.entries`), and a tree that waits for its parent is known by the number of its root
(`Tree.links`). A tree is stored before its parent tells it its field, so that what is stored may
differ in the fields of the trees that wait (`Tree.bare`); telling the fields makes it what it is to
be (`Machine.assign_entries`).
-/

namespace Stencil

/-- What the arena holds of a node. -/
def Node.entry (n : Node) : Entry := ⟨n.field, n.kind, n.start, n.stop, n.children.map Node.id⟩

namespace Tree

variable {t u : Tree} {ts us : List Tree} (id pos : Nat)

/-- What the arena holds of some trees in a row: the first node is numbered `id`, and the blanks
before the trees begin at byte `pos`. -/
def entries (ts : List Tree) : List Entry := (Node.numberedAll (placeAll id pos ts)).map Node.entry

/-- The number of the root of a tree whose first node is numbered `id`. -/
def top (t : Tree) : Nat := id + sizes t.children

/-- The links of some trees in a row, of which the first node is numbered `id`. -/
def links (id : Nat) : List Tree → List Link
  | [] => []
  | t :: ts => (t.field, t.top id) :: links (id + t.size) ts

/-- Some trees without the fields under which they are held. -/
def bare (ts : List Tree) : List Tree := ts.map (under none)

/-! ## Numbers -/

/-- The nodes of a tree are its root and those of its children. -/
theorem size_eq (t : Tree) : t.size = sizes t.children + 1 := by
  cases t <;> rfl

/-- The root of a tree has the last number. -/
theorem place_id_eq (t : Tree) : (t.place id pos).id = t.top id := by
  have h := place_id t id pos
  rw [size_eq] at h
  rw [top]
  omega

/-- The links of some trees tell the numbers of their roots. -/
theorem links_ids (ts : List Tree) :
    (links id ts).map Prod.snd = (placeAll id pos ts).map Node.id := by
  induction ts generalizing id pos with
  | nil => rfl
  | cons t ts ih =>
    rw [links, placeAll_cons, List.map_cons, List.map_cons, ih, place_id_eq]

/-- The numbers of the roots are numbers of nodes of the trees. -/
theorem links_lt {link : Link} (h : link ∈ links id ts) : link.2 < id + sizes ts := by
  induction ts generalizing id with
  | nil => cases h
  | cons t ts ih =>
    have hsize := size_eq t
    rw [sizes]
    rcases List.mem_cons.1 h with rfl | h
    · show t.top id < _
      rw [top]
      omega
    · have hlt := ih _ h
      omega

/-- The links of trees in two rows are those of the one and then those of the other. -/
theorem links_append (as bs : List Tree) :
    links id (as ++ bs) = links id as ++ links (id + sizes as) bs := by
  induction as generalizing id with
  | nil => rfl
  | cons t ts ih => rw [List.cons_append, links, ih, links, sizes, Nat.add_assoc, List.cons_append]

/-! ## Entries -/

/-- No trees have no entries. -/
@[simp]
theorem entries_nil : entries id pos [] = [] := rfl

/-- The entries of trees in two rows are those of the one and then those of the other. -/
theorem entries_append (as bs : List Tree) :
    entries id pos (as ++ bs) =
      entries id pos as ++ entries (id + sizes as) (pos + byteLength (sources as)) bs := by
  rw [entries, placeAll_append, Node.numberedAll_append, List.map_append, entries, entries]

/-- The entry of a tree comes after those of its children. -/
theorem entries_singleton (t : Tree) :
    entries id pos [t] = entries id pos t.children ++ [(t.place id pos).entry] := by
  rw [entries, placeAll_cons, placeAll_nil, Node.numberedAll, Node.numberedAll, List.append_nil,
    Node.numbered_eq, place_children, List.map_append, List.map_singleton, entries]

/-- The entries of some trees are those of the first and then those of the others. -/
theorem entries_cons (t : Tree) (ts : List Tree) :
    entries id pos (t :: ts) =
      entries id pos [t] ++ entries (id + t.size) (pos + byteLength t.source) ts := by
  have h := entries_append id pos [t] ts
  rwa [sizes, sizes, sources, sources, List.append_nil, Nat.add_zero] at h

/-- There are as many entries as nodes. -/
@[simp]
theorem length_entries (ts : List Tree) : (entries id pos ts).length = sizes ts := by
  have h := congrArg List.length (numberedAll_place_ids ts id pos)
  rwa [List.length_map, List.length_range', ← List.length_map (f := Node.entry)] at h

/-- The entry of a tree that is held under another field. -/
theorem entry_under (t : Tree) (f : Option Field) :
    ((t.under f).place id pos).entry = { (t.place id pos).entry with field := f } := by
  cases t <;> rfl

/-- The children of a tree do not depend on its field. -/
@[simp]
theorem children_under (t : Tree) (f : Option Field) : (t.under f).children = t.children := by
  cases t <;> rfl

/-- The entry of a tree in a row is found at the number of its root. -/
theorem getElem?_entries (held : List Entry) (as bs : List Tree) (t : Tree) :
    (held ++ entries held.length pos (as ++ t :: bs))[t.top (held.length + sizes as)]? =
      some (t.place (held.length + sizes as) (pos + byteLength (sources as))).entry := by
  have hlength : (held ++ (entries held.length pos as ++ entries (held.length + sizes as)
      (pos + byteLength (sources as)) t.children)).length = t.top (held.length + sizes as) := by
    simp [top, Nat.add_assoc]
  rw [entries_append, entries_cons, entries_singleton, List.append_assoc (entries _ _ t.children),
    ← List.append_assoc (entries _ _ as), ← List.append_assoc held, ← hlength,
    List.getElem?_append_right (Nat.le_refl _), Nat.sub_self]
  rfl

/-- The entry of the root of each tree in a row is found at its number. -/
theorem getElem?_of_mem_placeAll (held behind : List Entry) {n : Node}
    (h : n ∈ placeAll held.length pos ts) :
    (held ++ entries held.length pos ts ++ behind)[n.id]? = some n.entry := by
  induction ts generalizing held pos with
  | nil => cases h
  | cons t ts ih =>
    have hlength : (held ++ entries held.length pos [t]).length = held.length + t.size := by
      rw [List.length_append, length_entries]
      rfl
    rw [placeAll_cons] at h
    rcases List.mem_cons.1 h with rfl | h
    · have hfound : (held ++ entries held.length pos (t :: ts))[t.top held.length]? =
          some (t.place held.length pos).entry := getElem?_entries pos held [] ts t
      rw [place_id_eq, List.getElem?_append_left (List.getElem?_eq_some_iff.1 hfound).1, hfound]
    · rw [← hlength] at h
      have hfound := ih _ _ h
      rwa [hlength, List.append_assoc held, ← entries_cons] at hfound

/-! ## Fields -/

/-- Trees that differ in the fields under which they are held are alike in all else. -/
theorem alike_of_under (h : u.under none = t.under none) :
    u.children = t.children ∧ u.size = t.size ∧ u.source = t.source ∧
      ∀ id pos, (t.place id pos).entry = { (u.place id pos).entry with field := t.field } := by
  have ht : t = u.under t.field := by
    have h := congrArg (under t.field) h
    rw [under_under, under_under] at h
    rw [h]
    cases t <;> rfl
  refine ⟨?_, ?_, ?_, fun id pos => ?_⟩
  · rw [ht, children_under]
  · rw [ht, size_under]
  · rw [ht, source_under]
  · rw [← entry_under, ← ht]

/-- Rows that differ in the fields under which their trees are held have as many nodes, and the same
characters. -/
theorem alike_of_bare (h : bare us = bare ts) :
    sizes us = sizes ts ∧ sources us = sources ts ∧ us.length = ts.length := by
  induction us generalizing ts with
  | nil =>
    rw [List.map_eq_nil_iff.1 h.symm]
    exact ⟨rfl, rfl, rfl⟩
  | cons u us ih =>
    cases ts with
    | nil => cases h
    | cons t ts =>
      obtain ⟨hhead, htail⟩ := List.cons.inj h
      obtain ⟨-, hsize, hsource, -⟩ := alike_of_under hhead
      obtain ⟨hsizes, hsources, hlength⟩ := ih htail
      rw [sizes, sizes, sources, sources, hsize, hsource, hsizes, hsources]
      exact ⟨rfl, rfl, congrArg (· + 1) hlength⟩

/-- A tree that waits is found at the number of its root, as yet under any field. -/
theorem exists_getElem?_entries (held : List Entry) {as bs : List Tree}
    (h : bare us = bare (as ++ t :: bs)) :
    ∃ f, (held ++ entries held.length pos us)[t.top (held.length + sizes as)]? =
      some { (t.place (held.length + sizes as) (pos + byteLength (sources as))).entry with
        field := f } := by
  rw [bare, bare, List.map_append, List.map_cons] at h
  obtain ⟨as', us', rfl, has, hus'⟩ := List.map_eq_append_iff.1 h
  obtain ⟨u, bs', rfl, hu, -⟩ := List.map_eq_cons_iff.1 hus'
  obtain ⟨hsizes, hsources, -⟩ := alike_of_bare has
  obtain ⟨hchildren, -, -, hentry⟩ := alike_of_under hu
  have hfound := getElem?_entries pos held as' bs' u
  rw [hsizes, hsources, top, hchildren, ← top] at hfound
  refine ⟨u.field, hfound.trans (congrArg some ?_)⟩
  rw [hentry]
  cases u <;> rfl

/-- The first of the trees that wait is found at the number of its root. -/
theorem exists_getElem?_head (held : List Entry) (h : bare us = bare (t :: ts)) :
    ∃ f, (held ++ entries held.length pos us)[t.top held.length]? =
      some { (t.place held.length pos).entry with field := f } := by
  rw [← List.nil_append (t :: ts)] at h
  exact exists_getElem?_entries pos held h

/-- Two rows lose the fields one by one. -/
theorem bare_append (as bs : List Tree) : bare (as ++ bs) = bare as ++ bare bs := List.map_append

/-- A tree is known by its root whatever its field is. -/
theorem top_under (t : Tree) (f : Option Field) : (t.under f).top id = t.top id := by
  rw [top, top, children_under]

end Tree

namespace Machine

/-- Changing a member behind some others leaves these as they are. -/
theorem modify_behind {α : Type} (f : α → α) (as bs : List α) {i : Nat} (h : as.length ≤ i) :
    (as ++ bs).modify i f = as ++ bs.modify (i - as.length) f := by
  induction as generalizing i with
  | nil => rfl
  | cons a as ih =>
    cases i with
    | zero => cases h
    | succ i =>
      rw [List.cons_append, List.modify_succ_cons, ih (Nat.le_of_succ_le_succ h), List.length_cons,
        Nat.add_sub_add_right, List.cons_append]

/-- Trees that wait become what they are to be by being told their fields. What was there before
stays as it is. -/
theorem assign_entries (held : List Entry) (pos : Nat) {us ts : List Tree}
    (h : Tree.bare us = Tree.bare ts) :
    assign (held ++ Tree.entries held.length pos us) (Tree.links held.length ts) =
      held ++ Tree.entries held.length pos ts := by
  induction ts generalizing held pos us with
  | nil =>
    rw [List.map_eq_nil_iff.1 h]
    rfl
  | cons t ts ih =>
    cases us with
    | nil => cases h
    | cons u us =>
      obtain ⟨hhead, htail⟩ := List.cons.inj h
      obtain ⟨hchildren, hsize, hsource, hentry⟩ := Tree.alike_of_under hhead
      have hlength : t.top held.length =
          (held ++ Tree.entries held.length pos t.children).length := by
        rw [Tree.top, List.length_append, Tree.length_entries]
      -- The first tree is what it is to be, and the others are told their fields behind it.
      have hfirst : (held ++ Tree.entries held.length pos (u :: us)).modify (t.top held.length)
            (fun e => { e with field := t.field }) =
          (held ++ Tree.entries held.length pos [t]) ++
            Tree.entries (held.length + t.size) (pos + byteLength t.source) us := by
        rw [Tree.entries_cons, Tree.entries_singleton, hchildren, List.append_assoc,
          ← List.append_assoc held, hlength, List.singleton_append, modify_behind _ _ _ le_rfl,
          Nat.sub_self, List.modify_zero_cons, ← hentry, hsize, hsource, Tree.entries_singleton]
        simp
      have hlinks : held.length + t.size =
          (held ++ Tree.entries held.length pos [t]).length := by
        rw [List.length_append, Tree.length_entries]
        rfl
      rw [Tree.links, assign, hfirst, hlinks, ih _ _ htail, ← hlinks, Tree.entries_cons _ _ _ ts,
        List.append_assoc]

end Machine

end Stencil
