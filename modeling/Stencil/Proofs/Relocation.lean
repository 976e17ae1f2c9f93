import Stencil.Template
import Stencil.Tree.Place

/-!
# Sources that are moved

What stands in a source stands in every source that goes on with it too, at places that lie further
on by as many bytes as come before it. The nodes are the same (`Tree.placeAll_shift`), with numbers
that are greater by as many as there are nodes before them, and so are the diagnostics
(`Template.arrange_shift`). Those of two sources, one after the other, are arranged apart if none of
the first lies behind one of the second or is equal to one (`Template.arrange_append`).
-/

namespace Stencil

/-! ## Nodes -/

mutual

/-- A node with all below it, `b` bytes further on and with numbers that are greater by `k`. -/
def Node.shift (k b : Nat) : Node → Node
  | ⟨id, start, stop, tree, ns⟩ => ⟨id + k, start + b, stop + b, tree, shiftAll k b ns⟩

/-- Some nodes with all below them, `b` bytes further on and with numbers that are greater by
`k`. -/
def Node.shiftAll (k b : Nat) : List Node → List Node
  | [] => []
  | n :: ns => n.shift k b :: shiftAll k b ns

end

namespace Node

variable (k b : Nat)

/-- Moving some nodes is moving each of them. -/
theorem shiftAll_eq_map (ns : List Node) : shiftAll k b ns = ns.map (shift k b) := by
  induction ns with
  | nil => rfl
  | cons n ns ih => rw [shiftAll, ih, List.map_cons]

/-- A node that is moved has a greater number. -/
@[simp]
theorem shift_id (n : Node) : (n.shift k b).id = n.id + k := by
  cases n
  rfl

/-- A node that is moved begins further on. -/
@[simp]
theorem shift_start (n : Node) : (n.shift k b).start = n.start + b := by
  cases n
  rfl

/-- A node that is moved ends further on. -/
@[simp]
theorem shift_stop (n : Node) : (n.shift k b).stop = n.stop + b := by
  cases n
  rfl

/-- A node that is moved has the same tree. -/
@[simp]
theorem shift_tree (n : Node) : (n.shift k b).tree = n.tree := by
  cases n
  rfl

/-- The children of a node move with it. -/
@[simp]
theorem shift_children (n : Node) : (n.shift k b).children = n.children.map (shift k b) := by
  cases n
  exact shiftAll_eq_map k b _

end Node

namespace Tree

mutual

/-- A tree that is placed elsewhere has the same nodes, which are moved. -/
theorem place_shift (k b : Nat) : ∀ (t : Tree) (id pos : Nat),
    t.place (id + k) (pos + b) = (t.place id pos).shift k b
  | leaf .., id, pos => by
    simp only [place, Node.shift, Node.shiftAll, Node.mk.injEq, true_and, and_true]
    omega
  | node _ _ ts, id, pos => by
    have hts := placeAll_shift k b ts id pos
    rw [place, place, hts, Node.shift, Node.shiftAll_eq_map, List.head?_map, List.getLast?_map]
    cases (placeAll id pos ts).head? <;> cases (placeAll id pos ts).getLast? <;>
      simp [Nat.add_right_comm]

/-- Trees in a row that are placed elsewhere have the same nodes, which are moved. -/
theorem placeAll_shift (k b : Nat) : ∀ (ts : List Tree) (id pos : Nat),
    placeAll (id + k) (pos + b) ts = (placeAll id pos ts).map (Node.shift k b)
  | [], _, _ => rfl
  | t :: ts, id, pos => by
    have hts := placeAll_shift k b ts (id + t.size) (pos + byteLength t.source)
    rw [placeAll_cons, placeAll_cons, place_shift k b t id pos, List.map_cons, ← hts,
      Nat.add_right_comm id, Nat.add_right_comm pos]

end

/-- The nodes of trees that stand after others are those that they would have alone, moved behind
the nodes and the characters of the others. -/
theorem placeAll_append_shift (as bs : List Tree) :
    placeAll 0 0 (as ++ bs) = placeAll 0 0 as ++
      (placeAll 0 0 bs).map (Node.shift (sizes as) (byteLength (sources as))) := by
  rw [placeAll_append, placeAll_shift]

end Tree

/-! ## Diagnostics -/

/-- A diagnostic `b` bytes further on. -/
def Diagnostic.shift (b : Nat) (d : Diagnostic) : Diagnostic := { d with pos := d.pos + b }

/-- A fault of the end of a source is one of the source, further on by what comes before that
end. -/
theorem Fault.diagnose_shift {f : Fault} {rest : Input} (h : f.found <:+ rest) (b : Nat) :
    f.diagnose (b + byteLength rest) = (f.diagnose (byteLength rest)).shift b := by
  obtain ⟨before, rfl⟩ := h
  simp only [diagnose, Diagnostic.shift, offset, byteLength_append, Diagnostic.mk.injEq, true_and]
  omega

namespace Template

/-- The order of diagnostics is transitive. -/
theorem pos_le_trans (a b c : Diagnostic) (hab : decide (a.pos ≤ b.pos) = true)
    (hbc : decide (b.pos ≤ c.pos) = true) : decide (a.pos ≤ c.pos) = true := by
  rw [decide_eq_true_eq] at *
  omega

/-- The order of diagnostics is total. -/
theorem pos_le_total (a b : Diagnostic) :
    (decide (a.pos ≤ b.pos) || decide (b.pos ≤ a.pos)) = true := by
  simpa using Nat.le_total a.pos b.pos

/-- A list has one split between what satisfies a test and what does not. -/
theorem eq_of_append_eq_append {α : Type} {p : α → Bool} {as bs cs ds : List α}
    (h : as ++ bs = cs ++ ds) (has : ∀ a ∈ as, p a = true) (hbs : ∀ b ∈ bs, p b = false)
    (hcs : ∀ c ∈ cs, p c = true) (hds : ∀ d ∈ ds, p d = false) : as = cs ∧ bs = ds := by
  have hfilter : (as ++ bs).filter p = (cs ++ ds).filter p := by rw [h]
  have hbs' : bs.filter p = [] := List.filter_eq_nil_iff.2 fun b hb => by simp [hbs b hb]
  have hds' : ds.filter p = [] := List.filter_eq_nil_iff.2 fun d hd => by simp [hds d hd]
  rw [List.filter_append, List.filter_append, List.filter_eq_self.2 has, List.filter_eq_self.2 hcs,
    hbs', hds', List.append_nil, List.append_nil] at hfilter
  subst hfilter
  exact ⟨rfl, List.append_cancel_left h⟩

/-- Diagnostics of which none of the first lies behind one of the others are sorted apart. -/
theorem mergeSort_append {as bs : List Diagnostic} (h : ∀ a ∈ as, ∀ b ∈ bs, a.pos ≤ b.pos) :
    (as ++ bs).mergeSort (fun a b => a.pos ≤ b.pos) =
      as.mergeSort (fun a b => a.pos ≤ b.pos) ++ bs.mergeSort (fun a b => a.pos ≤ b.pos) := by
  induction as with
  | nil => rw [List.nil_append, List.mergeSort_nil, List.nil_append]
  | cons a as ih =>
    have ih := ih fun a' ha' => h a' (List.mem_cons_of_mem a ha')
    -- The first diagnostic goes before the first one that does not lie before it.
    obtain ⟨before, after, hsorted, hrest, hbefore⟩ :=
      List.mergeSort_cons pos_le_trans pos_le_total a (as ++ bs)
    obtain ⟨before', after', hsorted', hrest', hbefore'⟩ :=
      List.mergeSort_cons pos_le_trans pos_le_total a as
    have hafter : ∀ d ∈ after, a.pos ≤ d.pos := by
      have hpairwise := List.pairwise_mergeSort pos_le_trans pos_le_total (a :: (as ++ bs))
      rw [hsorted, List.pairwise_append] at hpairwise
      simpa using (List.pairwise_cons.1 hpairwise.2.1).1
    have hafter' : ∀ d ∈ after' ++ bs.mergeSort (fun a b => a.pos ≤ b.pos), a.pos ≤ d.pos := by
      intro d hd
      rcases List.mem_append.1 hd with hd | hd
      · have hpairwise := List.pairwise_mergeSort pos_le_trans pos_le_total (a :: as)
        rw [hsorted', List.pairwise_append] at hpairwise
        simpa using (List.pairwise_cons.1 hpairwise.2.1).1 d hd
      · exact h a List.mem_cons_self d (List.mem_mergeSort.1 hd)
    have hsplit : before ++ after =
        before' ++ (after' ++ bs.mergeSort (fun a b => a.pos ≤ b.pos)) := by
      rw [← hrest, ih, hrest', List.append_assoc]
    obtain ⟨rfl, rfl⟩ := eq_of_append_eq_append (p := fun d => !decide (a.pos ≤ d.pos)) hsplit
      hbefore (by simpa using hafter) hbefore' (by simpa using hafter')
    rw [List.cons_append, hsorted, hsorted', List.append_assoc, List.cons_append]

/-- Repetitions are left out apart, if the rows have no member in common. -/
theorem dropRepeats_append {α : Type} [DecidableEq α] {as bs : List α}
    (h : ∀ a ∈ as, ∀ b ∈ bs, a ≠ b) :
    dropRepeats (as ++ bs) = dropRepeats as ++ dropRepeats bs := by
  fun_induction dropRepeats as with
  | case1 b l ih =>
    rw [List.cons_append, List.cons_append, dropRepeats, if_pos rfl, ← List.cons_append]
    exact ih fun a ha => h a (List.mem_cons_of_mem b ha)
  | case2 a b l hne ih =>
    rw [List.cons_append, List.cons_append, dropRepeats, if_neg hne, ← List.cons_append,
      ih fun c hc => h c (List.mem_cons_of_mem a hc), List.cons_append]
  | case3 as hshort =>
    rcases as with _ | ⟨a, _ | ⟨b, l⟩⟩
    · rfl
    · rcases bs with _ | ⟨b, bs⟩
      · rfl
      · have hne : a ≠ b := h a List.mem_cons_self b List.mem_cons_self
        rw [List.singleton_append, dropRepeats, if_neg hne, List.singleton_append]
    · exact absurd rfl (hshort a b l)

/-- Diagnostics in two rows are arranged apart, if none of the first lies behind one of the others
or is equal to one. -/
theorem arrange_append {as bs : List Diagnostic}
    (h : ∀ a ∈ as, ∀ b ∈ bs, a.pos ≤ b.pos ∧ a ≠ b) :
    arrange (as ++ bs) = arrange as ++ arrange bs := by
  rw [arrange, mergeSort_append fun a ha b hb => (h a ha b hb).1, dropRepeats_append]
  · rfl
  · intro a ha b hb
    exact (h a (List.mem_mergeSort.1 ha) b (List.mem_mergeSort.1 hb)).2

/-- Leaving out repetitions commutes with a map that keeps members apart. -/
theorem dropRepeats_map {α β : Type} [DecidableEq α] [DecidableEq β] {f : α → β}
    (hf : ∀ {a b}, f a = f b → a = b) (l : List α) :
    dropRepeats (l.map f) = (dropRepeats l).map f := by
  fun_induction dropRepeats l with
  | case1 b l ih =>
    rw [List.map_cons, List.map_cons, dropRepeats, if_pos rfl, ← List.map_cons, ih]
  | case2 a b l hne ih =>
    have hne' : f a ≠ f b := fun h => hne (hf h)
    rw [List.map_cons, List.map_cons, dropRepeats, if_neg hne', ← List.map_cons, ih, List.map_cons]
  | case3 l hshort =>
    rcases l with _ | ⟨a, _ | ⟨b, l⟩⟩
    · rfl
    · rfl
    · exact absurd rfl (hshort a b l)

/-- Diagnostics that are moved are arranged as they were. -/
theorem arrange_shift (b : Nat) (found : List Diagnostic) :
    arrange (found.map (Diagnostic.shift b)) = (arrange found).map (Diagnostic.shift b) := by
  have hinjective : ∀ {d e : Diagnostic}, d.shift b = e.shift b → d = e := by
    intro d e h
    cases d
    cases e
    simpa [Diagnostic.shift] using h
  have hsorted := List.map_mergeSort (r := fun d e : Diagnostic => decide (d.pos ≤ e.pos))
    (s := fun d e : Diagnostic => decide (d.pos ≤ e.pos)) (f := Diagnostic.shift b) (l := found)
    fun d _ e _ => by simp [Diagnostic.shift]
  rw [arrange, arrange, ← hsorted, dropRepeats_map hinjective]

end Template

end Stencil
