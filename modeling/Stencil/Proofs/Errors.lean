import Stencil.Proofs.Numbering
import Stencil.Proofs.Relocation
import Stencil.Proofs.Restart
import Stencil.Proofs.Tiling

/-!
# Where the errors of a tree stand

An error is a leaf that stands for what a reader skipped. `Tree.errors` finds the errors in a tree
together with what was skipped, given by what was left to read. Only templates and elements hold
errors: no production has one (`Part.areErrorFree`), so that there is none in a tree of any other
kind (`Tree.errors_eq_nil`). The nodes of kind `error` are those of these errors, at their places
(`Tree.place_errors`).
-/

namespace Stencil

/-- What is left to read where a region ends. -/
def Region.rest (r : Region) : Input := r.start.drop r.text.length

namespace Tree

mutual

/-- The errors in a tree that begins where `s` is left to read. -/
def errors (s : Input) : Tree → List Region
  | leaf _ kind gap text => if kind = .error then [⟨s.drop gap.length, text⟩] else []
  | node _ _ ts => errorsAmong s ts

/-- The errors in some trees in a row that begins where `s` is left to read. -/
def errorsAmong (s : Input) : List Tree → List Region
  | [] => []
  | t :: ts => t.errors s ++ errorsAmong (s.drop t.source.length) ts

end

/-- The errors in two rows are those in the one and then those in the other, which begins where the
first ends. -/
theorem errorsAmong_append {s rest : Input} {as : List Tree} (h : sources as ++ rest = s)
    (bs : List Tree) : errorsAmong s (as ++ bs) = errorsAmong s as ++ errorsAmong rest bs := by
  induction as generalizing s with
  | nil =>
    obtain rfl : rest = s := h
    rfl
  | cons t ts ih =>
    have hdrop : sources ts ++ rest = s.drop t.source.length := by
      rw [← h, sources, List.append_assoc, List.drop_left]
    rw [List.cons_append, errorsAmong, errorsAmong, ih hdrop, List.append_assoc]

mutual

/-- An error stands at an end of what is left to read. -/
theorem start_suffix_of_mem_errors : ∀ {t : Tree} {s : Input} {r : Region}, r ∈ t.errors s →
    r.start <:+ s
  | leaf _ kind gap text, s, r, h => by
    rw [errors] at h
    split at h
    · rw [List.mem_singleton.1 h]
      exact List.drop_suffix _ _
    · cases h
  | node _ _ ts, s, r, h => by
    have h : r ∈ errorsAmong s ts := h
    exact start_suffix_of_mem_errorsAmong h

/-- An error in a row stands at an end of what is left to read. -/
theorem start_suffix_of_mem_errorsAmong : ∀ {ts : List Tree} {s : Input} {r : Region},
    r ∈ errorsAmong s ts → r.start <:+ s
  | [], _, _, h => by cases h
  | t :: ts, s, r, h => by
    rcases List.mem_append.1 h with h | h
    · exact start_suffix_of_mem_errors h
    · exact (start_suffix_of_mem_errorsAmong h).trans (List.drop_suffix _ _)

end

end Tree

/-! ## Kinds without errors -/

/-- Whether trees of a kind hold no errors. -/
def Kind.isErrorFree : Kind → Bool
  | sourceFile | element | error => false
  | _ => true

/-- Expressions hold no errors. -/
theorem Kind.isErrorFree_of_isExpression {kind : Kind} (h : kind.isExpression = true) :
    kind.isErrorFree = true := by
  cases kind <;> first | rfl | cases h

namespace Part

mutual

/-- Whether the trees that a part stands for are of kinds without errors. -/
def isErrorFree : Part → Bool
  | token t => t.kind.isErrorFree
  | .operand _ _ | callee | refuse _ => true
  | node _ kind _ | enclosed _ kind _ _ => kind.isErrorFree
  | choice _ yes no => areErrorFree yes && areErrorFree no
  | repeated _ parts => areErrorFree parts

/-- Whether the trees that a production stands for are of kinds without errors. -/
def areErrorFree : List Part → Bool
  | [] => true
  | p :: ps => p.isErrorFree && areErrorFree ps

end

mutual

/-- What fits a part without errors is of kinds without errors. -/
theorem isErrorFree_of_fits : ∀ (p : Part) {ts : List Tree}, p.isErrorFree = true → p.Fits ts →
    ∀ t ∈ ts, t.kind.isErrorFree = true
  | token t, ts, hp, ⟨leaf, hleaf, h⟩ => by
    subst h
    rw [isErrorFree, ← hleaf.kind] at hp
    exact List.forall_mem_singleton.2 hp
  | .operand _ _, ts, _, ⟨t, ht, h⟩ => by
    subst h
    exact List.forall_mem_singleton.2 (Kind.isErrorFree_of_isExpression ht.isExpression)
  | callee, ts, _, h => by
    rcases h with ⟨t, ht, rfl⟩ | ⟨t, params, ht, hparams, rfl⟩
    · exact List.forall_mem_singleton.2 (Kind.isErrorFree_of_isExpression ht.isExpression)
    · refine List.forall_mem_cons.2 ⟨Kind.isErrorFree_of_isExpression ht.isExpression, ?_⟩
      rw [List.forall_mem_singleton, hparams.kind]
      rfl
  | node _ kind _, ts, hp, ⟨t, ht, h⟩ | enclosed _ kind _ _, ts, hp, ⟨t, ht, h⟩ => by
    subst h
    rw [isErrorFree, ← ht.kind] at hp
    exact List.forall_mem_singleton.2 hp
  | choice _ yes no, ts, hp, h => by
    simp only [isErrorFree, Bool.and_eq_true] at hp
    rcases h with h | h
    · exact areErrorFree_of_fitsAll yes hp.1 h
    · exact areErrorFree_of_fitsAll no hp.2 h
  | repeated _ parts, ts, hp, ⟨rounds, hrounds, h⟩ => by
    subst h
    intro t ht
    obtain ⟨round, hround, ht⟩ := List.mem_flatten.1 ht
    exact areErrorFree_of_fitsAll parts hp (hrounds round hround) t ht

/-- What fits a production without errors is of kinds without errors. -/
theorem areErrorFree_of_fitsAll : ∀ (ps : List Part) {ts : List Tree}, areErrorFree ps = true →
    FitsAll ps ts → ∀ t ∈ ts, t.kind.isErrorFree = true
  | [], ts, _, h => by
    obtain rfl : ts = [] := h
    exact List.forall_mem_nil _
  | p :: ps, ts, hps, ⟨first, more, hfirst, hmore, h⟩ => by
    subst h
    simp only [areErrorFree, Bool.and_eq_true] at hps
    intro t ht
    rcases List.mem_append.1 ht with ht | ht
    · exact isErrorFree_of_fits p hps.1 hfirst t ht
    · exact areErrorFree_of_fitsAll ps hps.2 hmore t ht

end

end Part

/-- The productions of the grammar make no errors, and have none. -/
theorem Grammar.productions_errorFree :
    ∀ p ∈ Grammar.productions, p.1.isErrorFree = true ∧ Part.areErrorFree p.2 = true := by
  decide +kernel

/-- The children of a node of a kind without errors are of such kinds too, and no node is an
error. -/
theorem Schema.isErrorFree {kind : Kind} {ts : List Tree} (h : Schema kind ts) :
    (∀ t ∈ ts, t.kind.isErrorFree = true) ∨ kind = .sourceFile ∨ kind = .element := by
  cases h with
  | production hparts hts =>
    obtain ⟨⟨k, parts⟩, hmem, heq⟩ := List.mem_filterMap.1 hparts
    dsimp only at heq
    split at heq
    · cases heq
      exact .inl (Part.areErrorFree_of_fitsAll _ (Grammar.productions_errorFree _ hmem).2 hts)
    · cases heq
  | sourceFile => exact .inr (.inl rfl)
  | selfClosing | element => exact .inr (.inr rfl)

/-- An error has no children. -/
theorem Schema.ne_error {ts : List Tree} : ¬Schema .error ts := by
  intro h
  cases h with
  | production hparts =>
    have hnone : Kind.productions .error = [] := rfl
    rw [hnone] at hparts
    cases hparts

namespace Tree

mutual

/-- There are no errors in a tree of a kind without errors. -/
theorem errors_eq_nil : ∀ {t : Tree} (s : Input), t.Every Formed → t.kind.isErrorFree = true →
    t.errors s = []
  | leaf _ kind gap text, s, _, hkind => by
    rw [errors, if_neg]
    rintro rfl
    cases hkind
  | node _ kind ts, s, h, hkind => by
    have hchildren : ∀ t ∈ ts, t.kind.isErrorFree = true := by
      rcases h.1.isErrorFree with hall | rfl | rfl
      · exact hall
      · cases hkind
      · cases hkind
    exact errorsAmong_eq_nil s h.2 hchildren

/-- There are no errors in trees of kinds without errors. -/
theorem errorsAmong_eq_nil : ∀ {ts : List Tree} (s : Input), EveryOf Formed ts →
    (∀ t ∈ ts, t.kind.isErrorFree = true) → errorsAmong s ts = []
  | [], _, _, _ => rfl
  | t :: ts, s, h, hkind => by
    obtain ⟨ht, hts⟩ := List.forall_mem_cons.1 hkind
    rw [errorsAmong, errors_eq_nil s h.1 ht, errorsAmong_eq_nil _ h.2 hts, List.append_nil]

end

end Tree

/-! ## Nodes -/

/-- The nodes of kind `error` below a node, itself included. -/
def Node.errors (root : Node) : List Node := root.descendants.filter fun n => n.kind = .error

/-- The nodes of kind `error` below some nodes, themselves included. -/
def Node.errorsOfAll (nodes : List Node) : List Node :=
  (descendantsOfAll nodes).filter fun n => n.kind = .error

/-- The errors below some nodes are those below the first and those below the others. -/
theorem Node.errorsOfAll_cons (n : Node) (ns : List Node) :
    errorsOfAll (n :: ns) = n.errors ++ errorsOfAll ns :=
  List.filter_append _ _

/-- The errors below nodes in two rows are those below the one and then those below the other. -/
theorem Node.errorsOfAll_append (as bs : List Node) :
    errorsOfAll (as ++ bs) = errorsOfAll as ++ errorsOfAll bs := by
  induction as with
  | nil => rfl
  | cons n ns ih =>
    rw [List.cons_append, errorsOfAll_cons, ih, errorsOfAll_cons, List.append_assoc]

/-- The bytes between which a node stands. -/
def Node.span (n : Node) : Nat × Nat := (n.start, n.stop)

/-- The place behind some text is further on by the length of the text. -/
theorem offset_append {size : Nat} {text rest : List Char}
    (h : byteLength (text ++ rest) ≤ size) :
    offset size rest = offset size (text ++ rest) + byteLength text := by
  rw [byteLength_append] at h
  rw [offset, offset, byteLength_append]
  omega

/-- A place further on has no smaller offset. -/
theorem offset_le_of_suffix {a b : Input} (h : a <:+ b) (size : Nat) :
    offset size b ≤ offset size a :=
  Nat.sub_le_sub_left (byteLength_le_of_suffix h) size

namespace Tree

/-- The errors below a node that is none are those below its children. -/
theorem errors_place_node {f : Option Field} {kind : Kind} (hkind : kind ≠ .error) (ts : List Tree)
    (id pos : Nat) :
    ((node f kind ts).place id pos).errors = Node.errorsOfAll (placeAll id pos ts) := by
  rw [Node.errors, Node.descendants_eq, List.filter_cons_of_neg]
  · rfl
  · rw [Node.kind, place_tree, decide_eq_true_eq]
    exact hkind

mutual

/-- The nodes of kind `error` below a tree that is placed stand where its errors do. -/
theorem place_errors {size : Nat} : ∀ {t : Tree} (id : Nat) {s rest : Input}, t.Every Formed →
    t.source ++ rest = s → byteLength s ≤ size →
    (t.place id (offset size s)).errors.map Node.span = (t.errors s).map (Region.span size)
  | leaf f kind gap text, id, s, rest, _, hsource, hsize => by
    by_cases hkind : kind = .error
    · -- The error stands behind the blanks before it.
      subst hkind
      have hnode : ((leaf f .error gap text).place id (offset size s)).errors =
          [(leaf f .error gap text).place id (offset size s)] := rfl
      have hrest : s.drop gap.length = text ++ rest := by
        rw [← hsource, source, List.append_assoc, List.drop_left]
      have hstart : offset size (text ++ rest) = offset size s + byteLength gap := by
        rw [← hsource, source, List.append_assoc] at hsize ⊢
        exact offset_append hsize
      rw [hnode, errors, if_pos rfl]
      simp only [List.map_cons, List.map_nil, Node.span, Region.span, place, hrest, hstart]
    · have hnode : ((leaf f kind gap text).place id (offset size s)).errors = [] := by
        refine List.filter_eq_nil_iff.2 fun n hn => ?_
        obtain rfl := List.mem_singleton.1 hn
        exact fun herror => hkind (of_decide_eq_true herror)
      rw [hnode, errors, if_neg hkind]
      rfl
  | node f kind ts, id, s, rest, hformed, hsource, hsize => by
    have hkind : kind ≠ .error := by
      rintro rfl
      exact Schema.ne_error hformed.1
    rw [errors_place_node hkind, errors]
    exact placeAll_errors id hformed.2 hsource hsize

/-- The nodes of kind `error` below some trees that are placed stand where their errors do. -/
theorem placeAll_errors {size : Nat} : ∀ {ts : List Tree} (id : Nat) {s rest : Input},
    EveryOf Formed ts → sources ts ++ rest = s → byteLength s ≤ size →
    (Node.errorsOfAll (placeAll id (offset size s) ts)).map Node.span =
      (errorsAmong s ts).map (Region.span size)
  | [], _, _, _, _, _, _ => rfl
  | t :: ts, id, s, rest, hformed, hsource, hsize => by
    rw [sources, List.append_assoc] at hsource
    have hdrop : s.drop t.source.length = sources ts ++ rest := by
      rw [← hsource, List.drop_left]
    have hstart : offset size (s.drop t.source.length) = offset size s + byteLength t.source := by
      rw [hdrop, ← hsource]
      rw [← hsource] at hsize
      exact offset_append hsize
    have hmore : byteLength (s.drop t.source.length) ≤ size :=
      Nat.le_trans (byteLength_le_of_suffix (List.drop_suffix _ _)) hsize
    rw [placeAll_cons, Node.errorsOfAll_cons, errorsAmong, List.map_append, List.map_append,
      place_errors id hformed.1 hsource hsize, ← hstart,
      placeAll_errors (id + t.size) hformed.2 hdrop.symm hmore]

end

end Tree

/-! ## Errors of templates -/

namespace Tree

/-- An error in a template that is a row of items is a leaf that stands in the template itself or in
an element. -/
theorem root_errors_leaf {items : List Tree} (hitems : ∀ t ∈ items, t.Item) {n : Node}
    (hn : n ∈ (node none .sourceFile items).root.errors) :
    n.children = [] ∧ ∃ m ∈ (node none .sourceFile items).root.descendants,
      n ∈ m.children ∧ (m.kind = .sourceFile ∨ m.kind = .element) := by
  have hformed : (node none .sourceFile items).Every Formed :=
    ⟨.sourceFile fun t ht => ⟨(hitems t ht).kind, (hitems t ht).field⟩,
      everyOf_iff.2 fun t ht => (hitems t ht).formed⟩
  obtain ⟨hmem, hkind⟩ := List.mem_filter.1 hn
  have hkind := of_decide_eq_true hkind
  constructor
  · obtain ⟨u, number, before, after, rfl, -, hevery⟩ := mem_descendants_place hmem
    rw [Node.kind, place_tree] at hkind
    cases u with
    | leaf => rfl
    | node f kind ts =>
      obtain rfl : kind = .error := hkind
      exact absurd (hevery Formed hformed).1 Schema.ne_error
  · rcases Node.exists_parent hmem with rfl | ⟨m, hm, hchild⟩
    · cases hkind
    · refine ⟨m, hm, hchild, ?_⟩
      obtain ⟨u, number, before, after, rfl, -, hevery⟩ := mem_descendants_place hm
      rw [place_children] at hchild
      rw [Node.kind, place_tree]
      cases u with
      | leaf => cases hchild
      | node f kind ts =>
        -- A node of another kind has children of kinds without errors.
        refine (hevery Formed hformed).1.isErrorFree.resolve_left fun hfree => ?_
        have htree := List.mem_map_of_mem (f := Node.tree) hchild
        rw [placeAll_tree] at htree
        have := hfree _ htree
        rw [← Node.kind, hkind] at this
        cases this

/-- An error after items without errors is the only one, and it is the last of the items. -/
theorem root_errors_last {kept : List Tree} {source : Input} {skipped : List Char}
    (hformed : EveryOf Formed kept) (hnone : errorsAmong source kept = [])
    (hsource : sources (kept ++ [leaf none .error [] skipped]) = source) :
    ∃ n, (node none .sourceFile (kept ++ [leaf none .error [] skipped])).root.errors = [n] ∧
      (node none .sourceFile (kept ++ [leaf none .error [] skipped])).root.children.getLast? =
        some n ∧ n.stop = byteLength source := by
  rw [sources_append, sources, sources, List.append_nil] at hsource
  have hkept : Node.errorsOfAll (placeAll 0 0 kept) = [] := by
    have h := placeAll_errors 0 hformed hsource (Nat.le_refl _)
    rw [offset, Nat.sub_self, hnone] at h
    exact List.map_eq_nil_iff.1 h
  refine ⟨(leaf none .error [] skipped).place (0 + sizes kept) (0 + byteLength (sources kept)),
    ?_, ?_, ?_⟩
  · rw [root, errors_place_node (by decide), placeAll_append, Node.errorsOfAll_append, hkept]
    rfl
  · rw [root, place_children, children, placeAll_append]
    exact List.getLast?_concat
  · rw [place_stop, ← hsource, byteLength_append, Nat.zero_add]

end Tree

end Stencil
