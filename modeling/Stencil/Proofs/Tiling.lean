import Mathlib.Data.List.Chain
import Stencil.Proofs.Items
import Stencil.Tree.Place

/-!
# Where the nodes of a template stand

The tree of a template keeps every character of it, and blanks stand in it where they may
(`Template.parse_items`). Here this is said of the nodes by their byte offsets. A node is found at
the place of its characters (`Tree.mem_descendants_place`), so that what its tree is made of says
where its children stand; and a byte lies in one leaf, or in the blanks before a token
(`Tree.leavesAt_place`). So a row of items loses nothing of what it holds (`Tree.root_lossless`).
-/

namespace Stencil

/-! ## Places in a source -/

/-- `text` stands in `source` from byte `start` up to byte `stop`. -/
def Between (source : Input) (start stop : Nat) (text : List Char) : Prop :=
  ∃ before after, source = before ++ (text ++ after) ∧ byteLength before = start ∧
    start + byteLength text = stop

/-- Nodes stand one after another from byte `start` up to byte `stop`, with nothing between them. -/
def Tiles : Nat → List Node → Nat → Prop
  | start, [], stop => start = stop
  | start, n :: ns, stop => n.start = start ∧ n.start ≤ n.stop ∧ Tiles n.stop ns stop

/-- Text begins with no more than one text of a length in bytes. -/
theorem eq_of_byteLength_eq {a b more others : List Char} (h : a ++ more = b ++ others)
    (hlength : byteLength a = byteLength b) : a = b := by
  induction a generalizing b with
  | nil =>
    cases b with
    | nil => rfl
    | cons c b =>
      have hpos := c.utf8Size_pos
      simp only [byteLength] at hlength
      omega
  | cons c a ih =>
    cases b with
    | nil =>
      have hpos := c.utf8Size_pos
      simp only [byteLength] at hlength
      omega
    | cons d b =>
      obtain ⟨rfl, hrest⟩ := List.cons_eq_cons.1 h
      simp only [byteLength] at hlength
      rw [ih hrest (by omega)]

/-- One text stands between two bytes of a source. -/
theorem Between.unique {source : Input} {start stop : Nat} {a b : List Char}
    (ha : Between source start stop a) (hb : Between source start stop b) : a = b := by
  obtain ⟨before, after, hsource, hstart, hstop⟩ := ha
  obtain ⟨before', after', hsource', hstart', hstop'⟩ := hb
  obtain rfl := eq_of_byteLength_eq (hsource.symm.trans hsource') (by omega)
  exact eq_of_byteLength_eq (List.append_cancel_left (hsource.symm.trans hsource')) (by omega)

/-- The first half of what stands between two bytes. -/
theorem Between.left {source : Input} {start stop : Nat} {a b : List Char}
    (h : Between source start stop (a ++ b)) : Between source start (start + byteLength a) a := by
  obtain ⟨before, after, hsource, hstart, -⟩ := h
  exact ⟨before, b ++ after, by simpa using hsource, hstart, rfl⟩

/-- The second half of what stands between two bytes. -/
theorem Between.right {source : Input} {start stop : Nat} {a b : List Char}
    (h : Between source start stop (a ++ b)) : Between source (start + byteLength a) stop b := by
  obtain ⟨before, after, hsource, hstart, hstop⟩ := h
  rw [byteLength_append] at hstop
  refine ⟨before ++ a, after, by simpa using hsource, ?_, by omega⟩
  rw [byteLength_append, hstart]

/-- The blanks of the grammar take one byte each. -/
theorem byteLength_blanks {gap : List Char} (h : ∀ c ∈ gap, isBlank c) :
    byteLength gap = gap.length := by
  have hone : ∀ c, isBlank c = true → c.utf8Size = 1 := by
    intro c hc
    simp only [isBlank, Bool.or_eq_true, decide_eq_true_eq] at hc
    rcases hc with (((rfl | rfl) | rfl) | rfl) | rfl <;> decide
  induction gap with
  | nil => rfl
  | cons c gap ih =>
    rw [byteLength, hone c (h c List.mem_cons_self), ih fun d hd => h d (List.mem_cons_of_mem c hd),
      List.length_cons, Nat.add_comm]

/-! ## The places of nodes -/

namespace Tree

mutual

/-- There are only blanks before a tree. -/
theorem isBlank_of_mem_gap : ∀ {t : Tree}, t.Every Spaced → ∀ c ∈ t.gap, isBlank c
  | leaf .., h => h.2.1
  | node .., h => isBlank_of_mem_gaps h.2

/-- There are only blanks before some trees. -/
theorem isBlank_of_mem_gaps : ∀ {ts : List Tree}, EveryOf Spaced ts → ∀ c ∈ gaps ts, isBlank c
  | [], _ => nofun
  | _ :: _, h => isBlank_of_mem_gap h.1

end

end Tree

/-! ## What nodes are made of -/

/-- How the children of the node of an element stand: nothing is between the end of the opening
tag, the items of the body and the bracket of the closing tag, if there is one. -/
inductive Node.ElementRow : List Node → Prop
  | selfClosing (tag : List Node) (stop : Node) (hstop : stop.text = ['/', '>']) :
    ElementRow (tag ++ [stop])
  | withBody (tag : List Node) (stop : Node) (items : List Node) (bracket name last : Node)
    (hstop : stop.text = ['>']) (hitems : ∀ n ∈ items, n.kind.isItem = true)
    (hbracket : bracket.text = ['<', '/']) (htiles : Tiles stop.stop items bracket.start) :
    ElementRow (tag ++ stop :: (items ++ [bracket, name, last]))

/-- How a node stands in a source. -/
structure Node.Laid (source : Input) (n : Node) : Prop where
  /-- Its text is what stands there. -/
  text : Between source n.start n.stop n.text
  /-- It begins where its first child does. -/
  first : ∀ c ∈ n.children.head?, n.start = c.start
  /-- It ends where its last child does. -/
  last : ∀ c ∈ n.children.getLast?, n.stop = c.stop
  /-- Its children stand in order and apart. -/
  order : n.children.Pairwise fun a b => a.stop ≤ b.start
  /-- There are only blanks between a child and the next one. -/
  blanks : n.children.IsChain fun a b =>
    ∃ gap, Between source a.stop b.start gap ∧ ∀ c ∈ gap, isBlank c
  /-- There are none in a comment. -/
  comment : n.kind = .comment → Tiles n.start n.children n.stop
  /-- There are none around the body of an element. -/
  element : n.kind = .element → ElementRow n.children

namespace Tree

/-- A node begins where its first child does. -/
theorem place_first {t : Tree} {id pos : Nat} {c : Node}
    (h : c ∈ (t.place id pos).children.head?) : (t.place id pos).start = c.start := by
  cases t with
  | leaf => cases h
  | node field kind ts =>
    have h : (placeAll id pos ts).head? = some c := h
    simp [place, h]

/-- A node ends where its last child does. -/
theorem place_last {t : Tree} {id pos : Nat} {c : Node}
    (h : c ∈ (t.place id pos).children.getLast?) : (t.place id pos).stop = c.stop := by
  cases t with
  | leaf => cases h
  | node field kind ts =>
    have h : (placeAll id pos ts).getLast? = some c := h
    simp [place, h]

/-- The nodes of trees in a row begin where the row does or later. -/
theorem le_start_of_mem_placeAll {ts : List Tree} {id pos : Nat} {n : Node}
    (h : n ∈ placeAll id pos ts) : pos ≤ n.start := by
  induction ts generalizing id pos with
  | nil => cases h
  | cons t ts ih =>
    rw [placeAll_cons] at h
    rcases List.mem_cons.1 h with rfl | h
    · rw [place_start]
      exact Nat.le_add_right _ _
    · exact Nat.le_trans (Nat.le_add_right _ _) (ih h)

/-- The nodes of trees in a row stand in order and apart. -/
theorem placeAll_pairwise (ts : List Tree) (id pos : Nat) :
    (placeAll id pos ts).Pairwise fun a b => a.stop ≤ b.start := by
  induction ts generalizing id pos with
  | nil => exact List.Pairwise.nil
  | cons t ts ih =>
    rw [placeAll_cons]
    refine List.Pairwise.cons (fun n hn => ?_) (ih _ _)
    rw [place_stop]
    exact le_start_of_mem_placeAll hn

/-- Only blanks stand between the nodes of trees in a row. -/
theorem placeAll_blanks {source : Input} {ts : List Tree} (hts : EveryOf Spaced ts)
    (id : Nat) {pos stop : Nat} (h : Between source pos stop (sources ts)) :
    (placeAll id pos ts).IsChain fun a b =>
      ∃ gap, Between source a.stop b.start gap ∧ ∀ c ∈ gap, isBlank c := by
  induction ts generalizing id pos with
  | nil => exact .nil
  | cons t ts ih =>
    have hrest := ih hts.2 (id + t.size) h.right
    cases ts with
    | nil => exact .singleton _
    | cons u us =>
      rw [placeAll_cons] at hrest ⊢
      rw [placeAll_cons]
      refine List.isChain_cons_cons.2 ⟨⟨u.gap, ?_, isBlank_of_mem_gap hts.2.1⟩, hrest⟩
      have hnext := h.right
      rw [sources, ← gap_append_text u, List.append_assoc] at hnext
      rw [place_stop, place_start]
      exact hnext.left

/-- Nothing stands between the nodes of trees in a row, if there are no blanks before them. -/
theorem placeAll_tiles {ts : List Tree} (hts : ∀ t ∈ ts, t.gap = []) (id pos : Nat) :
    Tiles pos (placeAll id pos ts) (pos + byteLength (sources ts)) := by
  induction ts generalizing id pos with
  | nil => rfl
  | cons t ts ih =>
    have hgap := hts t List.mem_cons_self
    have hrest := ih (fun u hu => hts u (List.mem_cons_of_mem t hu)) (id + t.size)
      (pos + byteLength t.source)
    rw [placeAll_cons, sources, byteLength_append, ← Nat.add_assoc]
    refine ⟨?_, place_start_le_stop t id pos, ?_⟩
    · rw [place_start, hgap]
      rfl
    · rw [place_stop]
      exact hrest

/-- The children of an element stand as its trees do. -/
theorem placeAll_elementRow {ts : List Tree} (h : ElementRow ts) (id pos : Nat) :
    Node.ElementRow (placeAll id pos ts) := by
  cases h with
  | selfClosing tag stop hstop =>
    rw [placeAll_append, placeAll_cons]
    refine .selfClosing _ _ ?_
    rw [Node.text, place_tree, hstop]
  | withBody tag stop items bracket name last hstop hitems hbracket =>
    rw [placeAll_append, placeAll_cons, placeAll_append]
    refine .withBody _ _ _ _ _ _ ?_ (fun n hn => ?_) ?_ ?_
    · rw [Node.text, place_tree, hstop]
    · have hmem := List.mem_map_of_mem (f := Node.tree) hn
      rw [placeAll_tree] at hmem
      exact (hitems _ hmem).1
    · rw [Node.text, place_tree, hbracket.1]
    · have htiles := placeAll_tiles (fun t ht => (hitems t ht).2)
        (id + sizes tag + stop.size) (pos + byteLength (sources tag) + byteLength stop.source)
      rw [place_stop, place_start, hbracket.2]
      exact htiles

/-- A tree in which blanks stand where they may has its node stand as it should. -/
theorem place_laid {source : Input} {t : Tree} (ht : t.Every Spaced) {id pos : Nat}
    (h : Between source pos (pos + byteLength t.source) t.source) :
    (t.place id pos).Laid source := by
  have hchildren : EveryOf Spaced t.children := by
    cases t with
    | leaf => trivial
    | node => exact ht.2
  refine ⟨?_, fun c => place_first, fun c => place_last, ?_, ?_, ?_, ?_⟩
  · -- The text stands after the blanks.
    rw [← gap_append_text t] at h
    have htext := h.right
    rw [place_start, place_stop, Node.text, place_tree]
    rwa [gap_append_text] at htext
  · rw [place_children]
    exact placeAll_pairwise _ _ _
  · rw [place_children]
    cases t with
    | leaf => exact .nil
    | node => exact placeAll_blanks hchildren id h
  · -- A comment is no token, and there are no blanks in it.
    intro hkind
    rw [Node.kind, place_tree] at hkind
    cases t with
    | leaf field kind gap text =>
      obtain rfl : kind = .comment := hkind
      cases ht.1
    | node field kind ts =>
      have hgaps := ht.1.2.1 hkind
      have hgap : gaps ts = [] := by
        cases ts with
        | nil => rfl
        | cons t ts => exact hgaps t List.mem_cons_self
      rw [place_start, place_stop, place_children, gap, hgap]
      exact placeAll_tiles hgaps id pos
  · -- An element is no token, and its children stand in a row of their own form.
    intro hkind
    rw [Node.kind, place_tree] at hkind
    cases t with
    | leaf field kind gap text =>
      obtain rfl : kind = .element := hkind
      cases ht.1
    | node field kind ts => exact placeAll_elementRow (ht.1.2.2 hkind) id pos

/-- A leaf with text is not empty. -/
theorem place_start_lt_stop {t : Tree} (ht : t.Every Spaced) {id pos : Nat}
    (h : (t.place id pos).children = []) : (t.place id pos).start < (t.place id pos).stop := by
  rw [place_children] at h
  cases t with
  | leaf field kind gap text =>
    have hpos : 0 < byteLength text := by
      obtain ⟨c, text, rfl⟩ := List.exists_cons_of_ne_nil ht.2.2
      exact Nat.add_pos_left c.utf8Size_pos _
    simp only [place]
    omega
  | node field kind ts =>
    obtain ⟨t, ts, rfl⟩ := List.exists_cons_of_ne_nil ht.1.1
    rw [children, placeAll_cons] at h
    cases h

end Tree

/-! ## What bytes lie in -/

/-- The leaves below a node, itself included, in which a byte lies. -/
def Node.leavesAt (root : Node) (b : Nat) : List Node :=
  root.descendants.filter fun n => n.children.isEmpty && n.start ≤ b && b < n.stop

/-- The leaves below some nodes, themselves included, in which a byte lies. -/
def Node.leavesOfAllAt (nodes : List Node) (b : Nat) : List Node :=
  (descendantsOfAll nodes).filter fun n => n.children.isEmpty && n.start ≤ b && b < n.stop

namespace Tree

/-- A byte lies in those leaves of a node that are leaves of its children. -/
theorem leavesAt_place_node (f : Option Field) (kind : Kind) (ts : List Tree) (id pos b : Nat) :
    ((node f kind ts).place id pos).leavesAt b = Node.leavesOfAllAt (placeAll id pos ts) b := by
  rw [Node.leavesAt, Node.descendants_eq, List.filter_cons_of_neg]
  · rfl
  · -- A node without children is empty.
    cases ts with
    | nil =>
      intro h
      simp only [place, placeAll, List.head?_nil, List.getLast?_nil, Option.elim_none,
        Bool.and_eq_true] at h
      have hstart := of_decide_eq_true h.1.2
      have hstop := of_decide_eq_true h.2
      omega
    | cons t ts => simp [place, placeAll]

/-- A byte lies in the leaves of the first of some trees, or in those of the others. -/
theorem leavesOfAllAt_cons (t : Tree) (ts : List Tree) (id pos b : Nat) :
    Node.leavesOfAllAt (placeAll id pos (t :: ts)) b = (t.place id pos).leavesAt b ++
      Node.leavesOfAllAt (placeAll (id + t.size) (pos + byteLength t.source) ts) b := by
  rw [placeAll_cons, Node.leavesOfAllAt, Node.descendantsOfAll, List.filter_append]
  rfl

mutual

/-- A byte that does not lie in a tree lies in no leaf of it. -/
theorem leavesAt_eq_nil {b : Nat} : ∀ (t : Tree) (id pos : Nat),
    b < pos ∨ pos + byteLength t.source ≤ b → (t.place id pos).leavesAt b = []
  | leaf field kind gap text, id, pos, h => by
    simp only [source, byteLength_append] at h
    have hout : ¬(pos + byteLength gap ≤ b ∧ b < pos + byteLength gap + byteLength text) := by omega
    simpa [Node.leavesAt, place, Node.descendants, Node.descendantsOfAll] using hout
  | node field kind ts, id, pos, h => by
    rw [leavesAt_place_node]
    exact leavesOfAllAt_eq_nil ts id pos h

/-- A byte that does not lie in some trees lies in no leaf of them. -/
theorem leavesOfAllAt_eq_nil {b : Nat} : ∀ (ts : List Tree) (id pos : Nat),
    b < pos ∨ pos + byteLength (sources ts) ≤ b → Node.leavesOfAllAt (placeAll id pos ts) b = []
  | [], _, _, _ => rfl
  | t :: ts, id, pos, h => by
    simp only [sources, byteLength_append] at h
    have ht := leavesAt_eq_nil (b := b) t id pos (by omega)
    have hts :=
      leavesOfAllAt_eq_nil (b := b) ts (id + t.size) (pos + byteLength t.source) (by omega)
    rw [leavesOfAllAt_cons, ht, hts, List.append_nil]

end

/-- A byte of what stands from byte `pos` on is a blank. -/
def BlankAt (text : List Char) (pos b : Nat) : Prop :=
  ∃ c before after, isBlank c ∧ text = before ++ c :: after ∧ b = pos + byteLength before

mutual

/-- A byte that lies in a tree lies in one leaf of it, or it is a blank. -/
theorem leavesAt_place {b : Nat} : ∀ {t : Tree} (id : Nat) {pos : Nat}, t.Every Spaced → pos ≤ b →
    b < pos + byteLength t.source → ((t.place id pos).leavesAt b).length = 1 ∨
      (t.place id pos).leavesAt b = [] ∧ BlankAt t.source pos b
  | leaf field kind gap text, id, pos, h, hpos, hstop => by
    obtain ⟨-, hgap, -⟩ := h
    have hlength := byteLength_blanks hgap
    simp only [source, byteLength_append] at hstop
    by_cases hb : b < pos + byteLength gap
    · -- The byte is one of the blanks before the token, which take a byte each.
      have hlt : b - pos < gap.length := by omega
      have htake : byteLength (gap.take (b - pos)) = b - pos := by
        rw [byteLength_blanks fun c hc => hgap c (List.mem_of_mem_take hc), List.length_take]
        omega
      refine .inr ⟨?_, gap[b - pos], gap.take (b - pos), gap.drop (b - pos + 1) ++ text,
        hgap _ (List.getElem_mem hlt), ?_, by omega⟩
      · have hout : ¬(pos + byteLength gap ≤ b ∧ b < pos + byteLength gap + byteLength text) := by
          omega
        simpa [Node.leavesAt, place, Node.descendants, Node.descendantsOfAll] using hout
      · rw [source, ← List.cons_append, ← List.drop_eq_getElem_cons hlt, ← List.append_assoc,
          List.take_append_drop]
    · -- The byte is one of the token.
      left
      have hin : pos + byteLength gap ≤ b ∧ b < pos + byteLength gap + byteLength text := by omega
      simp [Node.leavesAt, place, Node.descendants, Node.descendantsOfAll, hin]
  | node field kind ts, id, pos, h, hpos, hstop => by
    rw [leavesAt_place_node]
    exact leavesOfAllAt_placeAll id h.2 hpos hstop

/-- A byte that lies in some trees lies in one leaf of them, or it is a blank. -/
theorem leavesOfAllAt_placeAll {b : Nat} : ∀ {ts : List Tree} (id : Nat) {pos : Nat},
    EveryOf Spaced ts → pos ≤ b → b < pos + byteLength (sources ts) →
      (Node.leavesOfAllAt (placeAll id pos ts) b).length = 1 ∨
        Node.leavesOfAllAt (placeAll id pos ts) b = [] ∧ BlankAt (sources ts) pos b
  | [], id, pos, _, hpos, hstop => by
    simp only [sources, byteLength] at hstop
    omega
  | t :: ts, id, pos, h, hpos, hstop => by
    simp only [sources, byteLength_append] at hstop
    rw [leavesOfAllAt_cons]
    by_cases hb : b < pos + byteLength t.source
    · -- The byte lies in the first tree.
      rw [leavesOfAllAt_eq_nil ts _ _ (.inl hb), List.append_nil]
      rcases leavesAt_place id h.1 hpos hb with
        hone | ⟨hnone, c, before, after, hc, hsource, hbefore⟩
      · exact .inl hone
      · refine .inr ⟨hnone, c, before, after ++ sources ts, hc, ?_, hbefore⟩
        simp [sources, hsource]
    · -- The byte lies in the others.
      have hstart : pos + byteLength t.source ≤ b := by omega
      rw [leavesAt_eq_nil t id pos (.inr hstart), List.nil_append]
      rcases leavesOfAllAt_placeAll (id + t.size) h.2 hstart (by omega) with
        hone | ⟨hnone, c, before, after, hc, hsource, hbefore⟩
      · exact .inl hone
      · refine .inr ⟨hnone, c, t.source ++ before, after, hc, ?_, ?_⟩
        · simp [sources, hsource]
        · rw [byteLength_append]
          omega

end

end Tree

/-! ## Templates -/

/-- The nodes below `root` lose nothing of a source. -/
structure Lossless (source : Input) (root : Node) : Prop where
  /-- The root begins where the source does. -/
  start : root.start = 0
  /-- The root ends where the source does. -/
  stop : root.stop = byteLength source
  /-- The children of the root leave nothing out. -/
  tiles : Tiles 0 root.children (byteLength source)
  /-- Every node stands where its text does, around its children. -/
  laid : ∀ n ∈ root.descendants, n.Laid source
  /-- Only the root of an empty source is an empty leaf. -/
  leaf : ∀ n ∈ root.descendants, n.children = [] → n.start < n.stop ∨ n = root ∧ source = []
  /-- Every byte lies in one leaf, or in none and is a blank. -/
  byte : ∀ b < byteLength source, (root.leavesAt b).length = 1 ∨
    root.leavesAt b = [] ∧ ∃ c, isBlank c ∧ Between source b (b + 1) [c]

/-- A blank takes one byte. -/
theorem Tree.BlankAt.between {source : Input} {b : Nat} (h : BlankAt source 0 b) :
    ∃ c, isBlank c ∧ Between source b (b + 1) [c] := by
  obtain ⟨c, before, after, hc, hsource, hb⟩ := h
  have hone : byteLength [c] = 1 := byteLength_blanks (by simpa using hc)
  exact ⟨c, hc, before, after, hsource, by omega, by rw [hone]⟩

/-- A row of items loses nothing of what it holds. -/
theorem Tree.root_lossless {items : List Tree} (h : ∀ t ∈ items, t.Item) :
    Lossless (sources items) (node none .sourceFile items).root := by
  have hspaced : EveryOf Spaced items := everyOf_iff.2 fun t ht => (h t ht).spaced
  have hgap : gaps items = [] := by
    cases items with
    | nil => rfl
    | cons t ts => exact (h t List.mem_cons_self).gap
  have hwhole : Between (sources items) 0 (byteLength (sources items)) (sources items) :=
    ⟨[], [], by simp, rfl, Nat.zero_add _⟩
  -- A node is the root of an empty source, or what its tree is made of says how it stands.
  have hnode : ∀ n ∈ (node none .sourceFile items).root.descendants,
      (n = (node none .sourceFile items).root ∧ items = []) ∨
        n.Laid (sources items) ∧ (n.children = [] → n.start < n.stop) := by
    intro n hn
    by_cases hitems : items = []
    · subst hitems
      left
      exact ⟨List.mem_singleton.1 hn, rfl⟩
    · right
      have hroot : (node none .sourceFile items).Every Spaced := ⟨.of_isLoose rfl hitems, hspaced⟩
      obtain ⟨u, number, before, after, rfl, hsource, hevery⟩ := mem_descendants_place hn
      have hu := hevery Spaced hroot
      exact ⟨place_laid hu ⟨before, after, hsource, (Nat.zero_add _).symm, rfl⟩,
        place_start_lt_stop hu⟩
  refine ⟨?_, ?_, ?_, fun n hn => ?_, fun n hn hleaf => ?_, fun b hb => ?_⟩
  · rw [root, place_start, gap, hgap]
    rfl
  · rw [root, place_stop, Nat.zero_add, source]
  · have htiles := placeAll_tiles (fun t ht => (h t ht).gap) 0 0
    rwa [Nat.zero_add] at htiles
  · rcases hnode n hn with ⟨rfl, rfl⟩ | ⟨hlaid, -⟩
    · exact ⟨hwhole, nofun, nofun, .nil, .nil, nofun, nofun⟩
    · exact hlaid
  · rcases hnode n hn with ⟨rfl, rfl⟩ | ⟨-, hne⟩
    · exact .inr ⟨rfl, rfl⟩
    · exact .inl (hne hleaf)
  · rw [root, leavesAt_place_node]
    rcases leavesOfAllAt_placeAll 0 hspaced (Nat.zero_le b) (by omega) with hone | ⟨hnone, hblank⟩
    · exact .inl hone
    · exact .inr ⟨hnone, hblank.between⟩

/-- The tree of a template loses nothing of its source, whatever the options are. -/
theorem Template.parse_lossless (options : Options) (source : Input) :
    Lossless source (parse options source).tree.root := by
  obtain ⟨items, htree, hitems, hsource⟩ := parse_items options source
  rw [htree, ← hsource]
  exact Tree.root_lossless hitems

end Stencil
