import Mathlib
import Stencil.Proofs.Descent
import Stencil.Proofs.Errors
import Stencil.Proofs.Rows
import Stencil.Proofs.Shapes

/-!
# Siblings

What a reader makes of an item may depend on what follows it, so that what is said of a tree may
have to speak of that too: `Tree.EveryAt` says it of a tree and of every tree in it. What is said in
this way of every tree in a template is that its items are a row (`Tree.RowAt`): those of the
template itself, and those in the body of an element, are read one after the other, each where the
one before it ends, and an error stands for one that is malformed. The main statement is
`Template.parse_rows`.
-/

namespace Stencil

/-! ## Trees and what follows them -/

namespace Tree

variable {P : Tree → Input → Prop} {rest : Input}

mutual

/-- What holds of a tree that `rest` follows, and of every tree in it with what follows that. -/
def EveryAt (P : Tree → Input → Prop) (rest : Input) : Tree → Prop
  | leaf f kind gap text => P (leaf f kind gap text) rest
  | node f kind ts => P (node f kind ts) rest ∧ EveryOfAt P rest ts

/-- What holds of some trees in a row that `rest` follows, and of every tree in them. -/
def EveryOfAt (P : Tree → Input → Prop) (rest : Input) : List Tree → Prop
  | [] => True
  | t :: ts => t.EveryAt P (sources ts ++ rest) ∧ EveryOfAt P rest ts

end

/-- What holds of every tree in two rows is what holds in each, the other following the one. -/
theorem everyOfAt_append {as bs : List Tree} :
    EveryOfAt P rest (as ++ bs) ↔ EveryOfAt P (sources bs ++ rest) as ∧ EveryOfAt P rest bs := by
  induction as with
  | nil => simp [EveryOfAt]
  | cons t ts ih => simp [EveryOfAt, ih, and_assoc]

mutual

/-- What holds of all trees of kinds without errors holds of every tree in such a tree. -/
theorem everyAt_of_errorFree (hP : ∀ {t rest}, t.Formed → t.kind.isErrorFree = true → P t rest) :
    ∀ {t : Tree} {rest : Input}, t.Every Formed → t.kind.isErrorFree = true → t.EveryAt P rest
  | leaf .., _, h, hkind => hP h hkind
  | node .., _, h, hkind => by
    refine ⟨hP h.1 hkind, everyOfAt_of_errorFree hP h.2 ?_⟩
    rcases h.1.isErrorFree with hall | rfl | rfl
    · exact hall
    · cases hkind
    · cases hkind

/-- What holds of all trees of kinds without errors holds of every tree in a row of such trees. -/
theorem everyOfAt_of_errorFree
    (hP : ∀ {t rest}, t.Formed → t.kind.isErrorFree = true → P t rest) :
    ∀ {ts : List Tree} {rest : Input}, EveryOf Formed ts → (∀ t ∈ ts, t.kind.isErrorFree = true) →
      EveryOfAt P rest ts
  | [], _, _, _ => trivial
  | _ :: _, _, h, hkind =>
    have hkinds := List.forall_mem_cons.1 hkind
    ⟨everyAt_of_errorFree hP h.1 hkinds.1, everyOfAt_of_errorFree hP h.2 hkinds.2⟩

end

mutual

/-- A node below a tree that is placed is a tree in it, placed where its characters stand, and what
holds of every tree holds of that with what follows it. -/
theorem exists_of_mem_descendants : ∀ {t : Tree} {id pos : Nat} {rest : Input} {n : Node},
    t.EveryAt P rest → n ∈ (t.place id pos).descendants →
    ∃ (u : Tree) (number : Nat) (before after : List Char),
      n = u.place number (pos + byteLength before) ∧ t.source = before ++ (u.source ++ after) ∧
        P u (after ++ rest)
  | leaf field kind gap text, id, pos, rest, n, hP, h => by
    have h : n ∈ [(leaf field kind gap text).place id pos] := h
    rw [List.mem_singleton] at h
    exact ⟨leaf field kind gap text, id, [], [], h, by simp, hP⟩
  | node field kind ts, id, pos, rest, n, hP, h => by
    rw [Node.descendants_eq, place_children] at h
    rcases List.mem_cons.1 h with rfl | h
    · exact ⟨node field kind ts, id, [], [], rfl, by simp, hP.1⟩
    · exact exists_of_mem_descendantsOfAll hP.2 h

/-- A node below some trees that are placed is a tree in them, placed where its characters stand,
and what holds of every tree holds of that with what follows it. -/
theorem exists_of_mem_descendantsOfAll :
    ∀ {ts : List Tree} {id pos : Nat} {rest : Input} {n : Node},
    EveryOfAt P rest ts → n ∈ Node.descendantsOfAll (placeAll id pos ts) →
    ∃ (u : Tree) (number : Nat) (before after : List Char),
      n = u.place number (pos + byteLength before) ∧ sources ts = before ++ (u.source ++ after) ∧
        P u (after ++ rest)
  | [], _, _, _, _, _, h => nomatch h
  | t :: ts, id, pos, rest, n, hP, h => by
    rw [placeAll_cons] at h
    rcases List.mem_append.1 h with h | h
    · obtain ⟨u, number, before, after, hn, hsource, hu⟩ := exists_of_mem_descendants hP.1 h
      refine ⟨u, number, before, after ++ sources ts, hn, ?_, ?_⟩
      · simp [sources, hsource]
      · rwa [List.append_assoc]
    · obtain ⟨u, number, before, after, hn, hsource, hu⟩ := exists_of_mem_descendantsOfAll hP.2 h
      refine ⟨u, number, t.source ++ before, after, ?_, ?_, hu⟩
      · rw [hn, byteLength_append, Nat.add_assoc]
      · simp [sources, hsource]

end

end Tree

/-! ## Items -/

/-- Reading an item, or what stands for it if it is malformed. -/
def Reading.settling (recover : Bool) (item : Reading (List Tree)) : Reading (List Tree) := fun s =>
  let step := (item s).settle recover s
  ⟨step.events, .ok (step.trees, step.rest)⟩

namespace Markup

variable {s rest : Input} {ts : List Tree}

/-- An item that is read stands for itself. -/
theorem settling_of_ok {item : Reading (List Tree)} (recover : Bool)
    (h : item.parser s = .ok (ts, rest)) :
    (item.settling recover).parser s = .ok (ts, rest) := by
  have h : (item s).result = .ok (ts, rest) := h
  simp only [Reading.parser, Reading.settling, Reply.settle, h]

/-- What stands for an item is what was read of it, or an error. -/
theorem exists_of_settling {item : Reading (List Tree)} {recover : Bool}
    (h : (item.settling recover).parser s = .ok (ts, rest)) :
    item.parser s = .ok (ts, rest) ∨
      (∃ e, item.parser s = .error e) ∧ ∃ skipped, ts = [.leaf none .error [] skipped] := by
  simp only [Reading.parser, Reading.settling, Reply.settle] at h ⊢
  cases hresult : (item s).result with
  | ok a =>
    rw [hresult] at h
    exact .inl h
  | error e =>
    rw [hresult] at h
    cases h
    exact .inr ⟨⟨e, rfl⟩, _, rfl⟩

/-- What reads each item as another reader does reads the same rows. -/
theorem Row.mono {item item' : Reading (List Tree)} (h : Row item s ts rest)
    (hitem : ∀ {s ts rest}, item.parser s = .ok (ts, rest) → item'.parser s = .ok (ts, rest)) :
    Row item' s ts rest := by
  induction h with
  | nil s => exact .nil s
  | cons hs h _ ih => exact .cons hs (hitem h) ih

/-- A row holds what is read. -/
theorem Row.source {item : Reading (List Tree)} (hitem : ReadsItems item)
    (h : Row item s ts rest) : Tree.sources ts ++ rest = s := by
  induction h with
  | nil s => rfl
  | cons hs h _ ih => rw [Tree.sources_append, List.append_assoc, ih, (hitem.items hs h).2.2]

/-- What stands in a row stands in an item of it: the row is read up to this item, and then there is
a row behind it. -/
theorem Row.exists_item {item : Reading (List Tree)} {t : Tree} {before after : List Tree}
    (h : Row item s (before ++ t :: after) rest) :
    ∃ front s' as bs more s'', before = front ++ as ∧ after = bs ++ more ∧ s' ≠ [] ∧
      Row item s front s' ∧ item.parser s' = .ok (as ++ t :: bs, s'') ∧ Row item s'' more rest := by
  generalize hts : before ++ t :: after = ts at h
  induction h generalizing before with
  | nil => simp at hts
  | @cons s s' rest ts others hs h hmore ih =>
    rcases List.append_eq_append_iff.1 hts with ⟨between, rfl, hothers⟩ | ⟨between, rfl, hothers⟩
    · cases between with
      | nil =>
        obtain ⟨front, s₁, as, bs, more, s₂, hbefore, hafter, hs₁, hfront, hitem, hrest⟩ :=
          @ih [] hothers
        exact ⟨before ++ front, s₁, as, bs, more, s₂, by simpa using hbefore, hafter, hs₁,
          .cons hs (by simpa using h) hfront, hitem, hrest⟩
      | cons u between =>
        obtain ⟨rfl, rfl⟩ := List.cons_eq_cons.1 hothers
        exact ⟨[], s, before, between, others, s', rfl, rfl, hs, .nil s, h, hmore⟩
    · obtain ⟨front, s₁, as, bs, more, s₂, rfl, hafter, hs₁, hfront, hitem, hrest⟩ :=
        ih hothers.symm
      exact ⟨ts ++ front, s₁, as, bs, more, s₂, by simp, hafter, hs₁, .cons hs h hfront, hitem,
        hrest⟩

/-- The last tree of a row is the last tree of the item that the row ends with. -/
theorem Row.exists_last {item : Reading (List Tree)} (hitem : ReadsItems item)
    (h : Row item s ts rest) {p : Tree} (hp : p ∈ ts.getLast?) :
    ∃ s' us, item.parser s' = .ok (us, rest) ∧ p ∈ us.getLast? := by
  induction h with
  | nil => cases hp
  | @cons s s' rest ts others hs h hmore ih =>
    cases hmore with
    | nil => exact ⟨s, ts, h, by simpa using hp⟩
    | @cons _ _ _ us more hs' h' hmore' =>
      have hne : us ++ more ≠ [] := List.append_ne_nil_of_left_ne_nil (hitem.items hs' h').1 more
      rw [List.getLast?_append_of_ne_nil _ hne] at hp
      exact ih hp

/-- Reading an item or what stands for it answers items. -/
theorem settling_readsItems {item : Reading (List Tree)} (recover : Bool)
    (hitem : ReadsItems item) : ReadsItems (item.settling recover) := by
  cases recover with
  | true => exact recovering_readsItems hitem
  | false =>
    constructor
    · intro s ts rest hs h
      cases h
      have hreads := settle_reads false hs hitem
      exact ⟨hreads.trees_ne_nil, hreads.items, hreads.source⟩
    · intro s
      show ((item s).settle false s).rest <:+ s
      unfold Reply.settle
      split
      · rename_i h
        exact hitem.within.rest h
      · exact List.nil_suffix

/-- What holds of every tree in the items that are read holds of every tree in a row of them. -/
theorem everyOfAt_of_row {P : Tree → Input → Prop} {item : Reading (List Tree)}
    (hitem : ReadsItems item)
    (hP : ∀ {s ts rest}, item.parser s = .ok (ts, rest) → Tree.EveryOfAt P rest ts)
    (h : Row item s ts rest) : Tree.EveryOfAt P rest ts := by
  induction h with
  | nil => exact trivial
  | cons hs h hmore ih =>
    refine Tree.everyOfAt_append.2 ⟨?_, ih⟩
    rw [hmore.source hitem]
    exact hP h

/-! ## Statements -/

/-- Literal text, which is no tree if it is empty. -/
def textOf (text : List Char) : List Tree := if text = [] then [] else [.leaf none .text [] text]

/-- Literal text is of one kind. -/
theorem kind_of_mem_textOf {text : List Char} {t : Tree} (h : t ∈ textOf text) :
    t.kind = .text := by
  rw [textOf] at h
  split at h
  · cases h
  · exact List.mem_singleton.1 h ▸ rfl

/-- Literal text holds its characters. -/
theorem sources_textOf (text : List Char) : Tree.sources (textOf text) = text := by
  by_cases h : text = [] <;> simp [textOf, h, Tree.sources, Tree.source]

/-- A statement is one tree. If it begins a raw block, the body of that follows. -/
theorem exists_of_statement {operand : Extent → Parser Tree}
    (h : (statement operand).parser s = .ok (ts, rest)) :
    ∃ t s', Part.statement.read operand s = .ok ([t], s') ∧ t.kind = .statement ∧
      (opensRaw [t] = false ∧ ts = [t] ∧ rest = s' ∨
        opensRaw [t] = true ∧
          ∃ body, (rawBody s).parser s' = .ok (body, rest) ∧ ts = t :: body) := by
  obtain ⟨read, s', hread, h⟩ := statement_eq_ok.1 h
  obtain ⟨_, _, _, _, _, rfl⟩ := Part.exists_of_read_enclosed hread
  exact ⟨_, s', hread, rfl, h⟩

/-- The body of a raw block is the text before the statement that ends it. -/
theorem exists_of_rawBody {opener : Input} (h : (rawBody opener).parser s = .ok (ts, rest)) :
    ∃ text, splitBefore Token.atEndRaw s = (text, rest) ∧ rest ≠ [] ∧ ts = textOf text := by
  obtain ⟨hrest, rfl, rfl⟩ := rawBody_eq_ok.1 h
  exact ⟨(Token.scanRaw s).text, rfl, hrest, rfl⟩

end Markup

/-! ## Rows of items -/

/-- Whether trees of a kind stand in rows of items only: all items but values, which are held by
attributes too. -/
def Kind.standsInRow (kind : Kind) : Bool := kind.isItem && kind ≠ .value

/-- Of a tree that `rest` follows, that its items are a row: those between the opening and the
closing tag of an element, or all children of a template. Other trees have none. -/
def Tree.RowAt (recover : Bool) (t : Tree) (rest : Input) : Prop :=
  ∃ depth opening items closing, t.children = opening ++ items ++ closing ∧
    (∀ u ∈ opening ++ closing, u.kind.standsInRow = false) ∧
    (items ≠ [] → sources closing ++ rest = [] ∨
      Markup.atFooter (sources closing ++ rest) = true) ∧
    Markup.Row ((Markup.item recover depth).settling recover)
      (sources items ++ (sources closing ++ rest)) items (sources closing ++ rest)

/-- A tree without children that stand in rows has no items. -/
theorem Tree.rowAt_of_forall {recover : Bool} {t : Tree} {rest : Input}
    (h : ∀ u ∈ t.children, u.kind.standsInRow = false) : t.RowAt recover rest :=
  ⟨0, t.children, [], [], by simp, by simpa using h, nofun, .nil _⟩

/-- Of rows that do not look like items none is one. -/
theorem Tree.not_standsInRow {shape : Shape} {ts : List Tree}
    (hshape : shape.never (fun slot => slot.1.standsInRow) = true)
    (h : shape.Matches (ts.map slot)) : ∀ t ∈ ts, t.kind.standsInRow = false := by
  intro t ht
  have hnone := Shape.countP_of_never hshape h
  rw [List.countP_eq_zero] at hnone
  simpa [slot] using hnone t.slot (List.mem_map_of_mem ht)

/-- Only templates and elements hold items. -/
theorem Tree.rowAt_of_errorFree {recover : Bool} {t : Tree} {rest : Input} (h : t.Formed)
    (hkind : t.kind.isErrorFree = true) : t.RowAt recover rest := by
  have hshapes : ∀ kind ∈ Kind.all, kind.isErrorFree = true →
      (Shape.ofKind kind).never (fun slot => slot.1.standsInRow) = true := by decide +kernel
  exact rowAt_of_forall (not_standsInRow (hshapes _ t.kind.mem_all hkind) h.matches_shape)

namespace Markup

variable {recover : Bool} {depth : Nat} {s rest : Input} {ts : List Tree}

/-- An item is a tree without errors that is no statement, or a statement with what follows it, or
an element. -/
theorem itemOf_forms {operand : Extent → Parser Tree} {element : Reading Tree}
    (h : (itemOf operand element).parser s = .ok (ts, rest)) :
    (∃ t, ts = [t] ∧ t.kind.isErrorFree = true ∧ t.kind ≠ .statement) ∨
      (statement operand).parser s = .ok (ts, rest) ∨
      ∃ t, element.parser s = .ok (t, rest) ∧ ts = [t] := by
  simp only [Reading.parser, itemOf_eq] at h
  split at h
  case h_1 =>
    cases h
    exact .inl ⟨_, rfl, rfl, by simp [Token.leaf, Tree.kind]⟩
  case h_2 =>
    obtain ⟨_, _, _, _, _, rfl⟩ := Part.exists_of_read_enclosed h
    exact .inl ⟨_, rfl, rfl, by simp [Tree.kind]⟩
  case h_3 => exact .inr (.inl h)
  case h_4 =>
    obtain ⟨t, ht, rfl⟩ := Reading.parser_single_eq_ok.1 h
    have hkind : t.kind = .comment := by
      cases commentTree_of_comment ht with
      | empty | filled => rfl
    exact .inl ⟨t, rfl, hkind ▸ rfl, hkind ▸ by decide⟩
  case h_5 => exact .inr (.inr (Reading.parser_single_eq_ok.1 h))
  case h_6 => cases h

/-- A statement is of kinds without errors, and so is the body of the raw block that it may
begin. -/
theorem statement_errorFree {operand : Extent → Parser Tree}
    (h : (statement operand).parser s = .ok (ts, rest)) : ∀ t ∈ ts, t.kind.isErrorFree = true := by
  obtain ⟨t, s', -, hkind, ⟨-, rfl, -⟩ | ⟨-, body, hbody, rfl⟩⟩ := exists_of_statement h
  · exact List.forall_mem_singleton.2 (hkind ▸ rfl)
  · obtain ⟨text, -, -, rfl⟩ := exists_of_rawBody hbody
    refine List.forall_mem_cons.2 ⟨hkind ▸ rfl, fun t ht => ?_⟩
    rw [kind_of_mem_textOf ht]
    rfl

/-- In trees of kinds without errors there are no items. -/
theorem rows_of_errorFree (h : Tree.EveryOf Tree.Formed ts)
    (hkinds : ∀ t ∈ ts, t.kind.isErrorFree = true) :
    Tree.EveryOfAt (Tree.RowAt recover) rest ts :=
  Tree.everyOfAt_of_errorFree Tree.rowAt_of_errorFree h hkinds

/-- In an element that is read the items are a row, if they are so in the items of its body. -/
theorem element_rowAt
    (hnested : ∀ {s ts rest}, (nested recover depth).parser s = .ok (ts, rest) →
      Tree.EveryOfAt (Tree.RowAt recover) rest ts) {t : Tree}
    (h : (element (expression depth) (nested recover depth)).parser s = .ok (t, rest)) :
    t.EveryAt (Tree.RowAt recover) rest := by
  have ho := Part.operands_expression depth
  obtain ⟨first, s₁, tag, s₂, stop, s₃, hfirst, htag, hstop, h⟩ := element_eq_ok h
  -- What opens the element, and what closes it, is of kinds without errors and holds no items.
  obtain ⟨htagFits, htagFormed⟩ := tag_formed ho hfirst htag hstop
  have htagKinds := Part.areErrorFree_of_fitsAll _ (by decide) htagFits
  have htagItems := Tree.not_standsInRow (by decide) (Part.matches_of_fitsAll _ htagFits)
  generalize first :: tag ++ stop = tag at h htagFormed htagKinds htagItems
  rcases h with ⟨-, rfl, rfl⟩ | ⟨-, items, s₄, closing, hitems, hclosing, rfl⟩
  · exact ⟨Tree.rowAt_of_forall htagItems, rows_of_errorFree htagFormed htagKinds⟩
  · have hreads := nested_readsItems recover depth
    obtain ⟨hrow, hfooter⟩ := row_of_body hreads hitems
    have hclosingSource : Tree.sources closing ++ rest = s₄ :=
      Part.readAll_append ho.source _ hclosing
    have hcovered : Part.Covered (Part.productionsOf footer) := Part.covered_nil
    obtain ⟨hclosingFits, hclosingFormed⟩ := Part.readAll_formed ho rfl hcovered hclosing
    have hclosingKinds := Part.areErrorFree_of_fitsAll _ (by decide) hclosingFits
    have hclosingItems :=
      Tree.not_standsInRow (by decide) (Part.matches_of_fitsAll _ hclosingFits)
    subst hclosingSource
    refine ⟨⟨depth, tag, items, closing, rfl, ?_, fun _ => .inr hfooter, ?_⟩, ?_⟩
    · exact fun u hu => (List.mem_append.1 hu).elim (htagItems u) (hclosingItems u)
    · rw [hrow.source hreads]
      refine hrow.mono fun {s ts rest} h => ?_
      cases recover with
      | true => exact h
      | false => exact settling_of_ok false h
    · refine Tree.everyOfAt_append.2 ⟨Tree.everyOfAt_append.2 ⟨?_, ?_⟩, ?_⟩
      · exact rows_of_errorFree htagFormed htagKinds
      · exact everyOfAt_of_row hreads hnested hrow
      · exact rows_of_errorFree hclosingFormed hclosingKinds

/-- In what becomes of an item the items are rows, if they are so in the item: an error holds
none. -/
theorem settling_rowAt {item : Reading (List Tree)}
    (hitem : ∀ {s ts rest}, item.parser s = .ok (ts, rest) →
      Tree.EveryOfAt (Tree.RowAt recover) rest ts)
    (h : (item.settling recover).parser s = .ok (ts, rest)) :
    Tree.EveryOfAt (Tree.RowAt recover) rest ts := by
  rcases exists_of_settling h with h | ⟨-, skipped, rfl⟩
  · exact hitem h
  · exact ⟨Tree.rowAt_of_forall (List.forall_mem_nil _), trivial⟩

/-- In an item that is read the items are rows, if they are so in the elements that it may be. -/
theorem itemOf_rowAt {operand : Extent → Parser Tree} {element : Reading Tree}
    (hreads : ReadsItems (itemOf operand element))
    (helement : ∀ {s t rest}, element.parser s = .ok (t, rest) →
      t.EveryAt (Tree.RowAt recover) rest)
    (h : (itemOf operand element).parser s = .ok (ts, rest)) :
    Tree.EveryOfAt (Tree.RowAt recover) rest ts := by
  have hs : s ≠ [] := by
    rintro rfl
    cases h
  have hformed : Tree.EveryOf Tree.Formed ts :=
    Tree.everyOf_iff.2 fun t ht => ((hreads.items hs h).2.1 t ht).formed
  rcases itemOf_forms h with ⟨t, rfl, hkind, -⟩ | h | ⟨t, ht, rfl⟩
  · exact rows_of_errorFree hformed (List.forall_mem_singleton.2 hkind)
  · exact rows_of_errorFree hformed (statement_errorFree h)
  · exact ⟨helement ht, trivial⟩

/-- In an item that is read the items are rows. -/
theorem item_rowAt (depth : Nat) {s rest : Input} {ts : List Tree}
    (h : (item recover depth).parser s = .ok (ts, rest)) :
    Tree.EveryOfAt (Tree.RowAt recover) rest ts := by
  have hreads := item_readsItems recover depth
  induction depth generalizing s rest ts with
  | zero => exact itemOf_rowAt hreads (fun ht => absurd ht tooDeep_ne_ok) h
  | succ depth ih =>
    refine itemOf_rowAt hreads (fun ht => element_rowAt (fun hnested => ?_) ht) h
    have hitem : ∀ {s ts rest}, (item recover depth).parser s = .ok (ts, rest) →
        Tree.EveryOfAt (Tree.RowAt recover) rest ts :=
      fun h => ih h (item_readsItems recover depth)
    cases recover with
    | true => exact settling_rowAt hitem hnested
    | false => exact hitem hnested

end Markup

namespace Template

/-- The steps of a template read a row of items. -/
theorem row_of_steps (options : Options) (s : Input) :
    Markup.Row ((Markup.item options.recover options.maxDepth).settling options.recover) s
      ((steps options s).flatMap Step.trees) [] := by
  induction s using steps_induction options with
  | nil =>
    rw [steps_nil]
    exact .nil []
  | cons s hs ih =>
    rw [steps_eq_cons options hs, List.flatMap_cons]
    exact .cons hs rfl ih

/-- In a template, and in every element in it, the items are read in a row. -/
theorem parse_rows (options : Options) (source : Input) :
    (parse options source).tree.EveryAt (Tree.RowAt options.recover) [] := by
  have hrow := row_of_steps options source
  have hreads := Markup.settling_readsItems options.recover
    (Markup.item_readsItems options.recover options.maxDepth)
  refine ⟨⟨options.maxDepth, [], (steps options source).flatMap Step.trees, [],
    (List.append_nil _).symm, by simp, fun _ => .inl rfl, ?_⟩, ?_⟩
  · have hsource := hrow.source hreads
    show Markup.Row _ (_ ++ []) _ []
    rwa [hsource]
  · exact Markup.everyOfAt_of_row hreads (Markup.settling_rowAt (Markup.item_rowAt _)) hrow

end Template

end Stencil
