import Mathlib
import Stencil.Proofs.RawBlocks
import Stencil.Proofs.Restart

/-!
# Runs of literal text

Literal text is not broken into parts: a text stands neither behind another nor behind an error, and
apart from the bodies of raw blocks no opener begins in it and it goes up to an opener or to the end
of the source. Whatever ends in text or in an error ends there (`Markup.opens_of_settling`), and
where an opener begins no text does (`Markup.text_of_item`). So it is in every row of items
(`Markup.Row.exists_text`), and with that in every template (`Template.parse_text`).
-/

namespace Stencil

variable {s rest : Input} {text : List Char}

/-! ## Openers -/

/-- The openers: literal text ends where one of them stands. -/
def openers : List String := ["\x7b\x7b", "\x7b%", "\x7b#", "<"]

/-- Whether an opener comes next. -/
def Opens (s : Input) : Prop := ∃ w ∈ openers, w.toList <+: s

/-- The test for the end of literal text is whether an opener comes next. -/
theorem atOpener_iff_opens : atOpener s = true ↔ Opens s := by
  constructor
  · intro h
    unfold atOpener at h
    split at h
    · rename_i c more
      simp only [Bool.or_eq_true, decide_eq_true_eq] at h
      rcases h with (rfl | rfl) | rfl
      · exact ⟨"\x7b\x7b", by simp [openers], more, rfl⟩
      · exact ⟨"\x7b%", by simp [openers], more, rfl⟩
      · exact ⟨"\x7b#", by simp [openers], more, rfl⟩
    · rename_i more
      exact ⟨"<", by simp [openers], more, rfl⟩
    · cases h
  · rintro ⟨w, hw, more, rfl⟩
    simp only [openers, List.mem_cons, List.not_mem_nil, or_false] at hw
    rcases hw with rfl | rfl | rfl | rfl <;> rfl

/-- What begins with the statement that ends a raw block begins with an opener. -/
theorem BeginsEndRaw.opens (h : BeginsEndRaw s) : Opens s := by
  obtain ⟨leading, b, more, -, -, rfl⟩ := h
  exact ⟨"\x7b%", by simp [openers], List.prefix_append _ _⟩

/-- Literal text goes up to the end of the input or to an opener. -/
theorem opens_of_splitBefore (h : (splitBefore atOpener s).2 = rest) : rest = [] ∨ Opens rest := by
  by_cases hne : rest = []
  · exact .inl hne
  · subst h
    exact .inr (atOpener_iff_opens.1 (splitBefore_stops hne))

/-! ## Rows -/

namespace Markup

variable {recover : Bool} {depth : Nat} {t p : Tree} {ts before after : List Tree}

/-- Text in a statement is the body of the raw block that it begins. -/
theorem text_of_statement {operand : Extent → Parser Tree}
    (h : (statement operand).parser s = .ok (ts, rest)) (ht : t ∈ ts) (hkind : t.kind = .text) :
    ∃ u text, ts = [u, .leaf none .text [] text] ∧ text ≠ [] ∧ u.kind = .statement ∧
      opensRaw [u] = true ∧ BeginsEndRaw rest := by
  obtain ⟨u, s', -, hu, ⟨-, rfl, -⟩ | ⟨hraw, body, hbody, rfl⟩⟩ := exists_of_statement h
  · rw [List.mem_singleton.1 ht, hu] at hkind
    cases hkind
  · obtain ⟨text, -, hends, rfl⟩ := endsBefore_of_rawBody hbody
    rcases List.mem_cons.1 ht with rfl | ht
    · rw [hu] at hkind
      cases hkind
    · have hne : text ≠ [] := by
        rintro rfl
        cases ht
      exact ⟨u, text, by rw [textOf, if_neg hne], hne, hu, hraw, hends.begins⟩

/-- Where an item holds text, it is literal text, or the text is the body of the raw block that the
item begins. -/
theorem text_of_item (h : (item recover depth).parser s = .ok (ts, rest)) (ht : t ∈ ts)
    (hkind : t.kind = .text) :
    (∃ text, ts = [.leaf none .text [] text] ∧ atOpener s = false ∧ text ≠ [] ∧
        splitBefore atOpener s = (text, rest)) ∨
      ∃ u text, ts = [u, .leaf none .text [] text] ∧ text ≠ [] ∧ u.kind = .statement ∧
        opensRaw [u] = true ∧ BeginsEndRaw rest := by
  rw [item_eq] at h
  simp only [Reading.parser, itemOf_eq] at h
  split at h
  case h_1 hscan =>
    obtain ⟨hs, hopener⟩ := Token.not_atOpener_of_scanText hscan
    rw [Token.scanText_of_not_atOpener hs hopener] at h
    cases h
    exact .inl ⟨_, rfl, hopener, splitBefore_ne_nil hs hopener, rfl⟩
  case h_2 =>
    obtain ⟨_, _, _, _, _, rfl⟩ := Part.exists_of_read_enclosed h
    rw [List.mem_singleton.1 ht] at hkind
    cases hkind
  case h_3 => exact .inr (text_of_statement h ht hkind)
  case h_4 hscan =>
    obtain ⟨u, hu, rfl⟩ := Reading.parser_single_eq_ok.1 h
    obtain ⟨content, rfl, -⟩ := comment_eq_ok hscan hu
    rw [List.mem_singleton.1 ht] at hkind
    cases hkind
  case h_5 =>
    obtain ⟨u, hu, rfl⟩ := Reading.parser_single_eq_ok.1 h
    rw [List.mem_singleton.1 ht, kind_of_elementAt hu] at hkind
    cases hkind
  case h_6 => cases h

/-- An item that is read is no error. -/
theorem kind_ne_error_of_item (h : (item recover depth).parser s = .ok (ts, rest)) (ht : t ∈ ts) :
    t.kind ≠ .error := by
  have hfree : t.kind.isErrorFree = true ∨ t.kind = .element := by
    rw [item_eq] at h
    rcases itemOf_forms h with ⟨u, rfl, hfree, -⟩ | h | ⟨u, hu, rfl⟩
    · exact .inl (List.mem_singleton.1 ht ▸ hfree)
    · exact .inl (statement_errorFree h t ht)
    · exact .inr (List.mem_singleton.1 ht ▸ kind_of_elementAt hu)
  intro herror
  rw [herror] at hfree
  rcases hfree with hfree | hfree <;> cases hfree

/-- What ends with text or an error goes up to an opener or to the end of the input. -/
theorem opens_of_settling (h : ((item recover depth).settling recover).parser s = .ok (ts, rest))
    (hp : p ∈ ts.getLast?) (hkind : p.kind = .text ∨ p.kind = .error) :
    rest = [] ∨ Opens rest := by
  simp only [Reading.parser, Reading.settling, Reply.settle] at h
  split at h
  · rename_i trees stop hread
    cases h
    have hmem : p ∈ trees := List.mem_of_getLast? hp
    have htext := hkind.resolve_right (kind_ne_error_of_item hread hmem)
    rcases text_of_item hread hmem htext with ⟨_, -, -, -, hsplit⟩ | ⟨_, _, -, -, -, -, hends⟩
    · exact opens_of_splitBefore (congrArg Prod.snd hsplit)
    · exact .inr hends.opens
  · cases h
    cases recover with
    | true => exact opens_of_splitBefore rfl
    | false => exact .inl rfl

/-- Text in a row stands neither behind another text nor behind an error, and if it is no body of a
raw block it goes up to the first opener behind the place where it begins. -/
theorem Row.exists_text
    (h : Row ((item recover depth).settling recover) s (before ++ t :: after) rest)
    (hkind : t.kind = .text) :
    ∃ text, t = .leaf none .text [] text ∧ text ≠ [] ∧
      (∀ p ∈ before.getLast?, p.kind ≠ .text ∧ p.kind ≠ .error) ∧
      ((∃ p ∈ before.getLast?, p.kind = .statement ∧ opensRaw [p] = true) ∨
        splitBefore atOpener (text ++ (Tree.sources after ++ rest)) =
          (text, Tree.sources after ++ rest)) := by
  have hreads := settling_readsItems recover (item_readsItems recover depth)
  obtain ⟨front, s', as, bs, more, s'', rfl, rfl, hs', hfront, hitem, hmore⟩ := h.exists_item
  have hread : (item recover depth).parser s' = .ok (as ++ t :: bs, s'') := by
    rcases exists_of_settling hitem with h | ⟨-, skipped, heq⟩
    · exact h
    · have hmem : t ∈ [Tree.leaf none .error [] skipped] := heq ▸ by simp
      rw [List.mem_singleton.1 hmem] at hkind
      cases hkind
  have hafter := hmore.source hreads
  rcases text_of_item hread (by simp) hkind with
    ⟨text, heq, hopener, hne, hsplit⟩ | ⟨u, text, heq, hne, hstatement, hraw, -⟩
  · -- The item is the text, and what stands before it ends with neither, as no opener follows.
    obtain ⟨rfl, rfl, rfl⟩ : as = [] ∧ t = .leaf none .text [] text ∧ bs = [] := by
      cases as with
      | nil => simpa using heq
      | cons => simp at heq
    have htext := splitBefore_append atOpener s'
    rw [hsplit] at htext
    refine ⟨text, rfl, hne, fun p hp => ?_, .inr ?_⟩
    · rw [List.append_nil] at hp
      obtain ⟨s₀, us, hlast, hp⟩ := hfront.exists_last hreads hp
      refine not_or.1 fun hends => ?_
      rcases opens_of_settling hlast hp hends with hnil | hopens
      · exact hs' hnil
      · rw [atOpener_iff_opens.2 hopens] at hopener
        cases hopener
    · rw [List.nil_append, hafter, htext, hsplit]
  · -- The item is a statement that begins a raw block, and the text is its second tree.
    obtain ⟨rfl, rfl, rfl⟩ : as = [u] ∧ t = .leaf none .text [] text ∧ bs = [] := by
      match as, heq with
      | [], heq =>
        obtain ⟨rfl, -⟩ := List.cons_eq_cons.1 heq
        rw [hstatement] at hkind
        cases hkind
      | [v], heq => simpa using heq
      | _ :: _ :: _, heq => simp at heq
    have hlast : (front ++ [u]).getLast? = some u := List.getLast?_concat
    rw [hlast]
    refine ⟨text, rfl, hne, fun p hp => ?_, .inl ⟨u, rfl, hstatement, hraw⟩⟩
    obtain rfl := Option.some.inj hp
    rw [hstatement]
    exact ⟨nofun, nofun⟩

end Markup

/-! ## Trees -/

/-- Text among the children of a tree stands neither behind another text nor behind an error, and if
it is no body of a raw block it goes up to the first opener behind the place where it begins. -/
theorem Tree.RowAt.exists_text {recover : Bool} {u t : Tree} {before after : List Tree}
    (h : u.RowAt recover rest) (hchildren : u.children = before ++ t :: after)
    (hkind : t.kind = .text) :
    ∃ text, t = .leaf none .text [] text ∧ text ≠ [] ∧
      (∀ p ∈ before.getLast?, p.kind ≠ .text ∧ p.kind ≠ .error) ∧
      ((∃ p ∈ before.getLast?, p.kind = .statement ∧ Markup.opensRaw [p] = true) ∨
        splitBefore atOpener (text ++ (sources after ++ rest)) =
          (text, sources after ++ rest)) := by
  obtain ⟨depth, opening, b, a, closing, rfl, rfl, hopening, -, h⟩ :=
    h.exists_row hchildren (hkind ▸ rfl)
  obtain ⟨text, ht, hne, hlast, hends⟩ := h.exists_text hkind
  rw [sources_append, List.append_assoc]
  cases b with
  | cons p b =>
    rw [List.getLast?_append_of_ne_nil _ (List.cons_ne_nil p b)]
    exact ⟨text, ht, hne, hlast, hends⟩
  | nil =>
    -- Before the first item of an element there is its opening tag.
    refine ⟨text, ht, hne, fun p hp => ?_, .inr (hends.resolve_left (by simp))⟩
    rw [List.append_nil] at hp
    have hnot := hopening p (List.mem_of_getLast? hp)
    constructor <;> intro hp <;> rw [hp] at hnot <;> cases hnot

/-- A statement whose body begins a raw block is seen as one. -/
theorem Node.beginsRaw_place {t : Tree} (h : t.Formed) (hkind : t.kind = .statement)
    (hraw : Markup.opensRaw [t] = true) (id pos : Nat) : (t.place id pos).BeginsRaw := by
  let isBody : Slot → Bool := fun slot => slot.1.isStatementBody
  have hshape : (Shape.ofKind t.kind).once isBody = true := by
    rw [hkind]
    rfl
  have honce := Shape.countP_of_once hshape h.matches_shape
  rw [← map_slot_place t id pos, List.countP_map, List.countP_eq_length_filter] at honce
  change ((t.place id pos).children.filter fun c => c.kind.isStatementBody).length ≤ 1 at honce
  -- The body that begins a raw block is the only one.
  obtain ⟨body, hbody, hview⟩ : ∃ c ∈ (t.place id pos).children, c.kind = .rawStatement := by
    simp only [Markup.opensRaw, List.any_cons, List.any_nil, Bool.or_false, List.any_eq_true,
      decide_eq_true_eq] at hraw
    obtain ⟨c, hc, hraw⟩ := hraw
    rw [← Tree.placeAll_tree id pos t.children, ← Tree.place_children] at hc
    obtain ⟨n, hn, rfl⟩ := List.mem_map.1 hc
    exact ⟨n, hn, hraw⟩
  have hmem : body ∈ (t.place id pos).children.filter fun c => c.kind.isStatementBody :=
    List.mem_filter.2 ⟨hbody, by rw [hview]; rfl⟩
  obtain ⟨c, hc⟩ := List.length_eq_one_iff.1 (Nat.le_antisymm honce (List.length_pos_of_mem hmem))
  have hfind : (t.place id pos).children.find? (fun c => c.kind.isStatementBody) = some body := by
    rw [hc] at hmem
    rw [← List.head?_filter, hc, List.mem_singleton.1 hmem]
    rfl
  exact ⟨body, ((t.place id pos).child? .leadingTrim).isSome,
    ((t.place id pos).child? .trailingTrim).isSome, by simp only [view?, kind_place, hkind, hfind],
    by rw [view?, hview]⟩

/-! ## Templates -/

/-- Whether a node is a run of literal text in a source: no opener is in its text, and the text ends
where an opener comes next or nothing is left. -/
structure Node.IsRun (n : Node) (source : Input) : Prop where
  /-- No opener is in the text. -/
  free : ∀ w ∈ openers, ¬w.toList <:+: n.text
  /-- Behind the text an opener comes next, or nothing is left. -/
  ends : ∃ front rest, source = front ++ rest ∧ byteLength front = n.stop ∧
    (rest = [] ∨ Opens rest)

/-- Text up to the first place where an opener comes next holds none. -/
theorem not_infix_of_splitBefore (h : splitBefore atOpener (text ++ rest) = (text, rest)) :
    ∀ w ∈ openers, ¬w.toList <:+: text := by
  rintro w hw ⟨a, b, rfl⟩
  have hne : w.toList ++ b ≠ [] := by
    simp only [openers, List.mem_cons, List.not_mem_nil, or_false] at hw
    rcases hw with rfl | rfl | rfl | rfl <;> exact List.cons_ne_nil _ _
  have hstop := stop_eq_false_of_splitBefore h hne ⟨a, by simp⟩
  rw [atOpener_iff_opens.2 ⟨w, hw, b ++ rest, by simp⟩] at hstop
  cases hstop

namespace Template

/-- A text of a template is not empty and stands neither behind another text nor behind an error. If
it is not the body of a raw block, it is a run of literal text. -/
theorem parse_text (options : Options) (source : Input) {p n : Node} {before after : List Node}
    (hp : p ∈ (parse options source).tree.root.descendants)
    (hchildren : p.children = before ++ n :: after) (htext : n.kind = .text) :
    n.text ≠ [] ∧ (∀ m ∈ before.getLast?, m.kind ≠ .text ∧ m.kind ≠ .error) ∧
      ((∀ m ∈ before.getLast?, ¬m.BeginsRaw) → n.IsRun source) := by
  obtain ⟨u, number, pre, post, rfl, hsource, hrow⟩ :=
    Tree.exists_of_mem_descendants (parse_rows options source) hp
  obtain ⟨as, t, bs, i, j, has, htrees, rfl, rfl⟩ := Tree.exists_place_of_children hchildren
  rw [Node.kind_place] at htext
  obtain ⟨text, rfl, hne, hlast, hends⟩ := hrow.exists_text htrees htext
  rw [has, List.getLast?_map] at hlast hends
  refine ⟨hne, fun m hm => hlast m.tree (Option.mem_map_of_mem Node.tree hm), fun hnot => ?_⟩
  rcases hends with ⟨q, hq, hkind, hraw⟩ | hsplit
  · obtain ⟨m, hm, rfl⟩ := Option.mem_map.1 hq
    have hmem : m ∈ (parse options source).tree.root.descendants :=
      Node.mem_descendants_of_child hp
        (hchildren ▸ List.mem_append_left _ (List.mem_of_getLast? hm))
    obtain ⟨v, _, _, -, rfl, -, hevery⟩ := Tree.mem_descendants_place hmem
    rw [Tree.place_tree] at hkind hraw
    exact absurd (Node.beginsRaw_place (hevery _ (parse_formed options source)).here hkind hraw _ _)
      (hnot _ hm)
  · rw [List.append_nil] at hsplit
    have hends := opens_of_splitBefore (congrArg Prod.snd hsplit)
    refine ⟨not_infix_of_splitBefore hsplit, pre ++ (Tree.sources as ++ text),
      Tree.sources bs ++ post, ?_, ?_, hends⟩
    · rw [← source_tree options source, hsource, Tree.source_of_children htrees]
      simp [Tree.source]
    · rw [Tree.place_stop]
      simp [Tree.source, byteLength_append, Nat.add_assoc]

/-- Text with a brace that opens nothing, behind a value and before another. -/
theorem parse_text_brace :
    let options : Options := ⟨false, 2, by decide⟩
    let source : Input := ['{', '{', 'a', '}', '}', 'b', '{', 'c', '{', '{', 'd', '}', '}']
    let n : Node := (Tree.leaf none .text [] ['b', '{', 'c']).place 4 5
    ∃ p ∈ (parse options source).tree.root.descendants, ∃ before after,
      p.children = before ++ n :: after ∧ n.kind = .text ∧
        (∀ m ∈ before.getLast?, m.kind ≠ .text ∧ m.kind ≠ .error) ∧ n.IsRun source := by
  intro options source n
  have htree : (parse options source).tree = .node none .sourceFile
      [.node none .value
        [.leaf (some .openDelimiter) .delimiter [] ['{', '{'],
          .leaf (some .expression) .identifier [] ['a'],
          .leaf (some .closeDelimiter) .delimiter [] ['}', '}']],
        .leaf none .text [] ['b', '{', 'c'],
        .node none .value
        [.leaf (some .openDelimiter) .delimiter [] ['{', '{'],
          .leaf (some .expression) .identifier [] ['d'],
          .leaf (some .closeDelimiter) .delimiter [] ['}', '}']]] := by
    unfold parse ofSteps
    dsimp only
    cbv
  obtain ⟨m, after, hchildren, hm⟩ : ∃ m after,
      (parse options source).tree.root.children = [m] ++ n :: after ∧ m.kind = .value := by
    rw [htree]
    exact ⟨_, _, rfl, rfl⟩
  have hroot := Node.mem_descendants_self (parse options source).tree.root
  obtain ⟨-, hlast, hrun⟩ := parse_text options source hroot hchildren rfl
  refine ⟨_, hroot, [m], after, hchildren, rfl, hlast, hrun fun m' hm' hbegins => ?_⟩
  obtain rfl : m = m' := Option.some.inj hm'
  obtain ⟨_, _, _, hview, -⟩ := hbegins
  cases hm.symm.trans (Node.kind_of_view? hview)

end Template

end Stencil
