import Mathlib
import Stencil.Proofs.Concatenation
import Stencil.View

/-!
# A template in an element

A template without faults is a row of items, and so is the body of an element; so the template can
stand between the tags of an element, inside which elements may nest one less deep. The nodes of the
body are those of the template, moved behind the opening tag. The main statement is
`Template.parse_wrap`.
-/

namespace Stencil

/-- The name of a tag: a letter, and then letters, digits and hyphens. -/
def IsTagName (name : List Char) : Prop :=
  ∃ c more, name = c :: more ∧ c.isAlpha = true ∧ ∀ d ∈ more, isTagChar d = true

namespace Markup

/-- The opening tag of a name. -/
def openTag (name : List Char) : List Char := '<' :: (name ++ ['>'])

/-- The closing tag of a name. -/
def closeTag (name : List Char) : List Char := '<' :: '/' :: (name ++ ['>'])

/-- The leaves of the opening tag of a name. -/
def openLeaves (name : List Char) : List Tree :=
  [.leaf none .punctuation [] ['<'], .leaf (some .name) .tagName [] name,
    .leaf none .punctuation [] ['>']]

/-- The leaves of the closing tag of a name. -/
def closeLeaves (name : List Char) : List Tree :=
  [.leaf none .punctuation [] ['<', '/'], .leaf (some .closeName) .tagName [] name,
    .leaf none .punctuation [] ['>']]

variable {name : List Char} {s rest : Input} {depth : Nat}

/-! ## Tags -/

/-- The name of a tag is a word. -/
theorem scan_tagName (hname : IsTagName name) (rest : Input) :
    Token.scan .tag (name ++ '>' :: rest) = .ok ⟨.word, [], name, '>' :: rest⟩ := by
  obtain ⟨c, more, rfl, hc, hmore⟩ := hname
  have hother : ∀ d, d.isAlpha = false → c ≠ d := by
    rintro d hd rfl
    rw [hc] at hd
    cases hd
  have hblank : isBlank c = false := by simp [isBlank, hother]
  have hquote : ¬(decide (c = '"') || decide (c = '\'')) = true := by simp [hother]
  obtain ⟨htake, hdrop⟩ := @Token.takeWhile_stop '>' rest isTagChar rfl more
  rw [List.takeWhile_eq_self_iff.2 hmore] at htake
  rw [List.dropWhile_eq_nil_iff.2 hmore, List.nil_append] at hdrop
  have hscan : Token.scanTag (c :: (more ++ '>' :: rest)) =
      .ok ⟨.word, [], c :: more, '>' :: rest⟩ := by
    rw [Token.scanTag.eq_6 _ _ (hother '>' rfl) (fun _ h => absurd h (hother '/' rfl))
      (hother '=' rfl) (fun _ h => absurd h (hother '{' rfl)), if_neg hquote, if_pos hc, htake,
      hdrop]
  show Token.afterBlanks Token.scanTag (c :: (more ++ '>' :: rest)) = _
  rw [Token.afterBlanks, List.dropWhile_cons_of_neg (by simp [hblank]), hscan,
    List.takeWhile_cons_of_neg (by simp [hblank])]

/-- The bracket that ends a tag. -/
theorem scan_tagClose (rest : Input) :
    Token.scan .tag ('>' :: rest) = .ok ⟨.tagClose, [], ['>'], rest⟩ := rfl

/-- A token that fits as a whole is read into its leaf. -/
theorem read_leaf {field : Option Field} {kind : Kind} {mode : Mode} {pattern : Pattern}
    {expected : String} {t : Token} (hscan : Token.scan mode s = .ok t)
    (htake : pattern.take? t = some t) :
    (⟨field, kind, mode, pattern, expected⟩ : Terminal).read s =
      .ok (t.leaf field kind, t.rest) :=
  Terminal.read_of_scan hscan htake

/-- The opening tag of a name has that name and no attributes. -/
theorem header_openTag (hname : IsTagName name) (rest : Input) :
    Part.readAll (expression depth) header (name ++ '>' :: rest) =
      .ok ([.leaf (some .name) .tagName [] name], '>' :: rest) := by
  refine Part.readAll_cons (Part.read_token (read_leaf (scan_tagName hname rest) rfl))
    (Part.readAll_singleton (Part.read_repeated_nil ?_))
  exact Look.holds_of_scan (scan_tagClose rest)

/-- The opening tag of a name does not close itself. -/
theorem headerEnd_openTag (rest : Input) :
    Part.readAll (expression depth) headerEnd ('>' :: rest) =
      .ok ([.leaf none .punctuation [] ['>']], rest) := by
  refine Part.readAll_singleton (Part.read_choice_no ?_ (Part.readAll_singleton ?_))
  · exact Look.holds_of_scan (scan_tagClose rest)
  · exact Part.read_token (read_leaf (scan_tagClose rest) rfl)

/-- The closing tag of a name. -/
theorem footer_closeTag (hname : IsTagName name) (rest : Input) :
    Part.readAll (expression depth) footer (closeTag name ++ rest) =
      .ok (closeLeaves name, rest) := by
  have hopen : Token.scan .text (closeTag name ++ rest) =
      .ok ⟨.endTagOpen, [], ['<', '/'], name ++ '>' :: rest⟩ := by
    simp [closeTag, Token.scan, Token.scanText]
  refine Part.readAll_cons (Part.read_token (read_leaf hopen rfl)) ?_
  refine Part.readAll_cons (Part.read_token (read_leaf (scan_tagName hname rest) rfl)) ?_
  exact Part.readAll_singleton (Part.read_token (read_leaf (scan_tagClose rest) rfl))

/-! ## Elements -/

/-- A row of items between the tags of a name is an element. -/
theorem element_of_row {item : Reading (List Tree)} {ts : List Tree} (hitem : Bounded item)
    (hname : IsTagName name) (hrow : Row item s ts (closeTag name ++ rest)) :
    (element (expression depth) item).parser (openTag name ++ s) =
      .ok (.node none .element (openLeaves name ++ ts ++ closeLeaves name), rest) := by
  have hopen : opener.read (openTag name ++ s) =
      .ok (.leaf none .punctuation [] ['<'], name ++ '>' :: s) := by
    obtain ⟨c, more, rfl, hc, -⟩ := hname
    have happend : openTag (c :: more) ++ s = '<' :: c :: (more ++ '>' :: s) := by simp [openTag]
    rw [happend]
    exact read_opener_of_isAlpha hc _
  have hstop : ∀ last ∈ [Tree.leaf none .punctuation [] ['>']], last.text ≠ ['/', '>'] := by
    simp [Tree.text, Tree.source, Tree.gap]
  exact element_of_body hopen (header_openTag hname s) (headerEnd_openTag s) hstop
    (hrow.body hitem rfl) (footer_closeTag hname rest)

/-- A row of items that leaves nothing is an item between the tags of a name, where elements may
nest one deeper. -/
theorem item_of_row {ts : List Tree} (hname : IsTagName name)
    (hrow : Row (Markup.item false depth) s ts []) :
    (Markup.item false (depth + 1)).parser (openTag name ++ s ++ closeTag name) =
      .ok ([.node none .element (openLeaves name ++ ts ++ closeLeaves name)], []) := by
  have hbody := hrow.append (item_bounded depth) (x := closeTag name) (.inr (.inl rfl))
    fun h => by cases h
  have helement : (element (expression depth) (Markup.item false depth)).parser
      (openTag name ++ (s ++ closeTag name)) = _ :=
    @element_of_row name _ [] depth _ ts (item_bounded depth) hname (by simpa using hbody)
  have hkind : (Token.scanText (openTag name ++ (s ++ closeTag name))).kind = .tagOpen := by
    obtain ⟨c, more, rfl, hc, -⟩ := hname
    exact congrArg Token.kind (scanText_of_isAlpha hc _)
  rw [List.append_assoc]
  show (itemOf _ _ _).result = _
  rw [itemOf_eq, hkind]
  exact Reading.parser_single_eq_ok.2 ⟨_, helement, rfl⟩

end Markup

/-! ## Templates -/

/-- What an element means that has the tags of a name around a row of items. -/
theorem Node.view?_of_children {n : Node} {name : List Char} {before items after : List Node}
    (hkind : n.kind = .element) (hchildren : n.children = before ++ items ++ after)
    (hbefore : before.map Node.tree = Markup.openLeaves name)
    (hafter : after.map Node.tree = Markup.closeLeaves name)
    (hitems : ∀ c ∈ items, c.tree.Item) : n.view? =
      some (.element (some name) (some name) false [] items) := by
  simp only [Markup.openLeaves, List.map_eq_cons_iff, List.map_eq_nil_iff] at hbefore
  obtain ⟨a, _, rfl, ha, b, _, rfl, hb, c, _, rfl, hc, rfl⟩ := hbefore
  simp only [Markup.closeLeaves, List.map_eq_cons_iff, List.map_eq_nil_iff] at hafter
  obtain ⟨d, _, rfl, hd, e, _, rfl, he, f, _, rfl, hf, rfl⟩ := hafter
  -- Items have no fields, and they are neither tokens nor attributes.
  have hfield : ∀ g, items.find? (fun c => c.field = some g) = none := by
    intro g
    refine List.find?_eq_none.2 fun c hc => ?_
    simp [Node.field, (hitems c hc).field]
  have hother : ∀ k : Kind, k.isItem = false → ∀ c ∈ items, c.kind ≠ k := by
    rintro _ hk c hc rfl
    have hitem : c.kind.isItem = true := (hitems c hc).kind
    rw [hk] at hitem
    cases hitem
  have hitem : items.filter (fun c => c.kind.isItem) = items :=
    List.filter_eq_self.2 fun c hc => (hitems c hc).kind
  have hattribute : items.filter (fun c => c.kind = .tagAttribute) = [] :=
    List.filter_eq_nil_iff.2 fun c hc => by simpa using hother .tagAttribute rfl c hc
  have htoken : items.any (fun c => c.kind = .punctuation && c.text = "/>".toList) = false :=
    List.any_eq_false.2 fun c hc => by simp [hother .punctuation rfl c hc]
  simp only [Node.view?, hkind, Node.child?, Node.hasToken, Node.ofKind, Node.items, hchildren,
    List.find?_append, List.filter_append, List.any_append, hfield, hitem, hattribute, htoken]
  simp [Node.field, Node.kind, Node.text, ha, hb, hc, hd, he, hf, Tree.field, Tree.kind, Tree.text,
    Tree.source, Tree.gap, Kind.isItem]

/-- There is nothing in an empty template. -/
theorem Template.parse_nil (options : Options) :
    (parse options []).tree.root.children = [] ∧ (parse options []).errors = [] := by
  obtain ⟨hnone, htree⟩ := parse_of_whole_row (.nil [])
  rw [htree]
  exact ⟨rfl, hnone⟩

/-- A template without faults can stand between the tags of a name, where elements may nest one
deeper. It becomes one element without attributes, whose items are those of the template, moved
behind the opening tag. -/
theorem Template.parse_wrap (options : Options) {name : List Char} (hname : IsTagName name)
    (body : Input) (hclean : (parse options body).errors = []) :
    let outer : Options := ⟨options.recover, options.maxDepth + 1, Nat.succ_pos _⟩
    let tag := Markup.openTag name
    let wrapped := parse outer (tag ++ body ++ Markup.closeTag name)
    wrapped.errors = [] ∧ ∃ element, wrapped.tree.root.children = [element] ∧
      element.kind = .element ∧ element.view? =
        some (.element (some name) (some name) false []
          ((parse options body).tree.root.children.map (Node.shift 3 (byteLength tag)))) := by
  intro outer tag wrapped
  have hitems := (steps_items options body).1
  rw [parse_children options body]
  have hrow := row_of_errors_nil hclean
  generalize (steps options body).flatMap Step.trees = ts at hrow hitems ⊢
  have hne : tag ++ body ++ Markup.closeTag name ≠ [] := by simp [tag, Markup.openTag]
  have houter := @parse_of_row outer _ _ _
    (.cons hne (Markup.item_of_row hname hrow) (.nil []))
  obtain ⟨hnil, hnone⟩ := parse_nil outer
  rw [hnil, hnone] at houter
  refine ⟨houter.2, _, houter.1, rfl, ?_⟩
  -- The children are the leaves of the tags and, moved behind the opening one, the items.
  have hchildren : ((Tree.node none .element (Markup.openLeaves name ++ ts ++
      Markup.closeLeaves name)).place 0 0).children = _ :=
    (Tree.place_children _ 0 0).trans (Tree.placeAll_append 0 0 _ _)
  rw [Tree.placeAll_append_shift] at hchildren
  have hsource : Tree.sources (Markup.openLeaves name) = tag := by
    simp [Markup.openLeaves, Tree.sources, Tree.source, tag, Markup.openTag]
  have hsizes : Tree.sizes (Markup.openLeaves name) = 3 := rfl
  rw [hsource, hsizes] at hchildren
  refine Node.view?_of_children rfl hchildren (Tree.placeAll_tree 0 0 _)
    (Tree.placeAll_tree _ _ _) fun c hc => ?_
  obtain ⟨d, hd, rfl⟩ := List.mem_map.1 hc
  rw [Node.shift_tree]
  refine hitems _ ?_
  rw [← Tree.placeAll_tree 0 0 ts]
  exact List.mem_map_of_mem hd

/-- Text and a value between the tags of a name, which come four bytes further on. -/
theorem Template.parse_wrap_value :
    let options : Options := ⟨false, 1, by decide⟩
    let name : List Char := ['h', '1']
    let body : Input := ['é', '{', '{', 'x', '}', '}']
    let items : List Tree := [.leaf none .text [] ['é'],
      .node none .value [.leaf (some .openDelimiter) .delimiter [] ['{', '{'],
        .leaf (some .expression) .identifier [] ['x'],
        .leaf (some .closeDelimiter) .delimiter [] ['}', '}']]]
    let wrapped := parse ⟨false, 2, by decide⟩
      ['<', 'h', '1', '>', 'é', '{', '{', 'x', '}', '}', '<', '/', 'h', '1', '>']
    IsTagName name ∧ (parse options body).errors = [] ∧ wrapped.errors = [] ∧
      ∃ element, wrapped.tree.root.children = [element] ∧ element.kind = .element ∧
        element.view? =
          some (.element (some name) (some name) false [] (Tree.placeAll 3 4 items)) := by
  intro options name body items wrapped
  have hname : IsTagName name := ⟨'h', ['1'], rfl, rfl, List.forall_mem_singleton.2 rfl⟩
  have hclean : (parse options body).errors = [] := by
    unfold parse ofSteps
    dsimp only
    cbv
  have hchildren : (parse options body).tree.root.children = Tree.placeAll 0 0 items := by
    unfold parse ofSteps
    dsimp only
    cbv
  have hlength : byteLength (Markup.openTag name) = 4 := by decide
  obtain ⟨herrors, element, hroot, hkind, hview⟩ := parse_wrap options hname body hclean
  rw [hchildren, hlength, ← Tree.placeAll_shift] at hview
  exact ⟨hname, hclean, herrors, element, hroot, hkind, hview⟩

end Stencil
