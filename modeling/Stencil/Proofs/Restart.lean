import Mathlib
import Stencil.Proofs.Malformed
import Stencil.Proofs.Relocation

/-!
# Reading from an item on

The steps in which a template is read depend on what is left to read alone. So what is read from the
beginning of an item on is what is read of the rest by itself, and it is so of the faults too: those
that are reported before the item lie before those that are reported from it on, and where two of
them are at one place they are not the same (`Fault.Lies`). Neither arranging them nor leaving out
repetitions has anything to do across that place. The main statement is `Template.parse_restart`.
-/

namespace Stencil

/-- What is left after the first bytes, if these are some characters. -/
theorem dropBytes_append (text rest : List Char) :
    dropBytes (byteLength text) (text ++ rest) = rest := by
  induction text with
  | nil =>
    rw [byteLength, dropBytes]
    rfl
  | cons c text ih =>
    have hpos := c.utf8Size_pos
    obtain ⟨n, hn⟩ : ∃ n, c.utf8Size + byteLength text = n + 1 :=
      ⟨_, (Nat.sub_add_cancel (by omega)).symm⟩
    rw [byteLength, hn, List.cons_append, dropBytes, ← hn, Nat.add_sub_cancel_left, ih]

/-- The end of a text is no longer than the text. -/
theorem byteLength_le_of_suffix {a b : List Char} (h : a <:+ b) : byteLength a ≤ byteLength b := by
  obtain ⟨text, rfl⟩ := h
  rw [byteLength_append]
  omega

/-- The end of a text that is as long as the text is all of it. -/
theorem eq_of_suffix_of_byteLength_eq {a b : List Char} (h : a <:+ b)
    (hlength : byteLength a = byteLength b) : a = b := by
  obtain ⟨text, rfl⟩ := h
  rw [byteLength_append] at hlength
  cases text with
  | nil => rfl
  | cons c text =>
    have hpos := c.utf8Size_pos
    rw [byteLength] at hlength
    omega

/-! ## Raw blocks -/

namespace Markup

variable {operand : Extent → Parser Tree} {s rest : Input} {ts : List Tree}

/-- An item is one tree, or it is a statement that begins a raw block and the body of that. -/
def OneOrRaw (ts : List Tree) : Prop :=
  ∃ t, ts = [t] ∨ ∃ body, ts = [t, body] ∧ body.kind = .text ∧ opensRaw [t] = true

/-- A statement is one tree, or it begins a raw block and the body of that follows. -/
theorem statement_oneOrRaw (h : (statement operand).parser s = .ok (ts, rest)) : OneOrRaw ts := by
  obtain ⟨read, s', hread, h⟩ := statement_eq_ok.1 h
  obtain ⟨t, rfl⟩ : ∃ t, read = [t] := by
    simp only [Part.statement, Part.read, Parser.bind_eq_ok, Parser.pure_eq_ok] at hread
    obtain ⟨_, _, _, _, _, _, _, _, _, rfl, _⟩ := hread
    exact ⟨_, rfl⟩
  refine ⟨t, ?_⟩
  obtain ⟨-, rfl, rfl⟩ | ⟨hraw, body, hbody, rfl⟩ := h
  · exact .inl rfl
  · obtain ⟨-, -, rfl⟩ := rawBody_eq_ok.1 hbody
    split
    · exact .inl rfl
    · exact .inr ⟨_, rfl, rfl, hraw⟩

/-- An item is one tree, or it is a statement that begins a raw block and the body of that. -/
theorem itemOf_oneOrRaw {element : Reading Tree}
    (h : (itemOf operand element).parser s = .ok (ts, rest)) : OneOrRaw ts := by
  simp only [Reading.parser, itemOf_eq] at h
  split at h
  case h_1 =>
    cases h
    exact ⟨_, .inl rfl⟩
  case h_2 =>
    simp only [Reading.quiet, Part.value, Part.read, Parser.bind_eq_ok, Parser.pure_eq_ok] at h
    obtain ⟨_, _, _, _, _, _, _, _, _, rfl, _⟩ := h
    exact ⟨_, .inl rfl⟩
  case h_3 => exact statement_oneOrRaw h
  case h_4 | h_5 =>
    obtain ⟨t, -, rfl⟩ := Reading.parser_single_eq_ok.1 h
    exact ⟨t, .inl rfl⟩
  case h_6 => cases h

end Markup

/-- Whether a tree that stands behind others is the body of a raw block: text behind a statement
that begins one. -/
def IsRawBody (before : List Tree) (t : Tree) : Prop :=
  t.kind = .text ∧ ∃ p ∈ before.getLast?, Markup.opensRaw [p] = true

/-- A tree that is no body of a raw block is none if there are fewer trees before it. -/
theorem not_isRawBody_of_cons {p t : Tree} {before : List Tree} (h : ¬IsRawBody (p :: before) t) :
    ¬IsRawBody before t := by
  rintro ⟨htext, q, hq, hopens⟩
  exact h ⟨htext, q, by simp [List.getLast?_cons, Option.mem_def.1 hq], hopens⟩

/-! ## Steps -/

/-- What the steps of a strict reader report is reported by one that recovers. -/
theorem StepsAgree.subset {strict lenient : List Step} (h : StepsAgree strict lenient) :
    ∀ f ∈ faultsOf (strict.flatMap Step.events), f ∈ faultsOf (lenient.flatMap Step.events) := by
  intro f hf
  cases h with
  | same => exact hf
  | parted kept last first more fault skipped hone hmem =>
    rw [hone] at hf
    obtain rfl := List.mem_singleton.1 hf
    rw [List.flatMap_append, List.flatMap_cons, faultsOf_append, faultsOf_append]
    exact List.mem_append_right _ (List.mem_append_left _ hmem)

namespace Template

variable {options : Options} {s rest : Input} {f : Fault}

/-- A step of a reader that recovers reports faults in what it reads or skips, and with a cause of
its own where it begins. -/
theorem step_lies (hrecover : options.recover = true) (hs : s ≠ [])
    (hf : f ∈ faultsOf (step options s).events) :
    f.Lies s (step options s).rest ∧ (f.found = s → f.cause.isOfItem = true) := by
  obtain ⟨recover, maxDepth, hpos⟩ := options
  obtain rfl : recover = true := hrecover
  obtain ⟨depth, rfl⟩ : ∃ depth, maxDepth = depth + 1 := ⟨_, (Nat.sub_add_cancel hpos).symm⟩
  have hitem := Markup.item_faultsLie (depth + 1)
  have hwithin := (Markup.item_readsItems true (depth + 1)).within
  obtain ⟨hlies, hfound⟩ := Markup.settle_lies hitem hwithin hs hf
  refine ⟨hlies, fun heq => ?_⟩
  rcases hfound with hlt | ⟨e, he, rfl⟩
  · rw [heq] at hlt
    omega
  · exact Markup.item_found he heq

/-- A step of a strict reader after which something is left to read reports no fault. -/
theorem step_faultless (hstrict : options.recover = false) (hrest : (step options s).rest ≠ []) :
    faultsOf (step options s).events = [] := by
  obtain ⟨recover, maxDepth, hpos⟩ := options
  obtain rfl : recover = false := hstrict
  have hagrees := Markup.item_agrees maxDepth s
  have hstep : step ⟨false, maxDepth, hpos⟩ s = (Markup.item false maxDepth s).settle false s := rfl
  rw [hstep, Reply.settle] at hrest ⊢
  split at hrest
  · exact hagrees.faultless
  · exact absurd rfl hrest

/-- The steps of a template report faults in what is read, and with a cause of its own where that
begins. -/
theorem steps_found (options : Options)
    (hf : f ∈ faultsOf ((steps options s).flatMap Step.events)) :
    f.found <:+ s ∧ (f.found = s → f.cause.isOfItem = true) := by
  -- It is enough to show it of a reader that recovers.
  have hmem : f ∈ faultsOf ((steps { options with recover := true } s).flatMap Step.events) := by
    obtain ⟨recover, maxDepth, hpos⟩ := options
    cases recover with
    | true => exact hf
    | false => exact (steps_agree ⟨false, maxDepth, hpos⟩ s).subset f hf
  generalize hlenient : ({ options with recover := true } : Options) = lenient at hmem
  have hrecover : lenient.recover = true := by rw [← hlenient]
  clear hlenient hf
  induction s using steps_induction lenient with
  | nil =>
    rw [steps_nil] at hmem
    cases hmem
  | cons s hs ih =>
    rw [steps_eq_cons lenient hs, List.flatMap_cons, faultsOf_append] at hmem
    rcases List.mem_append.1 hmem with hmem | hmem
    · obtain ⟨hlies, hfound⟩ := step_lies hrecover hs hmem
      exact ⟨hlies.within, hfound⟩
    · have hlt := step_rest_lt lenient hs
      have hsuffix : (step lenient s).rest <:+ s := ⟨_, (step_reads lenient hs).source⟩
      obtain ⟨hwithin, -⟩ := ih hmem
      refine ⟨hwithin.trans hsuffix, fun hfound => ?_⟩
      have hle := hwithin.length_le
      rw [hfound] at hle
      omega

/-- The steps `done` are those that a reader takes from `s` on, until `rest` is left. -/
inductive Taken (options : Options) : Input → List Step → Input → Prop
  | nil (s : Input) : Taken options s [] s
  | cons {s : Input} {done : List Step} {rest : Input} (hs : s ≠ [])
    (h : Taken options (step options s).rest done rest) :
    Taken options s (step options s :: done) rest

namespace Taken

variable {done : List Step}

/-- Reading goes on with the steps of what is left. -/
theorem steps_eq (h : Taken options s done rest) :
    steps options s = done ++ steps options rest := by
  induction h with
  | nil => rfl
  | cons hs _ ih => rw [steps_eq_cons options hs, ih, List.cons_append]

/-- The steps hold what is read. -/
theorem source (h : Taken options s done rest) :
    Tree.sources (done.flatMap Step.trees) ++ rest = s := by
  induction h with
  | nil => rfl
  | cons hs _ ih =>
    rw [List.flatMap_cons, Tree.sources_append, List.append_assoc, ih,
      (step_reads options hs).source]

/-- The steps report faults before the place where something is left to read. -/
theorem lies (h : Taken options s done rest) (hrest : rest ≠ [])
    (hf : f ∈ faultsOf (done.flatMap Step.events)) : f.Lies s rest := by
  induction h with
  | nil => cases hf
  | cons hs h ih =>
    rename_i s done rest
    have hsuffix : (step options s).rest <:+ s := ⟨_, (step_reads options hs).source⟩
    have hmore : rest <:+ (step options s).rest := ⟨_, h.source⟩
    rw [List.flatMap_cons, faultsOf_append] at hf
    rcases List.mem_append.1 hf with hf | hf
    · cases hrecover : options.recover with
      | true => exact (step_lies hrecover hs hf).1.mono (List.suffix_refl s) hmore
      | false =>
        have hne : (step options s).rest ≠ [] := by
          intro hnil
          rw [hnil] at hmore
          exact hrest (List.suffix_nil.1 hmore)
        rw [step_faultless hrecover hne] at hf
        cases hf
    · exact (ih hrest hf).mono hsuffix (List.suffix_refl _)

end Taken

/-- A step is one tree, or it is a statement that begins a raw block and the body of that. -/
theorem step_oneOrRaw (options : Options) (s : Input) :
    Markup.OneOrRaw (step options s).trees := by
  show Markup.OneOrRaw ((Markup.item options.recover options.maxDepth s).settle _ s).trees
  unfold Reply.settle
  split
  · rename_i hresult
    cases hdepth : options.maxDepth with
    | zero => exact absurd hdepth (Nat.ne_of_gt options.maxDepth_pos)
    | succ depth =>
      rw [hdepth] at hresult
      exact Markup.itemOf_oneOrRaw hresult
  · exact ⟨_, .inl rfl⟩

/-- A step begins with every tree but the body of a raw block. -/
theorem exists_taken {before after : List Tree} {t : Tree}
    (htrees : (steps options s).flatMap Step.trees = before ++ t :: after)
    (hbody : ¬IsRawBody before t) :
    ∃ done rest, Taken options s done rest ∧ done.flatMap Step.trees = before ∧ rest ≠ [] := by
  induction s using steps_induction options generalizing before with
  | nil =>
    rw [steps_nil] at htrees
    simp at htrees
  | cons s hs ih =>
    cases before with
    | nil => exact ⟨[], s, .nil s, rfl, hs⟩
    | cons p before =>
      rw [steps_eq_cons options hs, List.flatMap_cons] at htrees
      obtain ⟨u, htree | ⟨body, htree, hkind, hraw⟩⟩ := step_oneOrRaw options s
      · -- The step is the first of the trees.
        rw [htree] at htrees
        obtain ⟨rfl, hmore⟩ := List.cons_eq_cons.1 htrees
        obtain ⟨done, rest, htaken, hdone, hrest⟩ :=
          ih hmore (not_isRawBody_of_cons hbody)
        refine ⟨_, rest, .cons hs htaken, ?_, hrest⟩
        rw [List.flatMap_cons, htree, hdone, List.singleton_append]
      · -- The step is a raw block, whose body is the second of the trees.
        rw [htree] at htrees
        obtain ⟨rfl, hsecond⟩ := List.cons_eq_cons.1 htrees
        cases before with
        | nil =>
          obtain ⟨rfl, -⟩ := List.cons_eq_cons.1 hsecond
          exact absurd ⟨hkind, u, rfl, hraw⟩ hbody
        | cons q before =>
          obtain ⟨rfl, hmore⟩ := List.cons_eq_cons.1 hsecond
          obtain ⟨done, rest, htaken, hdone, hrest⟩ :=
            ih hmore (not_isRawBody_of_cons (not_isRawBody_of_cons hbody))
          refine ⟨_, rest, .cons hs htaken, ?_, hrest⟩
          rw [List.flatMap_cons, htree, hdone]
          rfl

/-! ## Templates -/

/-- The diagnostics of some events of the end of a source, further on by what comes before that. -/
theorem faults_shift {events : List Event} (h : ∀ f ∈ faultsOf events, f.found <:+ rest) (b : Nat) :
    faults (b + byteLength rest) events =
      (faults (byteLength rest) events).map (Diagnostic.shift b) := by
  rw [faults_eq, faults_eq, List.map_map]
  exact List.map_congr_left fun f hf => Fault.diagnose_shift (h f hf) b

/-- A fault before a place, and one from there on, are two diagnostics, and the first does not lie
behind the second. -/
theorem diagnose_apart {f g : Fault} (hf : f.Lies s rest) (hg : g.found <:+ rest)
    (hopens : g.found = rest → g.cause.isOfItem = true) :
    (f.diagnose (byteLength s)).pos ≤ (g.diagnose (byteLength s)).pos ∧
      f.diagnose (byteLength s) ≠ g.diagnose (byteLength s) := by
  have hle := byteLength_le_of_suffix (hg.trans hf.before)
  refine ⟨Nat.sub_le_sub_left hle _, fun heq => ?_⟩
  obtain ⟨hcause, hpos⟩ := Diagnostic.mk.inj heq
  -- At one position both faults lie at the place itself.
  have hwithin := byteLength_le_of_suffix hf.within
  have hbefore := byteLength_le_of_suffix hf.before
  have hbehind := byteLength_le_of_suffix hg
  simp only [offset] at hpos
  have hfirst := eq_of_suffix_of_byteLength_eq hf.before (by omega)
  have hsecond := eq_of_suffix_of_byteLength_eq hg (by omega)
  have hno := hf.last hfirst.symm
  rw [hcause, hopens hsecond] at hno
  cases hno

/-- The diagnostics of steps that leave something to read are arranged apart from those of what is
left. -/
theorem errors_of_taken {done : List Step} (h : Taken options s done rest) (hrest : rest ≠ []) :
    (parse options s).errors = (ofSteps s done).errors ++
      (parse options rest).errors.map
        (Diagnostic.shift (byteLength (Tree.sources (done.flatMap Step.trees)))) := by
  have hsize := congrArg byteLength h.source
  rw [byteLength_append] at hsize
  have hfound := fun f (hf : f ∈ faultsOf ((steps options rest).flatMap Step.events)) =>
    steps_found options hf
  have happend : (parse options s).errors = (ofSteps s done).errors ++
      arrange (faults (byteLength s) ((steps options rest).flatMap Step.events)) := by
    rw [parse, errors_ofSteps, errors_ofSteps, faults_eq, h.steps_eq, List.flatMap_append,
      faultsOf_append, List.map_append, arrange_append]
    intro a ha b hb
    obtain ⟨f, hf, rfl⟩ := List.mem_map.1 ha
    obtain ⟨g, hg, rfl⟩ := List.mem_map.1 hb
    exact diagnose_apart (h.lies hrest hf) (hfound g hg).1 (hfound g hg).2
  rw [happend, ← hsize, faults_shift fun f hf => (hfound f hf).1, arrange_shift]
  rfl

/-- The nodes of a template are those of its steps, one after the other. -/
theorem parse_children (options : Options) (source : Input) :
    (parse options source).tree.root.children =
      Tree.placeAll 0 0 ((steps options source).flatMap Step.trees) :=
  Tree.place_children _ 0 0

/-- What is read of a source from a byte on is what is read of the rest by itself. `earlier` are the
steps before that byte; they read the nodes `before`, and the nodes `rest` come after these. -/
structure Restart (options : Options) (source : Input) (b : Nat) (earlier : List Step)
    (before rest : List Node) : Prop where
  /-- A character begins at the byte. -/
  boundary : ∃ text, source = text ++ dropBytes b source ∧ byteLength text = b
  /-- Some steps read the nodes before the byte. -/
  trees : before.map Node.tree = earlier.flatMap Step.trees
  /-- The others are those of the rest by itself. -/
  steps : steps options source = earlier ++ steps options (dropBytes b source)
  /-- The nodes from the byte on are those of the rest, moved. -/
  nodes : rest = (parse options (dropBytes b source)).tree.root.children.map
    (Node.shift (Tree.sizes (before.map Node.tree)) b)
  /-- What the steps before the byte report comes first, and then what is reported of the rest,
  moved. -/
  errors : (parse options source).errors = (ofSteps source earlier).errors ++
    (parse options (dropBytes b source)).errors.map (Diagnostic.shift b)

/-- A template can be read from every item on, but not from the body of a raw block. -/
theorem parse_restart (options : Options) (source : Input) {before after : List Node} {n : Node}
    (hchildren : (parse options source).tree.root.children = before ++ n :: after)
    (hbody : ¬IsRawBody (before.map Node.tree) n.tree) :
    ∃ earlier, Restart options source n.start earlier before (n :: after) := by
  have htrees : (steps options source).flatMap Step.trees =
      before.map Node.tree ++ n.tree :: after.map Node.tree := by
    have h := congrArg (List.map Node.tree) hchildren
    rwa [parse_children, Tree.placeAll_tree, List.map_append, List.map_cons] at h
  obtain ⟨earlier, rest, htaken, hbefore, hrest⟩ := exists_taken htrees hbody
  have hsource := htaken.source
  rw [hbefore] at hsource
  -- The nodes are those before the item, and those of what is left, moved behind them.
  have hnodes := hchildren
  rw [parse_children, htaken.steps_eq, List.flatMap_append, hbefore, Tree.placeAll_append_shift,
    ← parse_children] at hnodes
  have hlength : (Tree.placeAll 0 0 (before.map Node.tree)).length = before.length := by
    have h := congrArg List.length (Tree.placeAll_tree 0 0 (before.map Node.tree))
    rwa [List.length_map, List.length_map] at h
  obtain ⟨-, hafter⟩ := List.append_inj hnodes hlength
  -- No blanks stand before the item, so that it begins where the others end.
  have hstart : n.start = byteLength (Tree.sources (before.map Node.tree)) := by
    have hitem : n.tree.Item := (steps_items options source).1 n.tree (by simp [htrees])
    have hn := congrArg List.head? hafter
    rw [parse_children] at hn
    cases hmore : (steps options rest).flatMap Step.trees with
    | nil =>
      rw [hmore] at hn
      cases hn
    | cons t ts =>
      rw [hmore, Tree.placeAll_cons, List.map_cons, List.head?_cons, List.head?_cons,
        Option.some.injEq] at hn
      rw [← hn, Node.shift_tree, Tree.place_tree] at hitem
      rw [← hn, Node.shift_start, Tree.place_start, hitem.gap, byteLength, Nat.zero_add]
  have hdrop : dropBytes n.start source = rest := by
    rw [hstart, ← hsource, dropBytes_append]
  refine ⟨earlier, ?_⟩
  constructor
  · exact ⟨_, by rw [hdrop, hsource], hstart.symm⟩
  · exact hbefore.symm
  · rw [hdrop]
    exact htaken.steps_eq
  · rw [hdrop, hstart]
    exact hafter.symm
  · rw [hdrop, hstart, ← hbefore]
    exact errors_of_taken htaken hrest

/-- The value that lacks an operand and the closing tag where the operand should stand report two
faults at one byte. Reading from that byte on reports the second one. -/
theorem parse_restart_closingTag :
    let options : Options := ⟨true, 3, by decide⟩
    let source : Input := ['é', '{', '{', '1', '+', '<', '/', 'b', '>', 'x']
    let before : List Node := Tree.placeAll 0 0
      [.leaf none .text [] ['é'], .leaf none .error [] ['{', '{', '1', '+']]
    let tag : Node := (Tree.leaf none .error [] ['<', '/', 'b', '>', 'x']).place 2 6
    (parse options source).tree.root.children = before ++ [tag] ∧
      ¬IsRawBody (before.map Node.tree) tag.tree ∧
      (parse options source).errors = [⟨.unexpectedToken "expression", 6⟩,
        ⟨.unexpectedToken "text, element or template tag", 6⟩] ∧
      ∃ earlier, Restart options source 6 earlier before [tag] := by
  intro options source before tag
  have hchildren : (parse options source).tree.root.children = before ++ [tag] := by
    unfold parse ofSteps
    dsimp only
    cbv
  have hbody : ¬IsRawBody (before.map Node.tree) tag.tree := fun h => by cases h.1
  refine ⟨hchildren, hbody, ?_, parse_restart options source hchildren hbody⟩
  unfold parse ofSteps
  dsimp only
  cbv

end Template

end Stencil
