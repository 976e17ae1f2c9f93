import Mathlib
import Stencil.Proofs.Restart
import Stencil.Proofs.Rows

/-!
# Templates one after another

A template without faults is a row of items that are read (`Template.row_of_errors_nil`), and a
reader takes such a row in steps that report nothing (`Template.exists_taken_of_row`). In front of
more input the row is the same, unless it ends with text that goes on. So the nodes of two templates
one after the other are those of the first and then those of the second, and the faults are those of
the second. The main statement is `Template.parse_append`.
-/

namespace Stencil.Template

variable {options : Options} {s rest : Input} {ts : List Tree}

/-- An item that a strict reader reads is a step of any reader, and it reports no fault. -/
theorem step_of_item (h : (Markup.item false options.maxDepth).parser s = .ok (ts, rest)) :
    (step options s).trees = ts ∧ (step options s).rest = rest ∧
      faultsOf (step options s).events = [] := by
  have hagrees := Markup.item_agrees options.maxDepth s
  have hstep : step options s = ⟨ts, (Markup.item false options.maxDepth s).events, rest⟩ := by
    unfold step
    cases options.recover with
    | true => exact hagrees.settle_ok h true
    | false =>
      have h : (Markup.item false options.maxDepth s).result = .ok (ts, rest) := h
      rw [Reply.settle, h]
  rw [hstep]
  exact ⟨rfl, rfl, hagrees.faultless⟩

/-- A row of items is taken in steps that report no fault. -/
theorem exists_taken_of_row (h : Markup.Row (Markup.item false options.maxDepth) s ts rest) :
    ∃ done, Taken options s done rest ∧ done.flatMap Step.trees = ts ∧
      faultsOf (done.flatMap Step.events) = [] := by
  induction h with
  | nil s => exact ⟨[], .nil s, rfl, rfl⟩
  | cons hs h _ ih =>
    obtain ⟨htrees, hrest, hnone⟩ := step_of_item h
    obtain ⟨done, htaken, hdone, hdoneNone⟩ := ih
    refine ⟨_, .cons hs (hrest ▸ htaken), ?_, ?_⟩
    · rw [List.flatMap_cons, htrees, hdone]
    · rw [List.flatMap_cons, faultsOf_append, hnone, hdoneNone, List.append_nil]

/-- Steps of a strict reader that report no fault are those of a row of items. -/
theorem row_of_faultless (hstrict : options.recover = false)
    (hnone : faultsOf ((steps options s).flatMap Step.events) = []) :
    Markup.Row (Markup.item false options.maxDepth) s
      ((steps options s).flatMap Step.trees) [] := by
  induction s using steps_induction options with
  | nil =>
    rw [steps_nil]
    exact .nil []
  | cons s hs ih =>
    rw [steps_eq_cons options hs, List.flatMap_cons] at hnone ⊢
    rw [faultsOf_append, List.append_eq_nil_iff] at hnone
    obtain ⟨hfirst, hmore⟩ := hnone
    refine .cons hs ?_ (ih hmore)
    -- An item that is malformed would be reported.
    unfold step at hfirst ⊢
    rw [hstrict] at hfirst ⊢
    unfold Reply.settle at hfirst ⊢
    split
    · assumption
    · rename_i hresult
      rw [hresult, faultsOf_append] at hfirst
      simp [faultsOf, Event.fault?] at hfirst

/-- Without faults a strict reader takes the steps of one that recovers. -/
theorem eq_of_stepsAgree {strict lenient : List Step} (h : StepsAgree strict lenient)
    (hnone : faultsOf (lenient.flatMap Step.events) = []) : strict = lenient := by
  cases h with
  | same => rfl
  | parted kept last first more fault skipped hone hmem =>
    rw [List.flatMap_append, List.flatMap_cons, faultsOf_append, faultsOf_append,
      List.append_eq_nil_iff, List.append_eq_nil_iff] at hnone
    rw [hnone.2.1] at hmem
    cases hmem

/-- A template without faults is a row of items. -/
theorem row_of_errors_nil (h : (parse options s).errors = []) :
    Markup.Row (Markup.item false options.maxDepth) s
      ((steps options s).flatMap Step.trees) [] := by
  have hnone : faultsOf ((steps options s).flatMap Step.events) = [] := errors_ofSteps_eq_nil.1 h
  have hsteps : steps { options with recover := false } s = steps options s := by
    obtain ⟨recover, maxDepth, hpos⟩ := options
    cases recover with
    | true => exact eq_of_stepsAgree (steps_agree ⟨true, maxDepth, hpos⟩ s) hnone
    | false => rfl
  rw [← hsteps] at hnone ⊢
  exact @row_of_faultless { options with recover := false } s rfl hnone

/-- A row of items that leaves nothing is a template without faults, whose tree has these items. -/
theorem parse_of_whole_row (h : Markup.Row (Markup.item false options.maxDepth) s ts []) :
    (parse options s).errors = [] ∧ (parse options s).tree = .node none .sourceFile ts := by
  obtain ⟨done, htaken, rfl, hnone⟩ := exists_taken_of_row h
  have hsteps : steps options s = done := by rw [htaken.steps_eq, steps_nil, List.append_nil]
  rw [parse, hsteps]
  exact ⟨errors_ofSteps_eq_nil.2 hnone, rfl⟩

/-- The nodes and the diagnostics of a template that begins with a row of items: those of the row,
and those of the rest, moved. -/
theorem parse_of_row (h : Markup.Row (Markup.item false options.maxDepth) s ts rest) :
    (parse options s).tree.root.children = Tree.placeAll 0 0 ts ++
        (parse options rest).tree.root.children.map
          (Node.shift (Tree.sizes ts) (byteLength (Tree.sources ts))) ∧
      (parse options s).errors =
        (parse options rest).errors.map (Diagnostic.shift (byteLength (Tree.sources ts))) := by
  obtain ⟨done, htaken, rfl, hnone⟩ := exists_taken_of_row h
  constructor
  · rw [parse_children, parse_children, htaken.steps_eq, List.flatMap_append,
      Tree.placeAll_append_shift]
  · have hsize := congrArg byteLength htaken.source
    rw [byteLength_append] at hsize
    have hfound := fun f (hf : f ∈ faultsOf ((steps options rest).flatMap Step.events)) =>
      (steps_found options hf).1
    have hfaults : faults (byteLength s) ((steps options s).flatMap Step.events) =
        faults (byteLength s) ((steps options rest).flatMap Step.events) := by
      rw [faults_eq, faults_eq, htaken.steps_eq, List.flatMap_append, faultsOf_append, hnone,
        List.nil_append]
    show arrange _ = _
    rw [hfaults, ← hsize, faults_shift hfound, arrange_shift]
    rfl

/-- The nodes of a template without faults and of one that follows it are the nodes of the first and
then those of the second, moved, and the diagnostics are those of the second, moved, if the first
one does not end with text. -/
theorem parse_append (options : Options) (first second : Input)
    (hclean : (parse options first).errors = [])
    (hlast : ∀ n ∈ (parse options first).tree.root.children.getLast?, n.kind ≠ .text) :
    let nodes := (parse options first).tree.root.children
    (parse options (first ++ second)).tree.root.children =
        nodes ++ (parse options second).tree.root.children.map
          (Node.shift (Tree.sizes (nodes.map Node.tree)) (byteLength first)) ∧
      (parse options (first ++ second)).errors =
        (parse options second).errors.map (Diagnostic.shift (byteLength first)) := by
  intro nodes
  have hnodes : nodes = Tree.placeAll 0 0 ((steps options first).flatMap Step.trees) :=
    parse_children options first
  have hkinds : ∀ t ∈ ((steps options first).flatMap Step.trees).getLast?, t.kind ≠ .text := by
    have htrees := Tree.placeAll_tree 0 0 ((steps options first).flatMap Step.trees)
    rw [← hnodes] at htrees
    rw [← htrees, List.getLast?_map]
    intro t ht
    obtain ⟨n, hn, rfl⟩ := Option.map_eq_some_iff.1 ht
    exact hlast n hn
  have hrow := (row_of_errors_nil hclean).append (Markup.item_bounded options.maxDepth)
    (x := second) (.inr (.inr hkinds)) fun h => by cases h
  have hsource : Tree.sources ((steps options first).flatMap Step.trees) = first :=
    (steps_items options first).2
  have hparse := parse_of_row hrow
  rw [hsource, ← hnodes] at hparse
  rw [hnodes, Tree.placeAll_tree, ← hnodes]
  exact hparse

/-- An element and a value that is not closed: the error that stands for the value comes behind the
element, and what is reported of the value is reported there. -/
theorem parse_append_openValue :
    let options : Options := ⟨true, 3, by decide⟩
    let first : Input := ['<', 'b', '>', 'é', '<', '/', 'b', '>']
    let second : Input := ['{', '{', '1']
    let element : Node := (Tree.node none .element
      [.leaf none .punctuation [] ['<'], .leaf (some .name) .tagName [] ['b'],
        .leaf none .punctuation [] ['>'], .leaf none .text [] ['é'],
        .leaf none .punctuation [] ['<', '/'], .leaf (some .closeName) .tagName [] ['b'],
        .leaf none .punctuation [] ['>']]).place 0 0
    let error : Node := (Tree.leaf none .error [] ['{', '{', '1']).place 8 9
    (parse options first).errors = [] ∧ (parse options first).tree.root.children = [element] ∧
      (parse options (first ++ second)).tree.root.children = [element, error] ∧
      (parse options (first ++ second)).errors = [⟨.unterminatedDelimiter, 9⟩] := by
  intro options first second element error
  have hclean : (parse options first).errors = [] := by
    unfold parse ofSteps
    dsimp only
    cbv
  have hfirst : (parse options first).tree.root.children = [element] := by
    unfold parse ofSteps
    dsimp only
    cbv
  have hsecond : (parse options second).tree.root.children =
      [(Tree.leaf none .error [] second).place 0 0] := by
    unfold parse ofSteps
    dsimp only
    cbv
  have hopen : (parse options second).errors = [⟨.unterminatedDelimiter, 0⟩] := by
    unfold parse ofSteps
    dsimp only
    cbv
  have hlast : ∀ n ∈ (parse options first).tree.root.children.getLast?, n.kind ≠ .text := by
    rw [hfirst]
    simp [element, Node.kind, Tree.kind]
  obtain ⟨hchildren, herrors⟩ := parse_append options first second hclean hlast
  rw [hfirst, hsecond] at hchildren
  rw [hopen] at herrors
  exact ⟨hclean, hfirst, hchildren, herrors⟩

end Stencil.Template
