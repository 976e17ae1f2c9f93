import Mathlib
import Stencil.Proofs.Canonical
import Stencil.Tree.Layout

/-!
# Documents

How text is laid out in lines may be said without any tree. A document is text with spaces at which
a line may be broken, and some parts of it are groups; `Doc.Prints` is the rule by which a document
is printed. A group stays on its line if it fits there, together with what follows it up to the next
space that is broken; if it does not, all its own spaces are broken, and the groups in it are looked
at one by one.

`Tree.doc` is the document of a tree: a group for every node that is shown. The layout of a tree
decides for every node at once, from the width of its line and from the parentheses that close the
trees around it. That both agree (`Tree.printed_doc_iff`) comes from what follows a tree in its
document: some closing parentheses, and then the end or a space that is broken (`Doc.Closes`).
-/

namespace Stencil

/-- Text that may be laid out in lines. -/
inductive Doc where
  | text (s : String)
  /-- One space, or the end of a line. -/
  | space
  /-- Documents one behind the other. -/
  | list (ds : List Doc)
  /-- Lines that begin in the document are indented by some more columns. -/
  | nest (columns : Nat) (d : Doc)
  /-- The spaces of the document that are in no group inside it are all broken, or none is. -/
  | group (d : Doc)

/-- A document that is to be printed. -/
structure Piece where
  /-- The columns by which a line that begins in the document is indented. -/
  indent : Nat
  /-- Whether no space in the document is broken. -/
  flat : Bool
  /-- What is to be printed. -/
  doc : Doc

/-- The parentheses and the space of written forms take one column each. -/
theorem length_marks : "(".length = 1 ∧ ")".length = 1 ∧ " ".length = 1 := ⟨rfl, rfl, rfl⟩

namespace Doc

mutual

/-- The texts of a document, with `none` for each space that is broken. -/
def atoms (flat : Bool) : Doc → List (Option String)
  | text s => [some s]
  | space => [if flat then some " " else none]
  | list ds => atomsOfAll flat ds
  | nest _ d => d.atoms flat
  | group d => d.atoms flat

/-- The texts of some documents, with `none` for each space that is broken. -/
def atomsOfAll (flat : Bool) : List Doc → List (Option String)
  | [] => []
  | d :: ds => d.atoms flat ++ atomsOfAll flat ds

end

/-- The number of columns that texts take up to the first space that is broken. -/
def reach : List (Option String) → Nat
  | some s :: l => s.length + reach l
  | _ => 0

/-- The number of columns that some pieces take up to the first space that is broken. -/
def ahead (ps : List Piece) : Nat := reach (ps.flatMap fun p => p.doc.atoms p.flat)

/-- What some pieces are printed as in lines of a width, if `col` columns of the line are taken. -/
inductive Prints (width : Nat) : Nat → List Piece → List Char → Prop
  | done (col : Nat) : Prints width col [] []
  | text {col i : Nat} {flat : Bool} {s : String} {ps : List Piece} {out : List Char}
    (h : Prints width (col + s.length) ps out) :
    Prints width col (⟨i, flat, text s⟩ :: ps) (s.toList ++ out)
  | space {col i : Nat} {ps : List Piece} {out : List Char} (h : Prints width (col + 1) ps out) :
    Prints width col (⟨i, true, space⟩ :: ps) (' ' :: out)
  | newline {col i : Nat} {ps : List Piece} {out : List Char} (h : Prints width i ps out) :
    Prints width col (⟨i, false, .space⟩ :: ps) ('\n' :: (List.replicate i ' ' ++ out))
  | list {col i : Nat} {flat : Bool} {ds : List Doc} {ps : List Piece} {out : List Char}
    (h : Prints width col (ds.map (Piece.mk i flat) ++ ps) out) :
    Prints width col (⟨i, flat, list ds⟩ :: ps) out
  | nest {col i columns : Nat} {flat : Bool} {d : Doc} {ps : List Piece} {out : List Char}
    (h : Prints width col (⟨i + columns, flat, d⟩ :: ps) out) :
    Prints width col (⟨i, flat, nest columns d⟩ :: ps) out
  /-- A group in a flat document is flat. Another one is flat if it fits the line, together with
  what follows it there. -/
  | group {col i : Nat} {flat : Bool} {d : Doc} {ps : List Piece} {out : List Char}
    (h : Prints width col
      (⟨i, flat || decide (col + ahead (⟨i, true, d⟩ :: ps) ≤ width), d⟩ :: ps) out) :
    Prints width col (⟨i, flat, group d⟩ :: ps) out

/-- What a document is printed as in lines of a width. Its outermost spaces are broken. -/
def Printed (width : Nat) (d : Doc) (out : List Char) : Prop := Prints width 0 [⟨0, false, d⟩] out

/-- Pieces are printed in one way. -/
theorem Prints.unique {width col : Nat} {ps : List Piece} {out out' : List Char}
    (h : Prints width col ps out) (h' : Prints width col ps out') : out = out' := by
  induction h generalizing out' with
  | done =>
    cases h'
    rfl
  | text _ ih =>
    cases h' with
    | text h' => rw [ih h']
  | space _ ih =>
    cases h' with
    | space h' => rw [ih h']
  | newline _ ih =>
    cases h' with
    | newline h' => rw [ih h']
  | list _ ih =>
    cases h' with
    | list h' => exact ih h'
  | nest _ ih =>
    cases h' with
    | nest h' => exact ih h'
  | group _ ih =>
    cases h' with
    | group h' => exact ih h'

/-- What stands behind a tree: some closing parentheses, and then the end, or a space that is
broken. -/
structure Closes (width closers : Nat) (ps : List Piece) (out : List Char) : Prop where
  /-- Nothing but the parentheses stands on the line. -/
  ahead : ahead ps = closers
  /-- How the pieces are printed does not depend on the line on which they begin. -/
  prints : ∀ col, Prints width col ps (List.replicate closers ')' ++ out)

/-- A parenthesis more closes the trees around. -/
theorem Closes.paren {width closers : Nat} {ps : List Piece} {out : List Char}
    (h : Closes width closers ps out) (i : Nat) :
    Closes width (closers + 1) (⟨i, false, text ")"⟩ :: ps) out where
  ahead := by
    have hahead := h.ahead
    rw [Doc.ahead] at hahead
    simp [Doc.ahead, atoms, reach, hahead, length_marks, Nat.add_comm]
  prints _ := .text (h.prints _)

/-- The label of a node and its members, in parentheses. -/
def enclose (label : String) (members : List Doc) : Doc :=
  list [text ("(" ++ label), nest 2 (list members), text ")"]

/-- In parentheses the label is printed, and then the members, two columns further in. -/
theorem Prints.enclose {width col i : Nat} {flat : Bool} {label : String} {members : List Doc}
    {ps : List Piece} {out : List Char}
    (h : Prints width (col + 1 + label.length)
      (members.map (Piece.mk (i + 2) flat) ++ ⟨i, flat, .text ")"⟩ :: ps) out) :
    Prints width col (⟨i, flat, enclose label members⟩ :: ps) ('(' :: (label.toList ++ out)) := by
  have hlabel : '(' :: (label.toList ++ out) = ("(" ++ label).toList ++ out := by
    rw [String.toList_append, List.append_assoc]
    rfl
  rw [hlabel]
  refine .list (.text (.nest (.list ?_)))
  rwa [String.length_append, length_marks.1, ← Nat.add_assoc]

/-- A document behind what is written before a node that is held under a field. -/
def under (d : Doc) : Option Field → Doc
  | some f => list [text (f.label ++ ": "), d]
  | none => d

/-- What stands before a node is printed, and then the node. -/
theorem Prints.under {width col i : Nat} {flat : Bool} {d : Doc} {field : Option Field}
    {ps : List Piece} {out : List Char}
    (h : Prints width (col + (Field.lead field).length) (⟨i, flat, d⟩ :: ps) out) :
    Prints width col (⟨i, flat, d.under field⟩ :: ps) ((Field.lead field).toList ++ out) := by
  cases field with
  | none => exact h
  | some f => exact .list (.text h)

end Doc

namespace Tree

mutual

/-- The document of a tree. -/
def doc : Tree → Doc
  | leaf _ kind _ _ => .group (.enclose kind.label [])
  | node _ kind ts => .group (.enclose kind.label (docs ts))

/-- The documents of the named ones of some trees, each behind a space and its field. -/
def docs : List Tree → List Doc
  | [] => []
  | t :: ts => (if t.kind.isNamed then [.list [.space, t.doc.under t.field]] else []) ++ docs ts

end

/-- The document of a tree holds its kind and the documents of its children. -/
theorem doc_eq (t : Tree) : t.doc = .group (.enclose t.kind.label (docs t.children)) := by
  cases t <;> simp [doc, kind, children, docs]

mutual

/-- A tree in one line takes as many columns as its written form has characters. -/
theorem flatWidth_eq : (t : Tree) → t.flatWidth = t.sexp.length
  | leaf _ kind _ _ => by
    simp [flatWidth, sexp, length_marks]
    omega
  | node _ kind ts => by
    have hts := flatWidths_eq ts
    simp [flatWidth, sexp, hts, length_marks]
    omega

/-- Trees in one line take as many columns as their written forms have characters. -/
theorem flatWidths_eq : (ts : List Tree) → flatWidths ts = (sexps ts).length
  | [] => rfl
  | t :: ts => by
    have ht := flatWidth_eq t
    have hts := flatWidths_eq ts
    rw [flatWidths, sexps, String.length_append, hts, ht]
    cases t.kind.isNamed with
    | true =>
      simp [length_marks]
      omega
    | false => simp

end

/-! ## Trees in one line -/

mutual

/-- A tree in one line reaches as far as its written form. -/
theorem reach_doc : (t : Tree) → (l : List (Option String)) →
    Doc.reach (t.doc.atoms true ++ l) = t.sexp.length + Doc.reach l
  | leaf _ kind _ _, l => by
    simp [doc, Doc.enclose, Doc.atoms, Doc.atomsOfAll, Doc.reach, sexp]
    omega
  | node _ kind ts, l => by
    have hts := reach_docs ts (some ")" :: l)
    simp [doc, Doc.enclose, Doc.atoms, Doc.atomsOfAll, Doc.reach, sexp] at hts ⊢
    omega

/-- Trees in one line reach as far as their written forms. -/
theorem reach_docs : (ts : List Tree) → (l : List (Option String)) →
    Doc.reach (Doc.atomsOfAll true (docs ts) ++ l) = (sexps ts).length + Doc.reach l
  | [], l => by simp [docs, Doc.atomsOfAll, sexps]
  | t :: ts, l => by
    have hts := reach_docs ts l
    have ht := reach_doc t (Doc.atomsOfAll true (docs ts) ++ l)
    rw [docs, sexps]
    cases t.kind.isNamed with
    | false => simpa using hts
    | true =>
      cases t.field <;>
        simp [Doc.atoms, Doc.atomsOfAll, Doc.under, Doc.reach, Field.lead] at ht ⊢ <;> omega

end

variable {width : Nat}

/-- A tree none of whose spaces is broken is printed as its written form, if its children are. -/
theorem prints_flat_of_children {t : Tree} {col i : Nat} {ps : List Piece} {out : List Char}
    (hchildren : ∀ {col i : Nat} {ps : List Piece} {out : List Char},
      Doc.Prints width (col + (sexps t.children).length) ps out →
      Doc.Prints width col ((docs t.children).map (Piece.mk i true) ++ ps)
        ((sexps t.children).toList ++ out))
    (h : Doc.Prints width (col + t.sexp.length) ps out) :
    Doc.Prints width col (⟨i, true, t.doc⟩ :: ps) (t.sexp.toList ++ out) := by
  have hsexp : t.sexp.toList ++ out =
      '(' :: (t.kind.label.toList ++ ((sexps t.children).toList ++ (")".toList ++ out))) := by
    simp [sexp_eq]
  rw [hsexp, doc_eq]
  refine .group (.enclose (hchildren (.text ?_)))
  convert h using 1
  simp only [sexp_eq, String.length_append, length_marks]
  omega

mutual

/-- A tree none of whose spaces is broken is printed as its written form. -/
theorem prints_flat : (t : Tree) → {col i : Nat} → {ps : List Piece} → {out : List Char} →
    Doc.Prints width (col + t.sexp.length) ps out →
    Doc.Prints width col (⟨i, true, t.doc⟩ :: ps) (t.sexp.toList ++ out)
  | leaf .., _, _, _, _, h => prints_flat_of_children id h
  | node _ _ ts, _, _, _, _, h => prints_flat_of_children (prints_flats ts) h

/-- Trees none of whose spaces is broken are printed as their written forms. -/
theorem prints_flats : (ts : List Tree) → {col i : Nat} → {ps : List Piece} → {out : List Char} →
    Doc.Prints width (col + (sexps ts).length) ps out →
    Doc.Prints width col ((docs ts).map (Piece.mk i true) ++ ps) ((sexps ts).toList ++ out)
  | [], _, _, _, _, h => h
  | t :: ts, col, i, ps, out, h => by
    cases hnamed : t.kind.isNamed with
    | false =>
      simp only [docs, sexps, hnamed, Bool.false_eq_true, if_false, List.nil_append,
        String.empty_append] at h ⊢
      exact prints_flats ts h
    | true =>
      simp only [docs, sexps, hnamed, if_true, List.map_cons, List.cons_append,
        List.nil_append, String.toList_append, List.append_assoc] at h ⊢
      refine .list (.space (.under (prints_flat t (prints_flats ts ?_))))
      convert h using 1
      simp only [String.length_append, length_marks]
      omega

end

/-! ## Trees in several lines -/

/-- Lines as they are printed, a new line before each of them. -/
def printedLines (ls : List String) : List Char := ls.flatMap fun l => '\n' :: l.toList

/-- Nothing is written of trees without names, in one line, in lines and in a document. -/
theorem written_of_not_anyNamed {ts : List Tree} (h : anyNamed ts = false) :
    sexps ts = "" ∧ docs ts = [] ∧ ∀ width i closers, linesOfAll width i closers ts = [] := by
  induction ts with
  | nil => exact ⟨rfl, rfl, fun _ _ _ => rfl⟩
  | cons t ts ih =>
    rw [anyNamed, List.any_cons, Bool.or_eq_false_iff] at h
    obtain ⟨hsexps, hdocs, hlines⟩ := ih h.2
    simp [sexps, docs, linesOfAll, h.1, hsexps, hdocs, hlines]

/-- Whether a tree takes one line: it fits, or there is nothing in it to break. -/
def OneLine (width columns : Nat) (t : Tree) : Prop :=
  columns + t.sexp.length ≤ width ∨ anyNamed t.children = false

/-- A tree that fits, or in which there is nothing to break, takes one line. -/
theorem lines_of_oneLine {t : Tree} {lead : String} {i closers : Nat}
    (h : OneLine width (i + lead.length + closers) t) :
    t.lines width i lead closers = [line i (lead ++ t.sexp) closers] := by
  cases t with
  | leaf => simp [lines, sexp, String.append_assoc]
  | node f kind ts =>
    have hcond : (decide (i + lead.length + flatWidth (node f kind ts) + closers ≤ width) ||
        !anyNamed ts) = true := by
      rw [flatWidth_eq, Bool.or_eq_true, decide_eq_true_eq, Bool.not_eq_true']
      exact h.imp_left fun h => by omega
    rw [lines]
    exact if_pos hcond

/-- In every other tree each named child begins a line. -/
theorem lines_of_not_oneLine {f : Option Field} {kind : Kind} {ts : List Tree} {lead : String}
    {i closers : Nat} (h : ¬ OneLine width (i + lead.length + closers) (node f kind ts)) :
    (node f kind ts).lines width i lead closers =
      line i (lead ++ "(" ++ kind.label) 0 :: linesOfAll width (i + 2) (closers + 1) ts := by
  have hcond : ¬ (decide (i + lead.length + flatWidth (node f kind ts) + closers ≤ width) ||
      !anyNamed ts) = true := by
    rw [flatWidth_eq, Bool.or_eq_true, decide_eq_true_eq, Bool.not_eq_true']
    exact fun hor => h (hor.imp_left fun h => by omega)
  rw [lines]
  exact if_neg hcond

/-- A group is flat if it and the parentheses behind it fit the line. -/
theorem ahead_doc {t : Tree} {label : String} {members : List Doc}
    (hdoc : t.doc = .group (.enclose label members)) {closers i : Nat} {ps : List Piece}
    {out : List Char} (h : Doc.Closes width closers ps out) :
    Doc.ahead (⟨i, true, .enclose label members⟩ :: ps) = t.sexp.length + closers := by
  have hreach := reach_doc t (ps.flatMap fun p => p.doc.atoms p.flat)
  rw [hdoc] at hreach
  rw [← h.ahead]
  exact hreach

/-- A tree that takes one line is printed as that line. -/
theorem prints_of_oneLine {t : Tree} {lead : String} {i closers : Nat} {ps : List Piece}
    {out : List Char} (h : Doc.Closes width closers ps out)
    (ht : OneLine width (i + lead.length + closers) t) :
    Doc.Prints width (i + lead.length) (⟨i, false, t.doc⟩ :: ps)
      (t.sexp.toList ++ (List.replicate closers ')' ++ out)) := by
  have hdoc := t.doc_eq
  by_cases hfits : i + lead.length + closers + t.sexp.length ≤ width
  · have hflat := prints_flat (i := i) t (h.prints (i + lead.length + t.sexp.length))
    rw [hdoc] at hflat ⊢
    cases hflat with
    | group hflat =>
      refine .group ?_
      rwa [ahead_doc hdoc h, decide_eq_true (by omega)]
  · have hnone := ht.resolve_left hfits
    obtain ⟨hsexps, hdocs, -⟩ := written_of_not_anyNamed hnone
    have hsexp : t.sexp.toList ++ (List.replicate closers ')' ++ out) =
        '(' :: (t.kind.label.toList ++ (")".toList ++ (List.replicate closers ')' ++ out))) := by
      simp [sexp_eq, hsexps]
    rw [hdoc, hsexp, hdocs]
    exact .group (.enclose (.text (h.prints _)))

/-- A tree that takes one line is printed as its lines. -/
theorem prints_lines_of_oneLine {t : Tree} {lead : String} {i closers : Nat} {ps : List Piece}
    {out : List Char} (h : Doc.Closes width closers ps out)
    (ht : OneLine width (i + lead.length + closers) t) :
    ∃ printed, Doc.Prints width (i + lead.length) (⟨i, false, t.doc⟩ :: ps) (printed ++ out) ∧
      '\n' :: (List.replicate i ' ' ++ (lead.toList ++ printed)) =
        printedLines (t.lines width i lead closers) := by
  refine ⟨t.sexp.toList ++ List.replicate closers ')', ?_, ?_⟩
  · rw [List.append_assoc]
    exact prints_of_oneLine h ht
  · rw [lines_of_oneLine ht]
    simp [printedLines, line, pad]

mutual

/-- The document of a tree is printed as the lines of the tree. -/
theorem prints_lines : (t : Tree) → (lead : String) → {i closers : Nat} → {ps : List Piece} →
    {out : List Char} → Doc.Closes width closers ps out →
    ∃ printed, Doc.Prints width (i + lead.length) (⟨i, false, t.doc⟩ :: ps) (printed ++ out) ∧
      '\n' :: (List.replicate i ' ' ++ (lead.toList ++ printed)) =
        printedLines (t.lines width i lead closers)
  | leaf .., _, _, _, _, _, h => prints_lines_of_oneLine h (.inr rfl)
  | node f kind ts, lead, i, closers, ps, out, h => by
    by_cases hone : OneLine width (i + lead.length + closers) (node f kind ts)
    · exact prints_lines_of_oneLine h hone
    · obtain ⟨hfits, hany⟩ := not_or.1 hone
      have hrows := prints_linesOfAll ts (i := i + 2) (Bool.eq_true_of_not_eq_false hany)
        (h.paren i)
      refine ⟨'(' :: (kind.label.toList ++
        printedLines (linesOfAll width (i + 2) (closers + 1) ts)), ?_, ?_⟩
      · have hflat : decide (i + lead.length +
            Doc.ahead (⟨i, true, .enclose kind.label (docs ts)⟩ :: ps) ≤ width) = false := by
          rw [ahead_doc (t := node f kind ts) rfl h]
          exact decide_eq_false (by omega)
        refine .group ?_
        rw [hflat, List.cons_append, List.append_assoc]
        exact .enclose (hrows.prints _)
      · rw [lines_of_not_oneLine hone]
        simp [printedLines, line, pad]

/-- The documents of some trees are printed as the lines of the trees. -/
theorem prints_linesOfAll : (ts : List Tree) → {i closers : Nat} → {ps : List Piece} →
    {out : List Char} → anyNamed ts = true → Doc.Closes width closers ps out →
    Doc.Closes width 0 ((docs ts).map (Piece.mk i false) ++ ps)
      (printedLines (linesOfAll width i closers ts) ++ out)
  | [], _, _, _, _, h, _ => nomatch h
  | t :: ts, i, closers, ps, out, hany, h => by
    -- What stands behind the first tree: the others, or what stands behind them all.
    have hrest : Doc.Closes width (if anyNamed ts then 0 else closers)
        ((docs ts).map (Piece.mk i false) ++ ps)
        (printedLines (linesOfAll width i closers ts) ++ out) := by
      cases hts : anyNamed ts with
      | true => exact prints_linesOfAll ts hts h
      | false =>
        obtain ⟨-, hdocs, hlines⟩ := written_of_not_anyNamed hts
        rw [hdocs, hlines]
        exact h
    cases hnamed : t.kind.isNamed with
    | false =>
      have hts : anyNamed ts = true := by simpa [anyNamed, hnamed] using hany
      rw [hts] at hrest
      simpa [docs, linesOfAll, hnamed] using hrest
    | true =>
      obtain ⟨printed, hprinted, hlines⟩ := prints_lines t (Field.lead t.field) (i := i) hrest
      refine ⟨?_, fun col => ?_⟩
      · simp [docs, hnamed, Doc.ahead, Doc.atoms, Doc.atomsOfAll, Doc.reach]
      · simp only [docs, linesOfAll, hnamed, if_true, printedLines, List.flatMap_append,
          List.map_cons, List.cons_append, List.nil_append]
        rw [← printedLines, ← hlines]
        simpa [List.append_assoc] using .list (.newline (.under hprinted))

end

/-- The lines of a tree, as they are printed. -/
theorem printedLines_lines (t : Tree) (width : Nat) :
    printedLines (t.lines width 0 "" 0) = '\n' :: (t.pretty width).toList := by
  have hne : (t.lines width 0 "" 0).map String.toList ≠ [] := by
    cases t with
    | leaf => simp [lines]
    | node f kind ts =>
      rw [lines]
      split <;> simp
  rw [pretty, String.toList_intercalate, printedLines, ← List.flatMap_map]
  exact flatMap_cons_eq_intercalate hne

/-- The written form of a tree in lines is what its document is printed as. -/
theorem printed_doc_iff (t : Tree) (width : Nat) (out : List Char) :
    t.doc.Printed width out ↔ out = (t.pretty width).toList := by
  have hnil : Doc.Closes width 0 [] [] := ⟨rfl, Doc.Prints.done⟩
  obtain ⟨printed, hprinted, hlines⟩ := prints_lines t "" (i := 0) hnil
  rw [printedLines_lines] at hlines
  obtain rfl : printed = (t.pretty width).toList := (List.cons_eq_cons.1 hlines).2
  rw [List.append_nil] at hprinted
  constructor
  · exact fun h => h.unique hprinted
  · rintro rfl
    exact hprinted

end Tree

end Stencil
