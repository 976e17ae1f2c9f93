import Stencil.Proofs.Arguments
import Stencil.Proofs.Stepwise

/-!
# Reading on trial

The machine finds out whether an argument is a named one by reading its name and the sign of
assignment on trial (`Machine.trial`). In every state the trial succeeds where looking ahead finds
the two tokens, and where it fails the machine is as it was. So an argument is read on the machine
as if it had looked ahead: a named argument from its name on, and another one as the expression that
it is, by a machine that nothing has been done to. The main statement is `Machine.speculates`.
-/

namespace Stencil

namespace Machine

/-- Reading the name of an argument and the sign of assignment behind it on trial. -/
def trial : Action Machine (List Link) := attempt (keyword (.name .key) (.mark .assign "`=`"))

/-- A name and the sign of assignment are read where they are written. -/
theorem readBefore_iff_named (s : Input) :
    Terminal.ReadBefore (.name .key) (.mark .assign "`=`") s ↔ Named (s.dropWhile isBlank) :=
  (atNamed_iff rfl rfl s).symm.trans (atNamed_iff_named s)

/-- The trial succeeds where a name and a sign of assignment come next, and where it fails the
machine is as it was. -/
theorem trial_cases (m : Machine) :
    (Named (m.rest.dropWhile isBlank) ∧ ∃ links m', trial m = (.ok links, m')) ∨
      ¬Named (m.rest.dropWhile isBlank) ∧ ∃ fault, trial m = (.error fault, m) := by
  rcases attempt_cases (.name .key) (.mark .assign "`=`") m with
    ⟨hread, links, m', -, htrial⟩ | ⟨hread, fault, htrial⟩
  · exact .inl ⟨(readBefore_iff_named m.rest).1 hread, links, m', htrial⟩
  · exact .inr ⟨mt (readBefore_iff_named m.rest).2 hread, fault, htrial⟩

/-- An argument is read as looking ahead says. -/
theorem part_argument (operand : Extent → Action Machine Nat) (m : Machine) :
    part operand Part.argument m =
      part operand
        (if atNamed m.rest then .node none .keywordArgument
          [.token (.name .key), .token (.mark .assign "`=`"), .operand (some .value) .whole]
        else .operand none .whole) m := by
  rw [Part.argument, part_named rfl rfl]
  split <;> simp [parts]

/-- Reading arguments on trial and reading them by looking ahead are the same. -/
structure Speculates (options : Options) (source : Input) : Prop where
  /-- The machine, which tries, makes the nodes of the template and finds its faults. -/
  parse : Machine.parse options source =
    ((Template.parse options source).tree.root.numbered.map Node.entry,
      (Template.parse options source).errors)
  /-- Whatever the state is, the trial succeeds where a name, blanks or none, and a sign of
  assignment that is no sign of equality come next. -/
  succeeds : ∀ m, (∃ links m', trial m = (.ok links, m')) ↔ Named (m.rest.dropWhile isBlank)
  /-- A trial that fails leaves the cursor, the arena with the fields of its nodes, the level and
  the faults as they were. -/
  fails : ∀ m fault m', trial m = (.error fault, m') → m' = m
  /-- Where the trial would succeed an argument is read as a named one from its name on. -/
  named : ∀ operand m, Named (m.rest.dropWhile isBlank) →
    part operand Part.argument m = part operand (.node none .keywordArgument
      [.token (.name .key), .token (.mark .assign "`=`"), .operand (some .value) .whole]) m
  /-- Where the trial would fail an argument is read as an expression at once. -/
  other : ∀ operand m, ¬Named (m.rest.dropWhile isBlank) →
    part operand Part.argument m = part operand (.operand none .whole) m
  /-- An argument of an argument list in the template is a named one if a name, blanks or none, and
  a sign of assignment that is no sign of equality stand where it begins. Otherwise it is the
  expression that is read there, with the blanks before it. -/
  argument : ∀ list ∈ (Template.parse options source).tree.root.descendants,
    list.kind = .argumentList → ∀ n ∈ list.children, n.kind ≠ .punctuation →
      ∃ (t : Tree) (number : Nat) (before after : List Char),
        n = t.place number (byteLength before) ∧ source = before ++ (t.source ++ after) ∧
          (n.kind = .keywordArgument ↔ Named (dropBytes n.start source)) ∧
          (¬Named (dropBytes n.start source) →
            Stencil.expression options.maxDepth .whole (t.source ++ after) = .ok (t, after))

/-- The machine speculates, and what it makes of arguments is what looking ahead does. -/
theorem speculates (options : Options) (source : Input) : Speculates options source where
  parse := parse_eq options source
  succeeds m := by
    rcases trial_cases m with ⟨hnamed, links, m', htrial⟩ | ⟨hnot, fault, htrial⟩
    · exact iff_of_true ⟨links, m', htrial⟩ hnamed
    · refine iff_of_false ?_ hnot
      rintro ⟨links, m', hok⟩
      cases htrial.symm.trans hok
  fails m fault m' h := by
    rcases trial_cases m with ⟨-, links, m₁, htrial⟩ | ⟨-, fault', htrial⟩
    · cases htrial.symm.trans h
    · cases htrial.symm.trans h
      rfl
  named operand m h := by
    rw [part_argument, if_pos ((atNamed_iff_named m.rest).2 h)]
  other operand m h := by
    rw [part_argument, if_neg (mt (atNamed_iff_named m.rest).1 h)]
  argument _ hlist hkind _ hn hmark := Template.exists_argument options source hlist hkind hn hmark

end Machine

end Stencil
