import Stencil.Grammar.Markup
import Stencil.Options

/-!
# Templates

A template is read in steps, one for each top-level item. A step depends on the options and on
what is left to read alone, so what is read after it is what would be read of the rest by itself.
The tree, the faults and the journal are read off the steps, and a reader that is told to stop
looks for that between steps only.
-/

namespace Stencil

/-- The outcome of reading a template. -/
structure Parse where
  /-- The characters that were read. -/
  source : List Char
  /-- The tree of the template, which is complete even if there are faults. -/
  tree : Tree
  /-- What is wrong with the template, in the order of the places. -/
  errors : List Diagnostic
  /-- The journal. -/
  records : List Record

/-- The result of a parse for callers that take no malformed template. -/
def Parse.result (p : Parse) : Except (List Diagnostic) Tree :=
  if p.errors = [] then .ok p.tree else .error p.errors

namespace Template

/-- Reads one top-level item, or what stands for it if it is malformed. -/
def step (options : Options) (s : Input) : Step :=
  (Markup.item options.recover options.maxDepth s).settle options.recover s

/-- The steps in which `s` is read. A step that leaves as much as there was would repeat forever
and is therefore the last one. -/
def steps (options : Options) (s : Input) : List Step :=
  if s = [] then []
  else
    let first := step options s
    if first.rest.length < s.length then first :: steps options first.rest else [first]
termination_by s.length

/-- Leaves out every member that equals the one before it. -/
def dropRepeats {α : Type} [DecidableEq α] : List α → List α
  | a :: b :: l => if a = b then dropRepeats (b :: l) else a :: dropRepeats (b :: l)
  | l => l

/-- Diagnostics in the order of their positions, those at one position in the order in which they
were found, without repetitions. -/
def arrange (found : List Diagnostic) : List Diagnostic :=
  dropRepeats (found.mergeSort fun a b => a.pos ≤ b.pos)

/-- Leaving out repetitions leaves out no member. -/
theorem mem_dropRepeats {α : Type} [DecidableEq α] {a : α} (l : List α) :
    a ∈ dropRepeats l ↔ a ∈ l := by
  fun_induction dropRepeats l with
  | case1 b l ih =>
    rw [ih]
    simp
  | case2 b c l _ ih => simp [ih]
  | case3 => rfl

/-- Arranging diagnostics leaves out none. -/
theorem mem_arrange {d : Diagnostic} {found : List Diagnostic} :
    d ∈ arrange found ↔ d ∈ found := by
  rw [arrange, mem_dropRepeats, List.mem_mergeSort]

/-- Without diagnostics there is nothing to arrange. -/
theorem arrange_nil : arrange [] = [] := by
  rw [arrange, List.mergeSort_nil, dropRepeats]
  nofun

/-- There is nothing to arrange in one diagnostic. -/
theorem arrange_singleton (d : Diagnostic) : arrange [d] = [d] := by
  rw [arrange, List.mergeSort_singleton, dropRepeats]
  nofun

/-- The diagnostics of some events in a source of `size` bytes, in the order of the events. -/
def faults (size : Nat) (events : List Event) : List Diagnostic :=
  events.filterMap fun e => e.fault?.map (Fault.diagnose size)

/-- What some steps say about `source`. -/
def ofSteps (source : Input) (done : List Step) : Parse :=
  let size := byteLength source
  let events := done.flatMap Step.events
  { source := source
    tree := .node none .sourceFile (done.flatMap Step.trees)
    errors := arrange (faults size events)
    records := events.map (Event.record size) }

/-- Reads a template. -/
def parse (options : Options) (source : Input) : Parse :=
  ofSteps source (steps options source)

/-! ## Stopping early -/

/-- When a reader is told to stop. -/
structure Signal where
  /-- Whether the signal is up from the beginning. -/
  raised : Bool := false
  /-- The number of records after which the signal is up, if any; none is meant by zero too. -/
  after : Option Nat := none
deriving DecidableEq, Repr

/-- Whether the signal is up when `written` records are written. -/
def Signal.isUp (signal : Signal) (written : Nat) : Bool :=
  signal.raised || signal.after.any fun n => 0 < n && n ≤ written

/-- The steps that are taken before the signal is seen, with whether it is seen at all. The signal
is looked for before each step; `written` is the number of records written before. -/
def takeUntil (signal : Signal) (written : Nat) : List Step → List Step × Bool
  | [] => ([], false)
  | first :: more =>
    if signal.isUp written then ([], true)
    else
      let (done, stopped) := takeUntil signal (written + first.events.length) more
      (first :: done, stopped)

/-- The outcome of reading a template that may be stopped. -/
inductive Outcome where
  | done (parse : Parse)
  /-- Reading was stopped; what had been written of the journal remains. -/
  | cancelled (records : List Record)

/-- The text of the outcome that reading was stopped. -/
def cancelledMessage : String := "parsing was cancelled"

/-- Reads a template until it is told to stop. -/
def parseUntil (options : Options) (signal : Signal) (source : Input) : Outcome :=
  let (done, stopped) := takeUntil signal 0 (steps options source)
  let parse := ofSteps source done
  if stopped then .cancelled parse.records else .done parse

end Template

end Stencil
