import Stencil.Diagnostic

/-!
# The journal

While it reads, the library notes what it reads verbatim and what it skips. Notes stand even if
the item in which they were made is given up later. An event gives places by what is left to read
there; a record is what is written of an event once the source is known.
-/

namespace Stencil

/-- A stretch of the input. -/
structure Region where
  /-- What is left to read where the stretch begins. -/
  start : Input
  /-- The characters of the stretch. -/
  text : List Char
deriving DecidableEq, Repr

/-- The byte offsets at which a region of a source of `size` bytes begins and ends. -/
def Region.span (size : Nat) (r : Region) : Nat × Nat :=
  let start := offset size r.start
  (start, start + byteLength r.text)

/-- What is noted. -/
inductive Event where
  /-- The first token of a comment: its content, or what stands there if it has none. -/
  | comment (body : Region)
  /-- The body of a raw block. -/
  | raw (body : Region)
  /-- A fault, and what is skipped because of it. -/
  | skipped (fault : Fault) (region : Region)
deriving DecidableEq, Repr

/-- How much of the journal is wanted. Each level includes those before it. -/
inductive Level where
  | off | error | warn | info | debug | trace
deriving DecidableEq, Repr

namespace Level

/-- The rank of a level: what is of a lower rank is written too. -/
def rank : Level → Nat
  | off => 0
  | error => 1
  | warn => 2
  | info => 3
  | debug => 4
  | trace => 5

/-- The name of a level in lower case. -/
def name : Level → String
  | off => "off"
  | error => "error"
  | warn => "warn"
  | info => "info"
  | debug => "debug"
  | trace => "trace"

/-- The level with a given name, in letters of either case. -/
def ofName? (s : String) : Option Level :=
  [off, error, warn, info, debug, trace].find? fun l => l.name = s.map Char.toLower

end Level

/-- A line of the journal. -/
structure Record where
  level : Level
  text : String
deriving DecidableEq, Repr

/-- A span as it is written in the journal. -/
def spanText (span : Nat × Nat) : String := toString span.1 ++ ".." ++ toString span.2

/-- What is written of an event in a source of `size` bytes. -/
def Event.record (size : Nat) : Event → Record
  | comment body => ⟨.trace, "comment body at " ++ spanText (body.span size)⟩
  | raw body => ⟨.trace, "raw body at " ++ spanText (body.span size)⟩
  | skipped fault region =>
    ⟨.debug, (fault.diagnose size).text ++ ", skipping " ++ spanText (region.span size)⟩

/-- The fault that an event reports, if it reports one. -/
def Event.fault? : Event → Option Fault
  | skipped fault _ => some fault
  | _ => none

end Stencil
