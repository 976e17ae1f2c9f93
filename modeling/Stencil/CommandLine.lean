import Stencil.Template
import Stencil.Tree.Layout

/-!
# The command line

The program reads the template that its first argument names, writes its tree, and reports what is
wrong with it by line and column. A variable of the environment says how much of the journal it
writes too.
-/

namespace Stencil.CommandLine

/-- The variable of the environment that says how much of the journal is written. -/
def logVariable : String := "JINJA_CST_LOG"

/-- The width of the lines in which the tree is written. -/
def width : Nat := 80

/-- What comes of a run of the program. -/
structure Outcome where
  /-- What the program writes to its output. -/
  stdout : String
  /-- What the program writes to its error output. -/
  stderr : String
  /-- The code with which the program ends. -/
  code : UInt8
deriving DecidableEq, Repr

/-- Why the program cannot read a file. -/
inductive ReadError where
  /-- A fault that the system reports: its number, its kind and its text. -/
  | system (number : Nat) (kind message : String)
  | notText
deriving DecidableEq, Repr

/-- The fault that there is no such file. -/
def ReadError.notFound : ReadError := .system 2 "NotFound" "No such file or directory"

/-- Why the program stops without reading a template. -/
inductive Fatal where
  | noArgument
  | unreadable (error : ReadError)
deriving DecidableEq, Repr

/-- The text of a fatal error. -/
def Fatal.message : Fatal → String
  | noArgument => "\"usage: jinja_cst <file>\""
  | unreadable (.system number kind message) =>
    "Os \x7b code: " ++ toString number ++ ", kind: " ++ kind ++ ", message: \"" ++ message
      ++ "\" \x7d"
  | unreadable .notText =>
    "Error \x7b kind: InvalidData, message: \"stream did not contain valid UTF-8\" \x7d"

/-- The text that the bytes of a file hold. -/
def decode (bytes : ByteArray) : Except ReadError String :=
  match String.fromUTF8? bytes with
  | some s => .ok s
  | none => .error .notText

/-- The characters that begin in the first `n` bytes of `s`. -/
def takeBytes (n : Nat) (s : List Char) : List Char :=
  s.take (s.length - (dropBytes n s).length)

/-- The line of a byte offset, counted from 1. -/
def lineOf (source : List Char) (pos : Nat) : Nat := (takeBytes pos source).count '\n' + 1

/-- The column of a byte offset in its line, in bytes and counted from 1. -/
def columnOf (source : List Char) (pos : Nat) : Nat :=
  byteLength ((takeBytes pos source).reverse.takeWhile (· ≠ '\n')) + 1

/-- The line that reports a diagnostic. -/
def report (path : String) (source : List Char) (d : Diagnostic) : String :=
  path ++ ":" ++ toString (lineOf source d.pos) ++ ":" ++ toString (columnOf source d.pos) ++ ": "
    ++ d.message

/-- How much of the journal is written. -/
def levelOf (setting : Option String) : Level := (setting.bind Level.ofName?).getD .warn

/-- The lines of the journal that a level lets through. -/
def journal (level : Level) (records : List Record) : List String :=
  (records.filter fun r => r.level.rank ≤ level.rank).map fun r => r.level.name ++ ": " ++ r.text

/-- Text made of lines, each of which ends in a line feed. -/
def unlines (lines : List String) : String := String.join (lines.map (· ++ "\n"))

/-- The outcome for a template that could be read. -/
def check (level : Level) (path : String) (source : String) : Outcome :=
  let source := source.toList
  let parse := Template.parse { Options.standard with recover := true } source
  { stdout := parse.tree.pretty width ++ "\n"
    stderr := unlines (journal level parse.records ++ parse.errors.map (report path source))
    code := 0 }

/-- The outcome of a fatal error. -/
def abort (e : Fatal) : Outcome := ⟨"", "Error: " ++ e.message ++ "\n", 1⟩

/-- The outcome for given arguments, of which only the first counts, and what reading the file of
that name comes to. -/
def run (setting : Option String) (args : List String)
    (file : String → Except ReadError String) : Outcome :=
  match args with
  | [] => abort .noArgument
  | path :: _ =>
    match file path with
    | .ok source => check (levelOf setting) path source
    | .error error => abort (.unreadable error)

end Stencil.CommandLine
