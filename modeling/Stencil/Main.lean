import Stencil.CommandLine

/-!
# The program

Reads the file, and writes what `CommandLine.run` answers.
-/

namespace Stencil.CommandLine

/-- The fault of reading a file, as the system reports it. -/
def readError : IO.Error → ReadError
  | .noFileOrDirectory .. => .notFound
  | .permissionDenied _ number message => .system number.toNat "PermissionDenied" message
  | .inappropriateType _ number message => .system number.toNat "IsADirectory" message
  | e => .system 5 "Other" (toString e)

/-- Reads the text of a file. -/
def readText (path : String) : IO (Except ReadError String) := do
  try
    let bytes ← IO.FS.readBinFile path
    return decode bytes
  catch e => return .error (readError e)

end Stencil.CommandLine

open Stencil

/-- Runs the program on its arguments. -/
def main (args : List String) : IO UInt32 := do
  let setting ← IO.getEnv CommandLine.logVariable
  let file ← CommandLine.readText (args.headD "")
  let outcome := CommandLine.run setting args fun _ => file
  (← IO.getStdout).putStr outcome.stdout
  (← IO.getStderr).putStr outcome.stderr
  return outcome.code.toUInt32
