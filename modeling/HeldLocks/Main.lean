import HeldLocks.CommandLine

/-!
# The program

Reads the input that the arguments name, runs the replay command on it, writes its outputs
and exits with its code.
-/

namespace HeldLocks.CommandLine

/-- The wording of a failure of the system to read a file. -/
def readFailure : IO.Error → ReadFailure
  | .noFileOrDirectory .. => .missing
  | .permissionDenied .. => .other "Permission denied"
  | .inappropriateType .. => .other "Is a directory"
  | error => .other error.toString

/-- Read a file, or the standard input if none is named. -/
def readInput (file : Option String) : IO (Except ReadFailure String) := do
  try
    match file with
    | none => return .ok (← (← IO.getStdin).readToEnd)
    | some name => return .ok (← IO.FS.readFile name)
  catch error => return .error (readFailure error)

/-- Run the command on the arguments and leave its outcome behind. -/
def perform (arguments : List String) : IO UInt32 := do
  let outcome ← match Options.ofArguments arguments with
    | .error error => pure (failure error.message)
    | .ok options => pure (run options (← readInput options.file))
  IO.print outcome.output
  IO.eprint outcome.errors
  return outcome.exitCode

end HeldLocks.CommandLine

/-- The replay command. -/
def main (arguments : List String) : IO UInt32 := HeldLocks.CommandLine.perform arguments
