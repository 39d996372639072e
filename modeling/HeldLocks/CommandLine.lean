import HeldLocks.Effect.Difference
import HeldLocks.Trace.Parser
import HeldLocks.Trace.Replay

/-!
# The replay command

`lock-replay` reads a trace, replays it from the state without locks, and shows the state
after every step. `run` is the whole command but for the reading and writing themselves: it
takes the options and what was read, and gives the two outputs and the exit code.

The exit code is zero if the trace is feasible, two if a step rules the path out, and one
if there is no trace to replay.
-/

namespace HeldLocks.CommandLine

/-- What the command is asked to do. -/
structure Options where
  /-- The bound of all acquisitions. Zero stands for none. -/
  maxRecursion : Int := 0
  /-- Whether to show what leads from the first state to the last. -/
  printDifference : Bool := false
  /-- The file to read, or nothing for the standard input. -/
  file : Option String := none
deriving DecidableEq

/-- Why a list of arguments is no request. -/
inductive UsageError where
  /-- There is no such option. -/
  | unknownOption (argument : String)
  /-- An option lacks its value, or has one that it does not take. -/
  | invalidValue (argument : String)
  /-- More than one file is named. -/
  | secondFile (argument : String)
deriving DecidableEq

/-- The wording of a usage error. -/
def UsageError.message : UsageError → String
  | unknownOption argument => "unknown option '" ++ argument ++ "'"
  | invalidValue argument => "invalid value in '" ++ argument ++ "'"
  | secondFile argument => "unexpected argument '" ++ argument ++ "'"

/-- Why a file cannot be read. -/
inductive ReadFailure where
  /-- There is no such file. -/
  | missing
  /-- Any other reason, as it is worded elsewhere. -/
  | other (reason : String)
deriving DecidableEq

/-- The wording of a failure to read. -/
def ReadFailure.message : ReadFailure → String
  | missing => "No such file or directory"
  | other reason => reason

/-- What the command leaves behind. -/
structure Outcome where
  /-- The exit code. -/
  exitCode : UInt32
  /-- What it writes to the standard output. -/
  output : String
  /-- What it writes to the standard error. -/
  errors : String
deriving DecidableEq

/-- Take one argument into account. A dash names the standard input, as no file does. -/
def Options.addArgument (options : Options) (argument : String) : Except UsageError Options :=
  if argument = "--print-diff" then .ok { options with printDifference := true }
  else match argument.splitOn "=" with
    | ["--max-recursion", value] =>
      match Trace.integerValue? value.toList with
      | some bound => .ok { options with maxRecursion := bound }
      | none => .error (.invalidValue argument)
    | _ =>
      if argument = "-" then .ok options
      else if argument.startsWith "-" then .error (.unknownOption argument)
      else match options.file with
        | none => .ok { options with file := some argument }
        | some _ => .error (.secondFile argument)

/-- The options that arguments ask for. -/
def Options.ofArguments (arguments : List String) : Except UsageError Options :=
  arguments.foldlM addArgument {}

/-- The name of the input in messages. The standard input is named by a dash. -/
def Options.inputName (options : Options) : String := options.file.getD "-"

/-- The command fails before it has written anything. -/
def failure (message : String) : Outcome :=
  { exitCode := 1, output := "", errors := "lock-replay: " ++ message ++ "\n" }

/-- The line for the first state. -/
def initialLine (initial : State) : String := "initial: " ++ initial.text ++ "\n"

/-- The line for a step. A state that the step has left as it was is marked. -/
def stepLine (line : Nat) (previous : State) : Option State → String
  | none => "line " ++ toString line ++ ": infeasible\n"
  | some state =>
    "line " ++ toString line ++ ": " ++ state.text ++
      (if state.identical previous then " (unchanged)" else "") ++ "\n"

/-- The lines for the steps that were taken. -/
def stepLines (previous : State) : List (Trace.Step × Option State) → String
  | [] => ""
  | (step, outcome) :: rest =>
    stepLine step.line previous outcome ++ stepLines (outcome.getD previous) rest

/-- The line for the effects that lead from the first state to the last. -/
def differenceLine (effects : List Effect) : String :=
  let shown := if effects.isEmpty then " none"
    else String.join (effects.map fun effect => " " ++ effect.text)
  "difference:" ++ shown ++ "\n"

/-- The last state that was reached, if every step has reached one. -/
def lastState? (initial : State) (outcomes : List (Option State)) : Option State :=
  outcomes.getLast?.getD (some initial)

/-- Show the outcomes of a replay. -/
def report (options : Options) (initial : State) (steps : List Trace.Step)
    (outcomes : List (Option State)) : Outcome :=
  let shown := initialLine initial ++ stepLines initial (steps.zip outcomes)
  match lastState? initial outcomes with
  | none => { exitCode := 2, output := shown, errors := "" }
  | some last =>
    let difference := if options.printDifference
      then differenceLine (initial.holdings.difference last.holdings) else ""
    { exitCode := 0, output := shown ++ difference, errors := "" }

/-- Read a trace and replay it. -/
def replayText (options : Options) (text : String) : Outcome :=
  match Trace.parse options.maxRecursion text with
  | .error error => failure (options.inputName ++ ": " ++ error.message)
  | .ok steps =>
    let initial := State.empty 0
    match Trace.replay (initial.nextFresh 0) initial steps with
    | .error misuse => failure (options.inputName ++ ": " ++ misuse.message)
    | .ok outcomes => report options initial steps outcomes

/-- Run the command on what was read of its input. A negative bound is refused before the
    input is looked at. -/
def run (options : Options) (contents : Except ReadFailure String) : Outcome :=
  if options.maxRecursion < 0 then failure "--max-recursion must not be negative"
  else match contents with
    | .error reason =>
      failure ("cannot read '" ++ options.inputName ++ "': " ++ reason.message)
    | .ok text => replayText options text

end HeldLocks.CommandLine
