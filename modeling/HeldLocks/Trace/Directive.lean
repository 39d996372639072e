import HeldLocks.Effect.Basic
import HeldLocks.Trace.Counter

/-!
# Directives

A line of a trace that is not blank is a directive: an effect, or the end of a step. Its
first word says which, and so what operands must follow (`Form`): none, a lock, a lock and
a counter, or a lock, a counter and a truth value. A lock is written as one word, its name,
or as two, its name and its expression.

A line can be wrong in five ways (`Fault`). Where it is wrong in several, the first of
them counts.
-/

namespace HeldLocks.Trace

/-- What a line of a trace asks for. -/
inductive Directive where
  /-- An effect within the current step. -/
  | effect (effect : Effect)
  /-- The end of the current step. -/
  | commit
deriving DecidableEq

/-- What is wrong with a line. Each fault names the word that shows it. -/
inductive Fault where
  /-- No directive begins with this word. -/
  | unknownDirective (word : String)
  /-- The directive takes no operands, but some follow it. -/
  | unexpectedOperands (keyword : String)
  /-- The directive has too few or too many operands. -/
  | operandCount (keyword : String)
  /-- A word other than a counter stands in the place of one. -/
  | invalidCounter (word : String)
  /-- A word other than a truth value stands in the place of one. -/
  | invalidTruth (word : String)
deriving DecidableEq

/-- The wording of a fault. -/
def Fault.message : Fault → String
  | unknownDirective word => "unknown directive '" ++ word ++ "'"
  | unexpectedOperands keyword => "'" ++ keyword ++ "' takes no operands"
  | operandCount keyword => "wrong number of operands for '" ++ keyword ++ "'"
  | invalidCounter word => "invalid lock counter '" ++ word ++ "'"
  | invalidTruth word => "expected 'true' or 'false', got '" ++ word ++ "'"

/-- The operands that a directive takes, with what it means once they are known. -/
inductive Form where
  /-- No operands. -/
  | alone (directive : Directive)
  /-- A lock. -/
  | withLock (effect : Lock → Effect)
  /-- A lock and a counter. -/
  | withCounter (effect : Lock → Nat → Effect)
  /-- A lock, a counter and a truth value. -/
  | withTest (effect : Lock → Nat → Bool → Effect)

/-- The form that a keyword announces. All acquisitions carry the given bound. -/
def Form.ofKeyword? (bound : Int) : String → Option Form
  | "acquire" => some (withLock (.acquire · bound))
  | "release" => some (withLock .release)
  | "reset" => some (withLock .forget)
  | "set" => some (withCounter (.assign · ·))
  | "restore" => some (withLock .restore)
  | "check" => some (withTest (.check · · ·))
  | "restore-all" => some (alone (.effect .restoreAll))
  | "reset-all" => some (alone (.effect .forgetAll))
  | "save-state" => some (alone (.effect .save))
  | "commit" => some (alone .commit)
  | _ => none

/-- Read a counter, or blame the word. -/
def requireCounter (word : String) : Except Fault Nat :=
  match readCounter? word with
  | some count => .ok count
  | none => .error (.invalidCounter word)

/-- Read a truth value, or blame the word. -/
def requireTruth (word : String) : Except Fault Bool :=
  match word with
  | "true" => .ok true
  | "false" => .ok false
  | _ => .error (.invalidTruth word)

/-- Read a counter for an effect on a lock. -/
def readCounted (effect : Lock → Nat → Effect) (lock : Lock) (counter : String) :
    Except Fault Directive := do
  let count ← requireCounter counter
  return .effect (effect lock count)

/-- Read a counter and then a truth value for an effect on a lock. -/
def readTested (effect : Lock → Nat → Bool → Effect) (lock : Lock) (counter truth : String) :
    Except Fault Directive := do
  let count ← requireCounter counter
  let expected ← requireTruth truth
  return .effect (effect lock count expected)

/-- Read the operands of a directive. The keyword is for the wording of faults. -/
def Form.read (keyword : String) : Form → List String → Except Fault Directive
  | alone directive, [] => .ok directive
  | alone _, _ :: _ => .error (.unexpectedOperands keyword)
  | withLock effect, [name] => .ok (.effect (effect (.ofName name)))
  | withLock effect, [name, expr] => .ok (.effect (effect (.ofExpr name expr)))
  | withCounter effect, [name, counter] => readCounted effect (.ofName name) counter
  | withCounter effect, [name, expr, counter] => readCounted effect (.ofExpr name expr) counter
  | withTest effect, [name, counter, truth] => readTested effect (.ofName name) counter truth
  | withTest effect, [name, expr, counter, truth] =>
    readTested effect (.ofExpr name expr) counter truth
  | _, _ => .error (.operandCount keyword)

/-- Read a directive from its keyword and operands. -/
def Directive.read (bound : Int) (keyword : String) (operands : List String) :
    Except Fault Directive :=
  match Form.ofKeyword? bound keyword with
  | some form => form.read keyword operands
  | none => .error (.unknownDirective keyword)

end HeldLocks.Trace
