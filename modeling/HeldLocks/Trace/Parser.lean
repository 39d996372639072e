import HeldLocks.Trace.Basic
import HeldLocks.Trace.Words

/-!
# Reading traces

Lines are numbered from one. Blank lines and lines that hold only a comment count as lines
and mean nothing. The first line that is wrong ends the reading, and nothing after it
matters.
-/

namespace HeldLocks.Trace

/-- Why a text is no trace: what is wrong with its first bad line. -/
structure ParseError where
  /-- The number of the line. -/
  line : Nat
  /-- What is wrong with it. -/
  fault : Fault
deriving DecidableEq

/-- The wording of a parse error. -/
def ParseError.message (error : ParseError) : String :=
  "line " ++ toString error.line ++ ": " ++ error.fault.message

/-- Read the words of a line. A line without words is no directive. -/
def readLine (bound : Int) : List String → Except Fault (Option Directive)
  | [] => .ok none
  | keyword :: operands => (Directive.read bound keyword operands).map some

/-- The directives of some lines, of which the first has the given number. -/
def directivesFrom (bound : Int) :
    Nat → List (List Char) → Except ParseError (List (Nat × Directive))
  | _, [] => .ok []
  | number, line :: rest =>
    match readLine bound (wordsOf line) with
    | .error fault => .error ⟨number, fault⟩
    | .ok none => directivesFrom bound (number + 1) rest
    | .ok (some directive) =>
      (directivesFrom bound (number + 1) rest).map ((number, directive) :: ·)

/-- Read a trace. All its acquisitions carry the given bound. -/
def parse (bound : Int) (text : String) : Except ParseError (List Step) :=
  (directivesFrom bound 1 (linesOf text)).map stepsOf

end HeldLocks.Trace
