/-!
# Lines and words

A trace is read line by line, and a line word by word. Lines end at the line feed and
nowhere else. A `#` starts a comment up to the end of its line, and the words of what
stands before it are separated by the six blanks of ASCII, however many of them.
-/

namespace HeldLocks.Trace

/-- The six blanks that separate words. No other character does, be it a space of some
    other script or a control character. -/
def isBlank (char : Char) : Bool :=
  char ∈ [' ', '\t', '\n', '\x0b', '\x0c', '\r']

/-- The lines of a text. A text that ends in a line feed has an empty last line. -/
def linesOf (text : String) : List (List Char) := text.toList.splitOn '\n'

/-- What stands before the first comment mark of a line. -/
def uncommented (line : List Char) : List Char := line.takeWhile (· ≠ '#')

/-- The words of a line, without its comment. -/
def wordsOf (line : List Char) : List String :=
  (((uncommented line).splitOnP isBlank).filter (· ≠ [])).map String.ofList

/-- Words are never empty. -/
theorem ne_empty_of_mem_wordsOf (line : List Char) (word : String)
    (member : word ∈ wordsOf line) : word ≠ "" := by
  obtain ⟨chars, listed, rfl⟩ := List.mem_map.mp member
  have nonempty := of_decide_eq_true (List.mem_filter.mp listed).2
  intro empty
  exact nonempty (by simpa using congrArg String.toList empty)

end HeldLocks.Trace
