/-!
# Counters in traces

An integer is written in decimal digits, with any number of leading zeros and, in front of
them, perhaps a minus sign. A counter is an integer that is not negative and fits a signed
word of 32 bits, so a minus sign can only stand in front of zero.
-/

namespace HeldLocks.Trace

/-- The largest counter that can be written. -/
def maxCounter : Nat := 2147483647

/-- The value of a list of decimal digits, which must not be empty. -/
def digitsValue? (digits : List Char) : Option Nat :=
  if digits ≠ [] ∧ digits.all Char.isDigit then some (Nat.ofDigitChars 10 digits 0) else none

/-- The integer that some characters spell. -/
def integerValue? : List Char → Option Int
  | '-' :: digits => (digitsValue? digits).map fun value => -value
  | digits => (digitsValue? digits).map fun value => value

/-- Read a counter from a word. -/
def readCounter? (word : String) : Option Nat :=
  match integerValue? word.toList with
  | some value => if 0 ≤ value ∧ value ≤ maxCounter then some value.toNat else none
  | none => none

/-- What is read is in range. -/
theorem le_maxCounter_of_readCounter? (word : String) (count : Nat)
    (spelled : readCounter? word = some count) : count ≤ maxCounter := by
  unfold readCounter? at spelled
  split at spelled
  · split at spelled
    next inRange =>
      cases spelled
      omega
    next => cases spelled
  · cases spelled

end HeldLocks.Trace
