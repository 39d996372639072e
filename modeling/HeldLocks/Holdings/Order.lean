import HeldLocks.Holdings.Lemmas

/-!
# The order of holdings

Holdings with more locks come first. Holdings of one size are compared entry by entry in
the order of their locks, by lock and then by count. The comparison is an integer whose
size carries information, a difference of sizes or of counts; `compareInt_eq_zero_iff`
says that it is zero for equal holdings only.
-/

namespace HeldLocks.Holdings

/-- Compare two lists of entries up to the end of the shorter one. -/
def compareEntries : List (Lock × Nat) → List (Lock × Nat) → Int
  | (lock, count) :: rest, (other, otherCount) :: otherRest =>
    if lock.compareInt other ≠ 0 then lock.compareInt other
    else if count ≠ otherCount then count - otherCount
    else compareEntries rest otherRest
  | _, _ => 0

/-- Negative if the first holdings come first, positive if the second do, and zero if
    neither does. The larger holdings come first. -/
def compareInt (left right : Holdings) : Int :=
  if left.size ≠ right.size then right.size - left.size
  else compareEntries left.entries right.entries

/-- Whether the first holdings come strictly before the second. -/
def precedes (left right : Holdings) : Bool := left.compareInt right < 0

/-- Entries compare as equal with themselves. -/
theorem compareEntries_self (entries : List (Lock × Nat)) :
    compareEntries entries entries = 0 := by
  induction entries with
  | nil => rfl
  | cons entry rest inductionHypothesis =>
    simp only [compareEntries, Lock.compareInt, Std.ReflOrd.compare_self, ne_eq,
      not_true_eq_false, if_false, inductionHypothesis]

/-- Lists of one length that compare as zero are equal. -/
theorem eq_of_compareEntries (left right : List (Lock × Nat))
    (sameLength : left.length = right.length) (level : compareEntries left right = 0) :
    left = right := by
  induction left generalizing right with
  | nil => exact (List.length_eq_zero_iff.mp sameLength.symm).symm
  | cons entry rest inductionHypothesis =>
    obtain ⟨lock, count⟩ := entry
    cases right with
    | nil => exact absurd sameLength (Nat.succ_ne_zero _)
    | cons otherEntry otherRest =>
      obtain ⟨other, otherCount⟩ := otherEntry
      rw [compareEntries] at level
      split at level
      next apart => exact absurd level apart
      next together =>
        split at level
        next unequal => omega
        next equal =>
          have sameLock : lock = other := by
            apply Std.LawfulEqOrd.eq_of_compare
            cases compared : compare lock other <;>
              simp [Lock.compareInt, compared] at together ⊢
          have sameCount : count = otherCount := Decidable.of_not_not equal
          rw [sameLock, sameCount, inductionHypothesis otherRest (Nat.succ.inj sameLength) level]

/-- Only equal holdings compare as zero. -/
theorem compareInt_eq_zero_iff (left right : Holdings) :
    left.compareInt right = 0 ↔ left = right := by
  constructor
  · intro level
    unfold compareInt at level
    split at level
    next => omega
    next sameSize =>
      cases left
      cases right
      exact congrArg Holdings.mk
        (eq_of_compareEntries _ _ (Decidable.of_not_not sameSize) level)
  · rintro rfl
    simp only [compareInt, ne_eq, not_true_eq_false, if_false, compareEntries_self]

end HeldLocks.Holdings
