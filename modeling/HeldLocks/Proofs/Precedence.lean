import HeldLocks.Holdings.Order
import HeldLocks.Session.Basic

/-!
# The order of states

States are ordered by what they hold. The comparison gives an integer, and three things go into
it: a difference of sizes, a comparison of locks, a difference of counts. Which of them it is
depends on both sides, so each law is shown for entries first (`compareEntry_neg_iff`), then
along two lists of entries, and then for holdings. The order is strict, it is transitive, and
what it does not tell apart is equal, so states can be sorted by it
(`comparison_orders_states`).

The integers here are exact. A program has signed words of 32 bits, and a subtraction may leave
them. `Holdings.compareWords?` is the comparison on words, which gives nothing as soon as a
number or a difference does not fit. It gives what the exact comparison does if the size and all
counts fit (`Holdings.compareWords?_eq_some`): none of these is negative, so no difference of
two of them is too large.
-/

namespace HeldLocks

/-! ## Locks -/

namespace Lock

/-- Comparing the other way round gives the opposite. -/
theorem compareInt_swap (x y : Lock) : x.compareInt y = -(y.compareInt x) := by
  rw [compareInt, compareInt, Std.OrientedOrd.eq_swap (a := x)]
  cases compare y x <;> rfl

/-- The comparison of locks is negative exactly if the first is below the second. -/
theorem compareInt_neg_iff (x y : Lock) : x.compareInt y < 0 ↔ x < y := by
  rw [lt_def, compareInt]
  cases compare x y <;> simp

/-- It is zero exactly for the same lock. -/
theorem compareInt_eq_zero_iff (x y : Lock) : x.compareInt y = 0 ↔ x = y := by
  have decided := Std.LawfulEqOrd.compare_eq_iff_eq (a := x) (b := y)
  rw [← decided, compareInt]
  cases compare x y <;> simp

end Lock

/-! ## Holdings -/

namespace Holdings

/-- Compare two entries, by lock and then by count. -/
def compareEntry (left right : Lock × Nat) : Int :=
  if left.1.compareInt right.1 ≠ 0 then left.1.compareInt right.1 else left.2 - right.2

/-- Lists of entries are compared by the first entries that are not equal. -/
theorem compareEntries_cons (left right : Lock × Nat) (lefts rights : List (Lock × Nat)) :
    compareEntries (left :: lefts) (right :: rights) =
      if compareEntry left right ≠ 0 then compareEntry left right
      else compareEntries lefts rights := by
  rw [compareEntries, compareEntry]
  by_cases sameLock : left.1.compareInt right.1 = 0
  · by_cases sameCount : left.2 = right.2
    · simp [sameLock, sameCount]
    · have apart : (left.2 : Int) - right.2 ≠ 0 := by omega
      simp [sameLock, sameCount, apart]
  · simp [sameLock]

/-- Changing the sides changes the sign of the comparison of entries. -/
theorem compareEntry_swap (left right : Lock × Nat) :
    compareEntry left right = -(compareEntry right left) := by
  rw [compareEntry, compareEntry, Lock.compareInt_swap left.1]
  split <;> split <;> omega

/-- It is zero exactly for the same entry. -/
theorem compareEntry_eq_zero_iff (left right : Lock × Nat) :
    compareEntry left right = 0 ↔ left = right := by
  rw [compareEntry, Prod.ext_iff, ← Lock.compareInt_eq_zero_iff]
  split
  next apart => exact iff_of_false apart fun both => apart both.1
  next together =>
    rw [and_iff_right (Decidable.of_not_not together)]
    omega

/-- An entry comes first if its lock does, or if it has the smaller count of one lock. -/
theorem compareEntry_neg_iff (left right : Lock × Nat) :
    compareEntry left right < 0 ↔ left.1 < right.1 ∨ left.1 = right.1 ∧ left.2 < right.2 := by
  rw [compareEntry, ← Lock.compareInt_neg_iff, ← Lock.compareInt_eq_zero_iff]
  split <;> omega

/-- It is transitive where it is negative. -/
theorem compareEntry_trans {left middle right : Lock × Nat}
    (first : compareEntry left middle < 0) (second : compareEntry middle right < 0) :
    compareEntry left right < 0 := by
  rw [compareEntry_neg_iff] at first second ⊢
  rcases first with byLock | ⟨sameLock, byCount⟩
  · rcases second with otherByLock | ⟨otherSame, _⟩
    · exact Or.inl (Lock.lt_trans byLock otherByLock)
    · exact Or.inl (otherSame ▸ byLock)
  · rcases second with otherByLock | ⟨otherSame, otherByCount⟩
    · exact Or.inl (sameLock ▸ otherByLock)
    · exact Or.inr ⟨sameLock.trans otherSame, Nat.lt_trans byCount otherByCount⟩

/-- The comparison of lists of entries changes sign with the sides as well. -/
theorem compareEntries_swap (left right : List (Lock × Nat)) :
    compareEntries left right = -(compareEntries right left) := by
  induction left generalizing right with
  | nil => cases right <;> rfl
  | cons entry rest inductionHypothesis =>
    cases right with
    | nil => rfl
    | cons other others =>
      rw [compareEntries_cons, compareEntries_cons, inductionHypothesis,
        compareEntry_swap entry other]
      split <;> split <;> omega

/-- A list of entries comes first if its first entry does, or if it has the same first entry and
the rest comes first. -/
theorem compareEntries_cons_neg_iff (left right : Lock × Nat) (lefts rights : List (Lock × Nat)) :
    compareEntries (left :: lefts) (right :: rights) < 0 ↔
      compareEntry left right < 0 ∨ left = right ∧ compareEntries lefts rights < 0 := by
  rw [compareEntries_cons, ← compareEntry_eq_zero_iff]
  split <;> omega

/-- And it is transitive where it is negative. -/
theorem compareEntries_trans {left middle right : List (Lock × Nat)}
    (first : compareEntries left middle < 0) (second : compareEntries middle right < 0) :
    compareEntries left right < 0 := by
  induction left generalizing middle right with
  | nil => exact absurd first (Int.lt_irrefl 0)
  | cons entry rest inductionHypothesis =>
    -- Where the comparison comes out negative, neither list has ended.
    cases middle with
    | nil => exact absurd first (Int.lt_irrefl 0)
    | cons between betweens =>
      cases right with
      | nil => exact absurd second (Int.lt_irrefl 0)
      | cons other others =>
        rw [compareEntries_cons_neg_iff] at first second ⊢
        rcases first with here | ⟨rfl, later⟩
        · rcases second with there | ⟨rfl, _⟩
          · exact Or.inl (compareEntry_trans here there)
          · exact Or.inl here
        · rcases second with there | ⟨rfl, further⟩
          · exact Or.inl there
          · exact Or.inr ⟨rfl, inductionHypothesis later further⟩

/-- Comparing the other way round gives the opposite, as an integer and not only in sign. -/
theorem compareInt_swap (left right : Holdings) :
    left.compareInt right = -(right.compareInt left) := by
  rw [compareInt, compareInt, compareEntries_swap left.entries]
  split <;> split <;> omega

/-- Holdings precede others exactly if the comparison is negative. -/
theorem precedes_iff (left right : Holdings) :
    left.precedes right = true ↔ left.compareInt right < 0 := decide_eq_true_iff

/-- Holdings come first if they are larger, or if they are of one size with the others and
their entries come first. -/
theorem compareInt_neg_iff (left right : Holdings) :
    left.compareInt right < 0 ↔ right.size < left.size ∨
      left.size = right.size ∧ compareEntries left.entries right.entries < 0 := by
  rw [compareInt]
  split <;> omega

/-- Precedence is transitive. -/
theorem precedes_trans {left middle right : Holdings} (first : left.precedes middle = true)
    (second : middle.precedes right = true) : left.precedes right = true := by
  rw [precedes_iff, compareInt_neg_iff] at first second ⊢
  rcases first with larger | ⟨sameSize, earlier⟩
  · exact Or.inl (by omega)
  · rcases second with larger | ⟨otherSize, later⟩
    · exact Or.inl (by omega)
    · exact Or.inr ⟨sameSize.trans otherSize, compareEntries_trans earlier later⟩

/-- Neither of two holdings comes first only if they are equal. -/
theorem not_precedes_iff (left right : Holdings) :
    ¬ left.precedes right = true ∧ ¬ right.precedes left = true ↔ left = right := by
  rw [precedes_iff, precedes_iff, ← compareInt_eq_zero_iff, compareInt_swap right left]
  omega

/-! ## Words -/

/-- An integer as a signed word of 32 bits, if it fits. -/
def word? (value : Int) : Option Int :=
  if -2147483648 ≤ value ∧ value ≤ 2147483647 then some value else none

/-- The difference of two integers on words, if both of them and the difference fit. -/
def subtract? (left right : Int) : Option Int := do
  let minuend ← word? left
  let subtrahend ← word? right
  word? (minuend - subtrahend)

/-- Compare two locks on words: the scopes are compared by subtracting their ranks. -/
def compareLockWords? (left right : Lock) : Option Int :=
  match (compare left.name right.name).then (compare left.expr right.expr) with
  | .lt => some (-1)
  | .eq => subtract? left.scope.rank right.scope.rank
  | .gt => some 1

/-- Compare two lists of entries on words. -/
def compareEntriesWords? : List (Lock × Nat) → List (Lock × Nat) → Option Int
  | (lock, count) :: rest, (other, otherCount) :: otherRest => do
    let byLock ← compareLockWords? lock other
    if byLock ≠ 0 then some byLock
    else
      let byCount ← subtract? count otherCount
      if byCount ≠ 0 then some byCount else compareEntriesWords? rest otherRest
  | _, _ => some 0

/-- Compare two holdings on words. -/
def compareWords? (left right : Holdings) : Option Int := do
  let bySize ← subtract? right.size left.size
  if bySize ≠ 0 then some bySize else compareEntriesWords? left.entries right.entries

/-- The number of locks and all counts fit a signed word of 32 bits. -/
structure FitsWords (holdings : Holdings) : Prop where
  /-- The number of locks. -/
  size : holdings.size ≤ 2147483647
  /-- The counts. -/
  counts : ∀ entry ∈ holdings.entries, entry.2 ≤ 2147483647

/-- Two natural numbers that fit have a difference that does. -/
theorem subtract?_eq_some {left right : Nat} (leftFits : left ≤ 2147483647)
    (rightFits : right ≤ 2147483647) :
    subtract? left right = some ((left : Int) - right) := by
  have fits (value : Int) (least : -2147483648 ≤ value) (most : value ≤ 2147483647) :
      word? value = some value := if_pos ⟨least, most⟩
  rw [subtract?, fits left (by omega) (by omega), fits right (by omega) (by omega)]
  exact fits _ (by omega) (by omega)

/-- Locks compare in words as they do, since there is nothing to subtract. -/
theorem compareLockWords?_eq_some (left right : Lock) :
    compareLockWords? left right = some (left.compareInt right) := by
  have ranks : subtract? left.scope.rank right.scope.rank =
      some (match compare left.scope.rank right.scope.rank with
        | .lt => -1
        | .eq => 0
        | .gt => 1) := by
    cases left.scope <;> cases right.scope <;> rfl
  rw [compareLockWords?, Lock.compareInt, Lock.compare_def, ranks]
  cases compare left.name right.name <;> cases compare left.expr right.expr <;> rfl

/-- Entries with counts in range compare in words as they do. -/
theorem compareEntriesWords?_eq_some {left right : List (Lock × Nat)}
    (leftFits : ∀ entry ∈ left, entry.2 ≤ 2147483647)
    (rightFits : ∀ entry ∈ right, entry.2 ≤ 2147483647) :
    compareEntriesWords? left right = some (compareEntries left right) := by
  induction left generalizing right with
  | nil => rfl
  | cons entry rest inductionHypothesis =>
    cases right with
    | nil => rfl
    | cons other others =>
      obtain ⟨entryFits, restFits⟩ := List.forall_mem_cons.mp leftFits
      obtain ⟨otherFits, othersFit⟩ := List.forall_mem_cons.mp rightFits
      rw [compareEntriesWords?, compareLockWords?_eq_some, compareEntries_cons, compareEntry,
        subtract?_eq_some entryFits otherFits, inductionHypothesis restFits othersFit]
      simp only [Option.bind_eq_bind, Option.bind_some]
      split
      · rfl
      · split <;> rfl

/-- On holdings that fit, the comparison on words gives what the exact comparison gives. -/
theorem compareWords?_eq_some {left right : Holdings} (leftFits : left.FitsWords)
    (rightFits : right.FitsWords) :
    left.compareWords? right = some (left.compareInt right) := by
  rw [compareWords?, subtract?_eq_some rightFits.size leftFits.size,
    compareEntriesWords?_eq_some leftFits.counts rightFits.counts, compareInt]
  simp only [Option.bind_eq_bind, Option.bind_some]
  by_cases sameSize : left.size = right.size
  · simp [sameSize]
  · have apart : (right.size : Int) - left.size ≠ 0 := by omega
    simp [sameSize, apart]

end Holdings

/-! ## States -/

/-- The comparison is an order of what states hold.

* Comparing the other way round gives the opposite integer, and the comparison is zero for equal
  holdings only.
* Holdings with more locks precede those with fewer.
* On words, as long as the number of locks and all counts fit them, no subtraction leaves them,
  and the comparison is the same.
* To precede is irreflexive and transitive, and so is to have neither precede the other: a strict
  weak order.
* Sorting the states of a session by it loses none, puts none before one that precedes it, and
  leaves states that neither precede the other as they were.

Proof: the comparison is negative because of the sizes or, where these are equal, because of the
first entries that are not. Either way is transitive, and so is each mixture of the two, since an
equal size or an equal entry can be put in place of the other. -/
theorem comparison_orders_states :
    (∀ left right : Holdings,
      left.compareInt right = -(right.compareInt left) ∧
      (left.compareInt right = 0 ↔ left = right) ∧
      (right.size < left.size → left.precedes right = true) ∧
      (left.FitsWords → right.FitsWords →
        left.compareWords? right = some (left.compareInt right))) ∧
    (∀ holdings : Holdings, ¬ holdings.precedes holdings = true) ∧
    (∀ first second third : Holdings, first.precedes second = true →
      second.precedes third = true → first.precedes third = true) ∧
    (∀ first second third : Holdings,
      ¬ first.precedes second = true ∧ ¬ second.precedes first = true →
      ¬ second.precedes third = true ∧ ¬ third.precedes second = true →
      ¬ first.precedes third = true ∧ ¬ third.precedes first = true) ∧
    ∀ session : Session,
      session.sorted.Perm session.states ∧
      session.sorted.Pairwise (fun earlier later =>
        ¬ later.holdings.precedes earlier.holdings = true) ∧
      ∀ earlier later : State, [earlier, later].Sublist session.states →
        ¬ later.holdings.precedes earlier.holdings = true →
        [earlier, later].Sublist session.sorted := by
  have irreflexive (holdings : Holdings) : ¬ holdings.precedes holdings = true :=
    ((Holdings.not_precedes_iff holdings holdings).mpr rfl).1
  have notBoth {left right : Holdings} (first : left.precedes right = true) :
      ¬ right.precedes left = true :=
    fun second => irreflexive left (Holdings.precedes_trans first second)
  -- What sorting asks of the relation it is given, which is not to be preceded.
  have total (left right : State) : (!right.holdings.precedes left.holdings ||
      !left.holdings.precedes right.holdings) = true := by
    by_cases first : left.holdings.precedes right.holdings = true
    · simp [notBoth first]
    · simp [first]
  have transitive (first second third : State)
      (one : (!second.holdings.precedes first.holdings) = true)
      (two : (!third.holdings.precedes second.holdings) = true) :
      (!third.holdings.precedes first.holdings) = true := by
    simp only [Bool.not_eq_true', Bool.eq_false_iff] at one two ⊢
    intro before
    by_cases ahead : first.holdings.precedes second.holdings = true
    · exact two (Holdings.precedes_trans before ahead)
    · have level := (Holdings.not_precedes_iff _ _).mp ⟨one, ahead⟩
      exact two (level ▸ before)
  refine ⟨?_, irreflexive, fun _ _ _ => Holdings.precedes_trans, ?_, ?_⟩
  · intro left right
    refine ⟨left.compareInt_swap right, left.compareInt_eq_zero_iff right, ?_,
      Holdings.compareWords?_eq_some⟩
    intro larger
    rw [Holdings.precedes_iff, Holdings.compareInt_neg_iff]
    exact Or.inl larger
  · intro first second third one two
    rw [Holdings.not_precedes_iff] at one two ⊢
    exact one.trans two
  · intro session
    refine ⟨List.mergeSort_perm _ _, ?_, ?_⟩
    · refine (List.pairwise_mergeSort transitive total session.states).imp ?_
      intro earlier later inOrder
      simpa using inOrder
    · intro earlier later before inOrder
      exact List.pair_sublist_mergeSort transitive total (by simpa using inOrder) before

/-- Two locks precede one, and of one lock the smaller count precedes the largest that fits a
word, at a distance that fits it too. The one with two locks also precedes the largest count. -/
theorem largest_count_compared :
    Holdings.compareWords? ⟨[(.ofName "b", 1)]⟩ ⟨[(.ofName "b", 2147483647)]⟩ =
        some (-2147483646) ∧
      Holdings.precedes ⟨[(.ofName "b", 7), (.ofName "c", 1)]⟩ ⟨[(.ofName "b", 2147483647)]⟩ =
        true := by
  obtain ⟨compared, _, transitive, _⟩ := comparison_orders_states
  have small : Holdings.FitsWords ⟨[(.ofName "b", 1)]⟩ := ⟨by decide, by simp⟩
  have large : Holdings.FitsWords ⟨[(.ofName "b", 2147483647)]⟩ := ⟨by decide, by simp⟩
  obtain ⟨_, _, _, onWords⟩ :=
    compared ⟨[(.ofName "b", 1)]⟩ ⟨[(.ofName "b", 2147483647)]⟩
  obtain ⟨_, _, larger, _⟩ :=
    compared ⟨[(.ofName "b", 7), (.ofName "c", 1)]⟩ ⟨[(.ofName "b", 1)]⟩
  exact ⟨onWords small large, transitive _ _ _ (larger (by decide)) rfl⟩

end HeldLocks
