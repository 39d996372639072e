import HeldLocks.Lock

/-!
# Sets of locks

A set of locks is kept as an ascending list, so that equal sets are equal lists and a
listing of a set has one form only. `LockSet.mem_ofList` says which locks the set of a
list holds and `LockSet.ascending_ofList` that they stand in ascending order.
-/

namespace HeldLocks

/-- A set of locks, listed in ascending order. -/
structure LockSet where
  /-- The locks of the set. -/
  elements : List Lock
deriving DecidableEq

/-- How many different locks a list names. Only equality counts, so neither the order of
    the list nor the order on locks takes part. -/
def Lock.countDistinct (locks : List Lock) : Nat := locks.eraseDups.length

namespace LockSet

/-- The members of a set are the locks that it lists. -/
instance : Membership Lock LockSet where
  mem set lock := lock ∈ set.elements

/-- Membership is decided by a search through the list. -/
instance (lock : Lock) (set : LockSet) : Decidable (lock ∈ set) :=
  inferInstanceAs (Decidable (lock ∈ set.elements))

/-- What it means to be a member. -/
theorem mem_def (lock : Lock) (set : LockSet) : lock ∈ set ↔ lock ∈ set.elements := Iff.rfl

/-- The set that holds no lock. -/
def empty : LockSet := ⟨[]⟩

/-- Put a lock in front of the first larger one, unless the list has it already. -/
def insertInto (lock : Lock) : List Lock → List Lock
  | [] => [lock]
  | head :: rest =>
    match compare lock head with
    | .lt => lock :: head :: rest
    | .eq => head :: rest
    | .gt => head :: insertInto lock rest

/-- The set with one lock added. -/
def insert (set : LockSet) (lock : Lock) : LockSet := ⟨insertInto lock set.elements⟩

/-- The set of the locks of a list. Order and repetitions of the list do not matter. -/
def ofList (locks : List Lock) : LockSet := locks.foldl insert empty

/-- The locks of the first set that are not in the second. -/
def diff (set excluded : LockSet) : LockSet :=
  ⟨set.elements.filter fun lock => lock ∉ excluded⟩

/-- Strictly ascending, and hence without repetition. -/
def Ascending (set : LockSet) : Prop := set.elements.Pairwise (· < ·)

/-- Insertion brings its own lock and no other. -/
theorem mem_insertInto (lock : Lock) (list : List Lock) (tested : Lock) :
    tested ∈ insertInto lock list ↔ tested = lock ∨ tested ∈ list := by
  induction list with
  | nil => simp only [insertInto, List.mem_singleton, List.not_mem_nil, or_false]
  | cons head rest inductionHypothesis =>
    cases compared : compare lock head with
    | lt => simp only [insertInto, compared, List.mem_cons]
    | eq =>
      have same : lock = head := Std.LawfulEqOrd.eq_of_compare compared
      subst same
      simp only [insertInto, compared, List.mem_cons, ← or_assoc, or_self]
    | gt =>
      simp only [insertInto, compared, List.mem_cons, inductionHypothesis]
      exact or_left_comm

/-- Adding a lock adds that lock and no other. -/
theorem mem_insert (set : LockSet) (lock tested : Lock) :
    tested ∈ set.insert lock ↔ tested = lock ∨ tested ∈ set :=
  mem_insertInto lock set.elements tested

/-- Putting a lock in its place keeps a list ascending. -/
theorem pairwise_insertInto (lock : Lock) (list : List Lock)
    (ascending : list.Pairwise (· < ·)) : (insertInto lock list).Pairwise (· < ·) := by
  induction list with
  | nil => exact List.pairwise_singleton _ _
  | cons head rest inductionHypothesis =>
    obtain ⟨headLeast, restAscending⟩ := List.pairwise_cons.mp ascending
    cases compared : compare lock head with
    | lt =>
      simp only [insertInto, compared]
      refine List.pairwise_cons.mpr ⟨?_, ascending⟩
      intro later member
      rcases List.mem_cons.mp member with rfl | member
      · exact compared
      · exact Lock.lt_trans compared (headLeast later member)
    | eq => simpa only [insertInto, compared] using ascending
    | gt =>
      simp only [insertInto, compared]
      refine List.pairwise_cons.mpr ⟨?_, inductionHypothesis restAscending⟩
      intro later member
      rcases (mem_insertInto lock rest later).mp member with rfl | member
      · exact (Lock.compare_eq_gt_iff _ _).mp compared
      · exact headLeast later member

/-- Insertion keeps the order. -/
theorem ascending_insert (set : LockSet) (lock : Lock) (ascending : set.Ascending) :
    (set.insert lock).Ascending :=
  pairwise_insertInto lock set.elements ascending

/-- The set of a list holds exactly the locks of the list. -/
theorem mem_ofList (locks : List Lock) (tested : Lock) :
    tested ∈ ofList locks ↔ tested ∈ locks := by
  have started : ∀ set : LockSet,
      tested ∈ locks.foldl insert set ↔ tested ∈ set ∨ tested ∈ locks := by
    induction locks with
    | nil => intro set; simp only [List.foldl_nil, List.not_mem_nil, or_false]
    | cons lock rest inductionHypothesis =>
      intro set
      rw [List.foldl_cons, inductionHypothesis, mem_insert, List.mem_cons, or_comm (a := _ = _),
        or_assoc]
  rw [ofList, started]
  simp only [mem_def, empty, List.not_mem_nil, false_or]

/-- The set of a list is listed in ascending order. -/
theorem ascending_ofList (locks : List Lock) : (ofList locks).Ascending := by
  have started : ∀ set : LockSet, set.Ascending → (locks.foldl insert set).Ascending := by
    induction locks with
    | nil => exact fun _ ascending => ascending
    | cons lock rest inductionHypothesis =>
      exact fun set ascending => inductionHypothesis _ (ascending_insert set lock ascending)
  exact started empty List.Pairwise.nil

/-- The difference holds what the first set holds and the second does not. -/
theorem mem_diff (set excluded : LockSet) (tested : Lock) :
    tested ∈ set.diff excluded ↔ tested ∈ set ∧ tested ∉ excluded := by
  simp only [diff, mem_def, List.mem_filter, decide_eq_true_eq]

end LockSet

end HeldLocks
