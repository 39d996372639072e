import HeldLocks.Holdings.Basic

/-!
# Laws of holdings

Three groups. What an operation does to the count of every lock (`count_insert`,
`count_erase`, `count_assign`, `count_acquire`, `count_release`), with no premise on the
entries. That every operation keeps holdings canonical (`Canonical.insert` and the like).
And that canonical holdings with the same counts are the same holdings
(`Canonical.ext`), which turns every equation between holdings into one between counts.
-/

namespace HeldLocks.Holdings

/-! ## Counts -/

/-- Holdings that hold nothing count nothing. -/
@[simp] theorem count_empty (lock : Lock) : empty.count lock = 0 := rfl

/-- Insertion sets the count of its own lock and no other. -/
theorem countIn_insertInto (lock : Lock) (count : Nat) (entries : List (Lock × Nat))
    (tested : Lock) : countIn tested (insertInto lock count entries) =
      if tested = lock then count else countIn tested entries := by
  induction entries with
  | nil => simp only [insertInto, countIn, eq_comm]
  | cons entry rest inductionHypothesis =>
    obtain ⟨held, old⟩ := entry
    cases compared : compare lock held with
    | lt => simp only [insertInto, compared, countIn, eq_comm]
    | eq =>
      have same : lock = held := Std.LawfulEqOrd.eq_of_compare compared
      subst same
      by_cases atLock : tested = lock
      · simp only [insertInto, compared, countIn, atLock, if_true]
      · simp only [insertInto, compared, countIn, atLock, Ne.symm atLock, if_false]
    | gt =>
      have different : held ≠ lock := by
        rintro rfl
        simp only [Std.ReflOrd.compare_self, reduceCtorEq] at compared
      simp only [insertInto, compared, countIn, inductionHypothesis]
      by_cases atLock : tested = lock
      · subst atLock
        simp only [different, if_false, if_true]
      · simp only [atLock, if_false]

/-- Inserting a count changes the count of that lock and of no other. -/
theorem count_insert (holdings : Holdings) (lock : Lock) (count : Nat) (tested : Lock) :
    (holdings.insert lock count).count tested =
      if tested = lock then count else holdings.count tested :=
  countIn_insertInto lock count holdings.entries tested

/-- A forgotten lock counts zero, and every other lock counts what it did. -/
theorem count_erase (holdings : Holdings) (lock tested : Lock) :
    (holdings.erase lock).count tested =
      if tested = lock then 0 else holdings.count tested := by
  unfold erase count
  induction holdings.entries with
  | nil => simp only [List.filter_nil, countIn, ite_self]
  | cons entry rest inductionHypothesis =>
    obtain ⟨held, old⟩ := entry
    by_cases atHeld : held = lock
    · subst atHeld
      simp only [ne_eq, not_true_eq_false, decide_false, Bool.false_eq_true, not_false_eq_true,
        List.filter_cons_of_neg, inductionHypothesis, countIn]
      by_cases atTested : tested = held
      · simp only [atTested, if_true]
      · simp only [atTested, Ne.symm atTested, if_false]
    · simp only [ne_eq, atHeld, not_false_eq_true, decide_true, List.filter_cons_of_pos, countIn,
        inductionHypothesis]
      by_cases atTested : held = tested
      · subst atTested
        simp only [atHeld, if_true, if_false]
      · simp only [atTested, if_false]

/-- Assigning a count sets it, zero included. -/
theorem count_assign (holdings : Holdings) (lock : Lock) (count : Nat) (tested : Lock) :
    (holdings.assign lock count).count tested =
      if tested = lock then count else holdings.count tested := by
  unfold assign
  split
  next zero => rw [count_erase, zero]
  next => exact count_insert holdings lock count tested

/-- Acquiring adds to the count of the lock. -/
theorem count_acquire (holdings : Holdings) (lock : Lock) (times : Nat) (tested : Lock) :
    (holdings.acquire lock times).count tested =
      if tested = lock then holdings.count lock + times else holdings.count tested :=
  count_assign holdings lock _ tested

/-- Releasing takes from the count of the lock, down to zero. -/
theorem count_release (holdings : Holdings) (lock : Lock) (times : Nat) (tested : Lock) :
    (holdings.release lock times).count tested =
      if tested = lock then holdings.count lock - times else holdings.count tested :=
  count_assign holdings lock _ tested

/-- A lock without an entry counts zero. -/
theorem count_of_not_mem (holdings : Holdings) (lock : Lock) (absent : lock ∉ holdings) :
    holdings.count lock = 0 := by
  obtain ⟨entries⟩ := holdings
  have nowhere : lock ∉ entries.map Prod.fst := absent
  clear absent
  unfold count
  induction entries with
  | nil => rfl
  | cons entry rest inductionHypothesis =>
    obtain ⟨held, old⟩ := entry
    simp only [List.map_cons, List.mem_cons, not_or] at nowhere
    simp only [countIn, Ne.symm nowhere.1, if_false]
    exact inductionHypothesis nowhere.2

/-- Forgetting a set of locks makes each of them count zero. -/
theorem count_eraseAll (holdings : Holdings) (locks : LockSet) (tested : Lock) :
    (holdings.eraseAll locks).count tested =
      if tested ∈ locks then 0 else holdings.count tested := by
  have folded : ∀ (list : List Lock) (start : Holdings),
      (list.foldl erase start).count tested =
        if tested ∈ list then 0 else start.count tested := by
    intro list
    induction list with
    | nil => intro start; simp only [List.foldl_nil, List.not_mem_nil, if_false]
    | cons lock rest inductionHypothesis =>
      intro start
      rw [List.foldl_cons, inductionHypothesis, count_erase]
      by_cases later : tested ∈ rest
      · simp only [later, List.mem_cons, or_true, if_true]
      · simp only [later, List.mem_cons, or_false, if_false]
  exact folded locks.elements holdings

/-! ## Entries -/

/-- The set of the held locks holds what is held. -/
theorem mem_locks (holdings : Holdings) (lock : Lock) :
    lock ∈ holdings.locks ↔ lock ∈ holdings := Iff.rfl

/-- Insertion brings no entry but its own. -/
theorem mem_insertInto (lock : Lock) (count : Nat) (entries : List (Lock × Nat))
    (entry : Lock × Nat) (member : entry ∈ insertInto lock count entries) :
    entry = (lock, count) ∨ entry ∈ entries := by
  induction entries with
  | nil => exact Or.inl (List.mem_singleton.mp member)
  | cons head rest inductionHypothesis =>
    obtain ⟨held, old⟩ := head
    cases compared : compare lock held with
    | lt =>
      simp only [insertInto, compared] at member
      exact List.mem_cons.mp member
    | eq =>
      simp only [insertInto, compared] at member
      exact (List.mem_cons.mp member).imp_right (List.mem_cons_of_mem _)
    | gt =>
      simp only [insertInto, compared] at member
      rcases List.mem_cons.mp member with rfl | member
      · exact Or.inr List.mem_cons_self
      · exact (inductionHypothesis member).imp_right (List.mem_cons_of_mem _)

/-- What is left when a lock is erased was there before. -/
theorem mem_erase (holdings : Holdings) (lock : Lock) (entry : Lock × Nat)
    (member : entry ∈ (holdings.erase lock).entries) : entry ∈ holdings.entries :=
  (List.mem_filter.mp member).1

/-! ## The canonical form -/

namespace Canonical

/-- No held lock is the canonical form of no lock. -/
protected theorem empty : Canonical Holdings.empty where
  ascending := List.Pairwise.nil
  positive := fun _ member => absurd member List.not_mem_nil

/-- What follows the first entry is canonical too. -/
protected theorem tail {head : Lock × Nat} {rest : List (Lock × Nat)}
    (canonical : Canonical ⟨head :: rest⟩) : Canonical ⟨rest⟩ where
  ascending := (List.pairwise_cons.mp canonical.ascending).2
  positive := fun entry member => canonical.positive entry (List.mem_cons_of_mem _ member)

/-- Insertion keeps the entries in the order of their locks. -/
theorem pairwise_insertInto (lock : Lock) (count : Nat) (entries : List (Lock × Nat))
    (ascending : entries.Pairwise fun earlier later => earlier.1 < later.1) :
    (insertInto lock count entries).Pairwise fun earlier later => earlier.1 < later.1 := by
  induction entries with
  | nil => exact List.pairwise_singleton _ _
  | cons head rest inductionHypothesis =>
    obtain ⟨held, old⟩ := head
    obtain ⟨headLeast, restAscending⟩ := List.pairwise_cons.mp ascending
    cases compared : compare lock held with
    | lt =>
      simp only [insertInto, compared]
      refine List.pairwise_cons.mpr ⟨?_, ascending⟩
      intro entry member
      rcases List.mem_cons.mp member with rfl | member
      · exact compared
      · exact Lock.lt_trans compared (headLeast entry member)
    | eq =>
      have same : lock = held := Std.LawfulEqOrd.eq_of_compare compared
      subst same
      simp only [insertInto, compared]
      exact List.pairwise_cons.mpr ⟨headLeast, restAscending⟩
    | gt =>
      simp only [insertInto, compared]
      refine List.pairwise_cons.mpr ⟨?_, inductionHypothesis restAscending⟩
      intro entry member
      rcases mem_insertInto lock count rest entry member with rfl | member
      · exact (Lock.compare_eq_gt_iff _ _).mp compared
      · exact headLeast entry member

variable {holdings : Holdings}

/-- Inserting a positive count keeps the form. -/
protected theorem insert (canonical : holdings.Canonical) (lock : Lock) (count : Nat)
    (countPositive : 0 < count) : (holdings.insert lock count).Canonical where
  ascending := pairwise_insertInto lock count holdings.entries canonical.ascending
  positive := by
    intro entry member
    rcases mem_insertInto lock count holdings.entries entry member with rfl | member
    · exact countPositive
    · exact canonical.positive entry member

/-- Erasing a lock keeps holdings canonical. -/
protected theorem erase (canonical : holdings.Canonical) (lock : Lock) :
    (holdings.erase lock).Canonical where
  ascending := canonical.ascending.filter _
  positive := fun entry member => canonical.positive entry (mem_erase holdings lock entry member)

/-- Assigning keeps the form whatever the count, since a zero count leaves no entry. -/
protected theorem assign (canonical : holdings.Canonical) (lock : Lock) (count : Nat) :
    (holdings.assign lock count).Canonical := by
  unfold Holdings.assign
  split
  next => exact canonical.erase lock
  next nonzero => exact canonical.insert lock count (Nat.pos_of_ne_zero nonzero)

/-- Acquiring keeps holdings canonical. -/
protected theorem acquire (canonical : holdings.Canonical) (lock : Lock) (times : Nat) :
    (holdings.acquire lock times).Canonical :=
  canonical.assign lock _

/-- Releasing keeps holdings canonical. -/
protected theorem release (canonical : holdings.Canonical) (lock : Lock) (times : Nat) :
    (holdings.release lock times).Canonical :=
  canonical.assign lock _

/-- Erasing every lock of a set keeps holdings canonical. -/
protected theorem eraseAll (canonical : holdings.Canonical) (locks : LockSet) :
    (holdings.eraseAll locks).Canonical := by
  have folded : ∀ (list : List Lock) (start : Holdings), start.Canonical →
      (list.foldl Holdings.erase start).Canonical := by
    intro list
    induction list with
    | nil => exact fun _ startCanonical => startCanonical
    | cons lock rest inductionHypothesis =>
      exact fun start startCanonical => inductionHypothesis _ (startCanonical.erase lock)
  exact folded locks.elements holdings canonical

/-- An entry of canonical holdings states the count of its lock. -/
theorem count_of_mem (canonical : holdings.Canonical) {lock : Lock} {count : Nat}
    (member : (lock, count) ∈ holdings.entries) : holdings.count lock = count := by
  obtain ⟨entries⟩ := holdings
  unfold Holdings.count
  induction entries with
  | nil => exact absurd member List.not_mem_nil
  | cons head rest inductionHypothesis =>
    obtain ⟨held, old⟩ := head
    rcases List.mem_cons.mp member with same | member
    · obtain ⟨rfl, rfl⟩ := Prod.mk.inj same
      simp only [countIn, if_true]
    · have before : held < lock := (List.pairwise_cons.mp canonical.ascending).1 _ member
      have different : held ≠ lock := by
        rintro rfl
        exact Lock.lt_irrefl _ before
      simp only [countIn, different, if_false]
      exact inductionHypothesis canonical.tail member

/-- In canonical holdings the held locks are those with a positive count. -/
theorem mem_iff_count_pos (canonical : holdings.Canonical) (lock : Lock) :
    lock ∈ holdings ↔ 0 < holdings.count lock := by
  constructor
  · intro held
    obtain ⟨⟨key, count⟩, member, rfl⟩ := List.mem_map.mp held
    rw [canonical.count_of_mem member]
    exact canonical.positive _ member
  · intro positive
    apply Classical.byContradiction
    intro absent
    rw [count_of_not_mem holdings lock absent] at positive
    exact Nat.lt_irrefl 0 positive

/-- An entry is listed exactly if its count is positive and is the count of its lock. -/
theorem mem_entries_iff (canonical : holdings.Canonical) (lock : Lock) (count : Nat) :
    (lock, count) ∈ holdings.entries ↔ 0 < count ∧ holdings.count lock = count := by
  constructor
  · exact fun member => ⟨canonical.positive _ member, canonical.count_of_mem member⟩
  · rintro ⟨positive, rfl⟩
    obtain ⟨⟨key, count⟩, member, rfl⟩ :=
      List.mem_map.mp ((canonical.mem_iff_count_pos lock).mpr positive)
    rw [canonical.count_of_mem member]
    exact member

/-- The held locks of canonical holdings are listed in ascending order. -/
theorem ascending_locks (canonical : holdings.Canonical) : holdings.locks.Ascending :=
  List.pairwise_map.mpr canonical.ascending

/-- Canonical holdings that count every lock alike are equal. -/
protected theorem ext {left right : Holdings} (leftCanonical : left.Canonical)
    (rightCanonical : right.Canonical) (same : ∀ lock, left.count lock = right.count lock) :
    left = right := by
  have members : ∀ entry, entry ∈ left.entries ↔ entry ∈ right.entries := by
    rintro ⟨lock, count⟩
    rw [leftCanonical.mem_entries_iff, rightCanonical.mem_entries_iff, same]
  have permuted : left.entries.Perm right.entries := by
    have distinct : ∀ {holdings : Holdings}, holdings.Canonical → holdings.entries.Nodup := by
      intro holdings canonical
      refine canonical.ascending.imp ?_
      rintro earlier later before rfl
      exact Lock.lt_irrefl _ before
    exact (List.perm_ext_iff_of_nodup (distinct leftCanonical) (distinct rightCanonical)).mpr
      members
  have entries : left.entries = right.entries := by
    refine permuted.eq_of_pairwise ?_ leftCanonical.ascending rightCanonical.ascending
    intro first second _ _ forth back
    exact absurd (Lock.lt_trans forth back) (Lock.lt_irrefl _)
  cases left
  cases right
  exact congrArg Holdings.mk entries

end Canonical

end HeldLocks.Holdings
