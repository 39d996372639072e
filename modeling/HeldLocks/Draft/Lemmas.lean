import HeldLocks.Draft.Edit

/-!
# Laws of drafts

What the changes of a draft do to the count of every lock, and that they keep all its
holdings canonical: `Draft.Canonical` says so of a draft, `State.Canonical` of a state with
the chain below it, and `Draft.Canonical.change` is the law for all edits at once.

Changes that visit the entries of another state touch each lock once, because no lock has
two entries there. `count_foldl_entries` is the law behind them.
-/

namespace HeldLocks

namespace Holdings

/-- Visiting entries of different locks, each visit changing the count of its own lock in
    one way, changes the count of every visited lock in that way once. -/
theorem count_foldl_entries (visit : Holdings → Lock × Nat → Holdings)
    (update : Nat → Nat → Nat)
    (visited : ∀ holdings entry tested, (visit holdings entry).count tested =
      if tested = entry.1 then update (holdings.count tested) entry.2
      else holdings.count tested)
    (entries : List (Lock × Nat)) (distinct : (entries.map Prod.fst).Nodup)
    (start : Holdings) (tested : Lock) :
    (entries.foldl visit start).count tested =
      if tested ∈ entries.map Prod.fst
      then update (start.count tested) (countIn tested entries)
      else start.count tested := by
  induction entries generalizing start with
  | nil => simp only [List.foldl_nil, List.map_nil, List.not_mem_nil, if_false]
  | cons entry rest inductionHypothesis =>
    obtain ⟨lock, count⟩ := entry
    obtain ⟨absent, restDistinct⟩ := List.nodup_cons.mp distinct
    rw [List.foldl_cons, inductionHypothesis restDistinct, visited]
    by_cases here : tested = lock
    · subst here
      simp only [absent, if_false, if_true, List.map_cons, List.mem_cons, true_or, countIn]
    · simp only [here, if_false, List.map_cons, List.mem_cons, false_or, countIn,
        Ne.symm here]

/-- The locks of canonical holdings are different from one another. -/
theorem Canonical.nodup_locks {holdings : Holdings} (canonical : holdings.Canonical) :
    (holdings.entries.map Prod.fst).Nodup := by
  refine List.pairwise_map.mpr (canonical.ascending.imp ?_)
  intro earlier later before same
  rw [same] at before
  exact Lock.lt_irrefl _ before

/-- The entries outside a set count what all entries do, but for the locks of the set. -/
theorem countIn_filter_not_mem (entries : List (Lock × Nat)) (used : LockSet) (tested : Lock)
    (outside : tested ∉ used) :
    countIn tested (entries.filter fun entry => entry.1 ∉ used) = countIn tested entries := by
  induction entries with
  | nil => rfl
  | cons entry rest inductionHypothesis =>
    obtain ⟨lock, count⟩ := entry
    by_cases inside : lock ∈ used
    · have different : lock ≠ tested := by
        rintro rfl
        exact outside inside
      simp only [inside, not_true_eq_false, decide_false, Bool.false_eq_true,
        not_false_eq_true, List.filter_cons_of_neg, countIn, different, if_false,
        inductionHypothesis]
    · simp only [inside, not_false_eq_true, decide_true, List.filter_cons_of_pos, countIn,
        inductionHypothesis]

/-- The locks of the entries outside a set are the held locks outside it. -/
theorem mem_filter_not_mem (holdings : Holdings) (used : LockSet) (tested : Lock) :
    tested ∈ (holdings.entries.filter fun entry => entry.1 ∉ used).map Prod.fst ↔
      tested ∈ holdings ∧ tested ∉ used := by
  constructor
  · intro member
    obtain ⟨entry, listed, rfl⟩ := List.mem_map.mp member
    obtain ⟨entryListed, outside⟩ := List.mem_filter.mp listed
    exact ⟨List.mem_map.mpr ⟨entry, entryListed, rfl⟩, of_decide_eq_true outside⟩
  · rintro ⟨held, outside⟩
    obtain ⟨entry, entryListed, rfl⟩ := List.mem_map.mp held
    exact List.mem_map.mpr
      ⟨entry, List.mem_filter.mpr ⟨entryListed, decide_eq_true outside⟩, rfl⟩

end Holdings

/-- The holdings of a state and of all it returns to are canonical. -/
def State.Canonical (state : State) : Prop :=
  ∀ snapshot ∈ state.chain, snapshot.holdings.Canonical

namespace Draft

/-! ## Counts -/

/-- Acquiring adds to the count of the lock. -/
theorem count_acquire (draft : Draft) (lock : Lock) (times : Nat) (tested : Lock) :
    (draft.acquire lock times).holdings.count tested =
      if tested = lock then draft.holdings.count lock + times
      else draft.holdings.count tested := by
  unfold acquire
  split
  next none =>
    by_cases here : tested = lock
    · simp only [here, none, Nat.add_zero, if_true]
    · simp only [here, if_false]
  next => exact Holdings.count_acquire draft.holdings lock times tested

/-- Releasing takes from the count of the lock, down to zero. -/
theorem count_release (draft : Draft) (lock : Lock) (times : Nat) (tested : Lock) :
    (draft.release lock times).holdings.count tested =
      if tested = lock then draft.holdings.count lock - times
      else draft.holdings.count tested := by
  unfold release
  split
  next none =>
    by_cases here : tested = lock
    · simp only [here, none, Nat.sub_zero, if_true]
    · simp only [here, if_false]
  next => exact Holdings.count_release draft.holdings lock times tested

/-- Assigning brings the count of the lock to the value. -/
theorem count_assign (draft : Draft) (lock : Lock) (count : Nat) (tested : Lock) :
    (draft.assign lock count).holdings.count tested =
      if tested = lock then count else draft.holdings.count tested := by
  simp only [assign, count_release, count_acquire]
  by_cases here : tested = lock
  · simp only [here, if_true]
    omega
  · simp only [here, if_false]

/-- Restoring gives a lock the count that it has in the state to return to, if there is one,
    and leaves every other lock alone. -/
theorem count_restore (draft : Draft) (lock tested : Lock) :
    (draft.restore lock).holdings.count tested =
      if tested = lock then
        match draft.saved with
        | [] => draft.holdings.count lock
        | caller :: _ => caller.holdings.count lock
      else draft.holdings.count tested := by
  unfold restore
  cases draft.saved with
  | nil =>
    by_cases here : tested = lock
    · simp only [here, if_true]
    · simp only [here, if_false]
  | cons caller below => exact Holdings.count_assign draft.holdings lock _ tested

/-- Flattening gives the count one to the held locks outside the set, and leaves every
    other lock alone. -/
theorem count_flatten (draft : Draft) (kept : LockSet) (tested : Lock) :
    (draft.flatten kept).holdings.count tested =
      if tested ∈ draft.holdings ∧ tested ∉ kept then 1
      else draft.holdings.count tested := by
  have folded : ∀ (list : List Lock) (start : Draft),
      (list.foldl (fun flattened lock => (flattened.forget lock).acquire lock 1)
        start).holdings.count tested =
        if tested ∈ list then 1 else start.holdings.count tested := by
    intro list
    induction list with
    | nil => intro start; simp only [List.foldl_nil, List.not_mem_nil, if_false]
    | cons lock rest inductionHypothesis =>
      intro start
      rw [List.foldl_cons, inductionHypothesis, count_acquire, forget, Holdings.count_erase,
        Holdings.count_erase]
      by_cases later : tested ∈ rest
      · simp only [later, List.mem_cons, or_true, if_true]
      · by_cases here : tested = lock
        · subst here
          simp only [later, List.mem_cons, true_or, if_true, if_false]
        · simp only [here, later, List.mem_cons, or_false, if_false]
  simp only [flatten, folded, ← LockSet.mem_def, LockSet.mem_diff, Holdings.mem_locks]

/-- Reinstating gives a lock outside the set the count that it has in the root, if it is
    held there. -/
theorem count_reinstate (draft : Draft) (root : State) (canonical : root.holdings.Canonical)
    (used : LockSet) (tested : Lock) :
    (draft.reinstate root used).holdings.count tested =
      if tested ∈ root.holdings ∧ tested ∉ used then root.holdings.count tested
      else draft.holdings.count tested := by
  have distinct : ((root.holdings.entries.filter fun entry => entry.1 ∉ used).map
      Prod.fst).Nodup :=
    canonical.nodup_locks.sublist (List.filter_sublist.map Prod.fst)
  refine (Holdings.count_foldl_entries _ (fun _ count => count) ?_ _ distinct _ tested).trans ?_
  · exact fun holdings entry tested => Holdings.count_insert holdings entry.1 entry.2 tested
  · simp only [Holdings.mem_filter_not_mem]
    split
    next outside => exact Holdings.countIn_filter_not_mem _ used tested outside.2
    next => rfl

/-- Reapplying adds the count that a lock outside the set has in the root, less one, if it
    is held there. -/
theorem count_reapply (draft : Draft) (root : State) (canonical : root.holdings.Canonical)
    (used : LockSet) (tested : Lock) :
    (draft.reapply root used).holdings.count tested =
      if tested ∈ root.holdings ∧ tested ∉ used
      then draft.holdings.count tested + root.holdings.count tested - 1
      else draft.holdings.count tested := by
  have distinct : ((root.holdings.entries.filter fun entry => entry.1 ∉ used).map
      Prod.fst).Nodup :=
    canonical.nodup_locks.sublist (List.filter_sublist.map Prod.fst)
  refine (Holdings.count_foldl_entries _ (fun held count => held + count - 1) ?_ _ distinct _
    tested).trans ?_
  · intro holdings entry tested
    rw [Holdings.count_assign]
    by_cases here : tested = entry.1
    · simp only [here, if_true]
    · simp only [here, if_false]
  · simp only [Holdings.mem_filter_not_mem]
    split
    next outside =>
      rw [Holdings.countIn_filter_not_mem _ used tested outside.2]
      rfl
    next => rfl

/-! ## The canonical form -/

/-- All holdings that a draft has or can take up from where it started are canonical. -/
structure Canonical (draft : Draft) : Prop where
  /-- The holdings so far. -/
  holdings : draft.holdings.Canonical
  /-- The state that the work started from, with what it returns to. -/
  origin : draft.origin.Canonical
  /-- What the successor returns to. -/
  saved : ∀ snapshot ∈ draft.saved, snapshot.holdings.Canonical

namespace Canonical

/-- A draft of a canonical state is canonical. -/
protected theorem ofState {state : State} (canonical : state.Canonical) :
    (ofState state).Canonical where
  holdings := canonical state.toSnapshot List.mem_cons_self
  origin := canonical
  saved := fun snapshot member => canonical snapshot (List.mem_cons_of_mem _ member)

variable {draft : Draft}

/-- Putting canonical holdings in place of the present ones keeps the form. -/
theorem withHoldings (canonical : draft.Canonical) (holdings : Holdings)
    (holdingsCanonical : holdings.Canonical) :
    { draft with holdings := holdings }.Canonical where
  holdings := holdingsCanonical
  origin := canonical.origin
  saved := canonical.saved

/-- Acquiring keeps a draft canonical. -/
protected theorem acquire (canonical : draft.Canonical) (lock : Lock) (times : Nat) :
    (draft.acquire lock times).Canonical := by
  unfold Draft.acquire
  split
  next => exact canonical
  next => exact ⟨canonical.holdings.acquire lock times, canonical.origin, canonical.saved⟩

/-- So does releasing. -/
protected theorem release (canonical : draft.Canonical) (lock : Lock) (times : Nat) :
    (draft.release lock times).Canonical := by
  unfold Draft.release
  split
  next => exact canonical
  next => exact ⟨canonical.holdings.release lock times, canonical.origin, canonical.saved⟩

/-- So does assigning a count, which acquires and releases. -/
protected theorem assign (canonical : draft.Canonical) (lock : Lock) (count : Nat) :
    (draft.assign lock count).Canonical :=
  (canonical.acquire lock _).release lock _

/-- So does forgetting a lock. -/
protected theorem forget (canonical : draft.Canonical) (lock : Lock) :
    (draft.forget lock).Canonical :=
  canonical.withHoldings _ (canonical.holdings.erase lock)

/-- So does flattening, which forgets and acquires. -/
protected theorem flatten (canonical : draft.Canonical) (kept : LockSet) :
    (draft.flatten kept).Canonical := by
  have folded : ∀ (list : List Lock) (start : Draft), start.Canonical →
      (list.foldl (fun flattened lock => (flattened.forget lock).acquire lock 1)
        start).Canonical := by
    intro list
    induction list with
    | nil => exact fun _ startCanonical => startCanonical
    | cons lock rest inductionHypothesis =>
      exact fun start startCanonical =>
        inductionHypothesis _ ((startCanonical.forget lock).acquire lock 1)
  exact folded _ draft canonical

/-- So does reinstating a root, if the root is canonical itself. -/
protected theorem reinstate (canonical : draft.Canonical) {root : State}
    (rootCanonical : root.Canonical) (used : LockSet) :
    (draft.reinstate root used).Canonical := by
  have positive : ∀ entry ∈ root.holdings.entries.filter fun entry => entry.1 ∉ used,
      0 < entry.2 := fun entry member =>
    (rootCanonical root.toSnapshot List.mem_cons_self).positive entry
      (List.mem_filter.mp member).1
  refine canonical.withHoldings _ (List.foldlRecOn _ _ canonical.holdings ?_)
  exact fun holdings holdingsCanonical entry member =>
    holdingsCanonical.insert entry.1 entry.2 (positive entry member)

/-- So does reapplying a root, whatever the root holds. -/
protected theorem reapply (canonical : draft.Canonical) (root : State) (used : LockSet) :
    (draft.reapply root used).Canonical := by
  refine canonical.withHoldings _ (List.foldlRecOn _ _ canonical.holdings ?_)
  exact fun holdings holdingsCanonical entry _ => holdingsCanonical.assign entry.1 _

/-- No edit disturbs the form, as long as the states it looks at have it. -/
protected theorem change (canonical : draft.Canonical) (edit : Edit State)
    (roots : ∀ root ∈ edit.root?, root.Canonical) : (draft.change edit).Canonical := by
  cases edit with
  | acquire lock => exact canonical.acquire lock 1
  | release lock => exact canonical.release lock 1
  | forget lock => exact canonical.forget lock
  | assign lock count => exact canonical.assign lock count.toNat
  | restore lock =>
    simp only [Draft.change, Draft.restore]
    split
    next => exact canonical
    next => exact ⟨canonical.holdings.assign lock _, canonical.origin, canonical.saved⟩
  | restoreAll =>
    simp only [Draft.change, Draft.restoreAll]
    split
    next => exact canonical
    next caller _ chain =>
      exact canonical.withHoldings _ (canonical.saved caller (chain ▸ List.mem_cons_self))
  | forgetAll => exact canonical.withHoldings _ Holdings.Canonical.empty
  | detach =>
    exact ⟨canonical.holdings, canonical.origin, fun _ member => absurd member List.not_mem_nil⟩
  | drop locks => exact canonical.withHoldings _ (canonical.holdings.eraseAll locks)
  | flatten kept => exact canonical.flatten kept
  | attach root =>
    exact ⟨canonical.holdings, canonical.origin, fun snapshot member =>
      roots root rfl snapshot (List.mem_cons_of_mem _ member)⟩
  | reinstate root used => exact canonical.reinstate (roots root rfl) used
  | reapply root used => exact canonical.reapply root used
  | save => exact ⟨canonical.holdings, canonical.origin, canonical.origin⟩
  | abort => exact ⟨canonical.holdings, canonical.origin, canonical.saved⟩

end Canonical

end Draft

end HeldLocks
