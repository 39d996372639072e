import HeldLocks.Proofs.Edits
import HeldLocks.Proofs.Limits

/-!
# Counters of 32 bits

Counts here are natural numbers. The counters of a program have 32 bits, and it reaches a count by
acquiring and releasing one at a time, also where a lock is assigned a count. This module follows
the edits of a draft on such counters (`Draft.changeOnWords?`). Whatever computes a counter from
others does so in single steps, and nothing comes out once the result of a step would be negative
or larger than the largest counter. All other edits forget or copy counters.

Two edits can leave the range: an acquisition of a lock that has the largest counter, and the
addition of a root's counts, which forms a sum before it takes one off (`Draft.OverflowsUnder`).
No release does, for a lock that is not held is not released; no assignment does, for it stops at
a counter; and flattening starts every lock over. From a draft whose counts are in range, an edit
on counters leaves the range exactly if it overflows, and otherwise does what it does, with all
counts still in range (`Draft.Fits.changeOnWords?_eq`).
-/

namespace HeldLocks

/-! ## Counters -/

/-- An integer as a counter, if it is in range. -/
def counter? (value : Int) : Option Nat :=
  if 0 ≤ value ∧ value ≤ Trace.maxCounter then some value.toNat else none

/-- A count is a counter exactly if it is at most the largest. -/
theorem counter?_natCast (count : Nat) :
    counter? count = if count ≤ Trace.maxCounter then some count else none := by
  have natural : 0 ≤ (count : Int) := Int.natCast_nonneg count
  simp only [counter?, natural, true_and, Int.ofNat_le, Int.toNat_natCast]

namespace Holdings

/-- Acquire a lock a number of times, one at a time. -/
def acquireOnWords? (holdings : Holdings) (lock : Lock) : Nat → Option Holdings
  | 0 => some holdings
  | times + 1 => do
    let count ← counter? (holdings.count lock + 1)
    acquireOnWords? (holdings.assign lock count) lock times

/-- Release a lock a number of times, one at a time. Nothing is left to release once it is not
held. -/
def releaseOnWords? (holdings : Holdings) (lock : Lock) : Nat → Option Holdings
  | 0 => some holdings
  | times + 1 =>
    if lock ∈ holdings then do
      let count ← counter? (holdings.count lock - 1)
      releaseOnWords? (holdings.assign lock count) lock times
    else releaseOnWords? holdings lock times

/-- Bring the count of a lock to a value by acquiring or releasing it as often as that takes. -/
def assignOnWords? (holdings : Holdings) (lock : Lock) (count : Nat) : Option Holdings := do
  let held := holdings.count lock
  let risen ← holdings.acquireOnWords? lock (count - held)
  risen.releaseOnWords? lock (held - count)

/-- Bring every held lock outside a set to the count one, by forgetting it and acquiring it
again. -/
def flattenOnWords? (holdings : Holdings) (kept : LockSet) : Option Holdings :=
  (holdings.locks.diff kept).elements.foldlM
    (fun flattened lock => (flattened.erase lock).acquireOnWords? lock 1) holdings

/-- Add the count of an entry to that of its lock, and take one off the sum. -/
def reapplyEntryOnWords? (holdings : Holdings) (entry : Lock × Nat) : Option Holdings := do
  let sum ← counter? (holdings.count entry.1 + entry.2)
  let count ← counter? (sum - 1)
  return holdings.assign entry.1 count

/-- Add the counts of a root, less one, for the locks that it holds outside a set. -/
def reapplyOnWords? (holdings root : Holdings) (used : LockSet) : Option Holdings :=
  (root.entries.filter fun entry => entry.1 ∉ used).foldlM reapplyEntryOnWords? holdings

variable {holdings : Holdings}

/-- Assigning a lock the count that it has changes nothing. -/
theorem Canonical.assign_count (canonical : holdings.Canonical) (lock : Lock) :
    holdings.assign lock (holdings.count lock) = holdings := by
  refine (canonical.assign lock _).ext canonical fun tested => ?_
  rw [count_assign]
  split
  next here => rw [here]
  next => rfl

/-- Of two assignments of one lock the second counts. -/
theorem Canonical.assign_assign (canonical : holdings.Canonical) (lock : Lock)
    (first second : Nat) :
    (holdings.assign lock first).assign lock second = holdings.assign lock second := by
  refine ((canonical.assign lock first).assign lock second).ext (canonical.assign lock second)
    fun tested => ?_
  rw [count_assign, count_assign, count_assign]
  split <;> rfl

/-- A lock has the count that it was assigned. -/
theorem count_assign_self (holdings : Holdings) (lock : Lock) (count : Nat) :
    (holdings.assign lock count).count lock = count := by
  rw [count_assign, if_pos rfl]

/-- Acquisitions leave the range exactly if the count that they come to is out of it. -/
theorem acquireOnWords?_eq (canonical : holdings.Canonical) (lock : Lock) (times : Nat)
    (fits : holdings.count lock ≤ Trace.maxCounter) :
    holdings.acquireOnWords? lock times =
      if holdings.count lock + times ≤ Trace.maxCounter then some (holdings.acquire lock times)
      else none := by
  induction times generalizing holdings with
  | zero => rw [acquireOnWords?, acquire, Nat.add_zero, if_pos fits, canonical.assign_count]
  | succ times inductionHypothesis =>
    rw [acquireOnWords?, ← Int.natCast_succ, counter?_natCast]
    by_cases next : holdings.count lock + 1 ≤ Trace.maxCounter
    · have others := inductionHypothesis (canonical.assign lock (holdings.count lock + 1))
        (by rwa [count_assign_self])
      rw [acquire, count_assign_self, canonical.assign_assign, Nat.add_right_comm,
        Nat.add_assoc] at others
      rw [if_pos next]
      exact others
    · rw [if_neg next, if_neg (by omega)]
      rfl

/-- Releases stay in range. -/
theorem releaseOnWords?_eq (canonical : holdings.Canonical) (lock : Lock) (times : Nat)
    (fits : holdings.count lock ≤ Trace.maxCounter) :
    holdings.releaseOnWords? lock times = some (holdings.release lock times) := by
  induction times generalizing holdings with
  | zero => rw [releaseOnWords?, release, Nat.sub_zero, canonical.assign_count]
  | succ times inductionHypothesis =>
    rw [releaseOnWords?]
    by_cases held : lock ∈ holdings
    · have positive := (canonical.mem_iff_count_pos lock).mp held
      have others := inductionHypothesis (canonical.assign lock (holdings.count lock - 1))
        (by rw [count_assign_self]; omega)
      rw [release, count_assign_self, canonical.assign_assign, Nat.sub_sub, Nat.add_comm 1]
        at others
      have fewer : (holdings.count lock : Int) - 1 = (holdings.count lock - 1 : Nat) := by omega
      rw [if_pos held, fewer, counter?_natCast, if_pos (by omega)]
      exact others
    · have zero := count_of_not_mem holdings lock held
      rw [if_neg held, inductionHypothesis canonical fits, release, release, zero, Nat.zero_sub,
        Nat.zero_sub]

/-- Assignments of what is in range stay in range. -/
theorem assignOnWords?_eq (canonical : holdings.Canonical) (lock : Lock) (count : Nat)
    (fits : holdings.count lock ≤ Trace.maxCounter) (assignable : count ≤ Trace.maxCounter) :
    holdings.assignOnWords? lock count = some (holdings.assign lock count) := by
  have raised : (holdings.acquire lock (count - holdings.count lock)).count lock =
      max (holdings.count lock) count := by
    rw [acquire, count_assign_self]
    omega
  have released := releaseOnWords?_eq (canonical.acquire lock (count - holdings.count lock)) lock
    (holdings.count lock - count) (by omega)
  rw [release, raised, acquire, canonical.assign_assign] at released
  rw [assignOnWords?, acquireOnWords?_eq canonical lock _ fits, if_pos (by omega)]
  have reached : max (holdings.count lock) count - (holdings.count lock - count) = count := by
    omega
  rw [reached] at released
  exact released

/-- Adding one entry leaves the range exactly if the sum does. -/
theorem reapplyEntryOnWords?_eq (holdings : Holdings) (lock : Lock) {count : Nat}
    (positive : 0 < count) :
    holdings.reapplyEntryOnWords? (lock, count) =
      if holdings.count lock + count ≤ Trace.maxCounter
      then some (holdings.assign lock (holdings.count lock + count - 1)) else none := by
  rw [reapplyEntryOnWords?, ← Int.natCast_add, counter?_natCast]
  by_cases inRange : holdings.count lock + count ≤ Trace.maxCounter
  · have fewer : ((holdings.count lock + count : Nat) : Int) - 1 =
        (holdings.count lock + count - 1 : Nat) := by omega
    have counted : counter? ((holdings.count lock + count : Nat) - 1) =
        some (holdings.count lock + count - 1) := by
      rw [fewer, counter?_natCast, if_pos (by omega)]
    simp only [if_pos inRange, Option.bind_eq_bind, Option.bind_some, counted]
    rfl
  · simp only [if_neg inRange, Option.bind_eq_bind, Option.bind_none]

/-- Adding entries of different locks leaves the range exactly if one of the sums does. No entry
changes the count that another is added to, so all sums are formed with the first counts. -/
theorem foldlM_reapplyEntryOnWords?_eq (entries : List (Lock × Nat))
    (distinct : (entries.map Prod.fst).Nodup) (positive : ∀ entry ∈ entries, 0 < entry.2)
    (start : Holdings) :
    ((∃ entry ∈ entries, Trace.maxCounter < start.count entry.1 + entry.2) →
      entries.foldlM reapplyEntryOnWords? start = none) ∧
    ((∀ entry ∈ entries, start.count entry.1 + entry.2 ≤ Trace.maxCounter) →
      entries.foldlM reapplyEntryOnWords? start = some (entries.foldl (fun holdings entry =>
        holdings.assign entry.1 (holdings.count entry.1 + entry.2 - 1)) start)) := by
  induction entries generalizing start with
  | nil =>
    refine ⟨?_, fun _ => rfl⟩
    rintro ⟨entry, member, _⟩
    cases member
  | cons entry rest inductionHypothesis =>
    obtain ⟨lock, count⟩ := entry
    obtain ⟨absent, restDistinct⟩ := List.nodup_cons.mp distinct
    obtain ⟨first, others⟩ := List.forall_mem_cons.mp positive
    obtain ⟨leaves, stays⟩ := inductionHypothesis restDistinct others
      (start.assign lock (start.count lock + count - 1))
    have same : ∀ entry ∈ rest,
        (start.assign lock (start.count lock + count - 1)).count entry.1 =
          start.count entry.1 := by
      intro entry member
      rw [count_assign, if_neg]
      rintro rfl
      exact absent (List.mem_map.mpr ⟨entry, member, rfl⟩)
    rw [List.foldlM_cons, reapplyEntryOnWords?_eq start lock first]
    by_cases inRange : start.count lock + count ≤ Trace.maxCounter
    · rw [if_pos inRange]
      constructor
      · rintro ⟨entry, member, tooLarge⟩
        rcases List.mem_cons.mp member with rfl | later
        · exact absurd inRange (Nat.not_le.mpr tooLarge)
        · exact leaves ⟨entry, later, by rwa [same entry later]⟩
      · intro all
        refine stays fun entry later => ?_
        rw [same entry later]
        exact all entry (List.mem_cons_of_mem _ later)
    · rw [if_neg inRange]
      exact ⟨fun _ => rfl, fun all => absurd (all _ List.mem_cons_self) inRange⟩

end Holdings

/-! ## States and drafts in range -/

/-- The holdings of a state, and of all that it returns to, are canonical and have counts in
range. -/
structure State.Fits (state : State) : Prop where
  /-- The holdings are canonical. -/
  canonical : state.Canonical
  /-- The counts are in range. -/
  within : state.Within fun _ count => count ≤ Trace.maxCounter

/-- A canonical state fits if no entry of its chain counts more than the largest counter. -/
theorem State.fits_of_entries {state : State} (canonical : state.Canonical)
    (inRange : ∀ snapshot ∈ state.chain, ∀ entry ∈ snapshot.holdings.entries,
      entry.2 ≤ Trace.maxCounter) : state.Fits where
  canonical := canonical
  within := by
    intro snapshot member lock held
    have holds := ((canonical snapshot member).mem_iff_count_pos lock).mpr held
    obtain ⟨entry, listed, rfl⟩ := List.mem_map.mp holds
    rw [(canonical snapshot member).count_of_mem listed]
    exact inRange snapshot member entry listed

/-- A state without locks fits. -/
theorem State.fits_empty (serial : Nat) : (State.empty serial).Fits :=
  ⟨State.canonical_empty serial, State.Within.empty serial⟩

/-- An edit assigns a count in range, if it assigns one, and looks at a state that fits, if it
looks at one. -/
structure Edit.Fits (edit : Edit State) : Prop where
  /-- What is assigned is in range. -/
  assigned : ∀ lock count, edit = .assign lock count → count.toNat ≤ Trace.maxCounter
  /-- The root fits. -/
  root : ∀ root ∈ edit.root?, root.Fits

namespace Draft

/-- All that a draft has or can take up are canonical holdings with counts in range. -/
structure Fits (draft : Draft) : Prop where
  /-- The holdings are canonical. -/
  canonical : draft.Canonical
  /-- The counts are in range. -/
  within : draft.Within fun _ count => count ≤ Trace.maxCounter

/-- The holdings that an edit leaves, on counters of 32 bits. Those that compute no counter forget
or copy some. -/
def changedOnWords? (draft : Draft) : Edit State → Option Holdings
  | .acquire lock => draft.holdings.acquireOnWords? lock 1
  | .release lock => draft.holdings.releaseOnWords? lock 1
  | .assign lock count => draft.holdings.assignOnWords? lock count.toNat
  | .flatten kept => draft.holdings.flattenOnWords? kept
  | .reapply root used => draft.holdings.reapplyOnWords? root.holdings used
  | edit => some (draft.change edit).holdings

/-- What an edit does to a draft that accepts it, on counters of 32 bits. -/
def changeOnWords? (draft : Draft) (edit : Edit State) : Option Draft :=
  (draft.changedOnWords? edit).map fun holdings => { draft.change edit with holdings }

/-- Whether an edit acquires a lock that has the largest counter, or adds a root's count to a count
with a sum that is larger. -/
def OverflowsUnder (draft : Draft) : Edit State → Prop
  | .acquire lock => draft.holdings.count lock = Trace.maxCounter
  | .reapply root used => ∃ lock ∈ root.holdings, lock ∉ used ∧
      Trace.maxCounter < draft.holdings.count lock + root.holdings.count lock
  | _ => False

variable {draft : Draft}

/-- Assigning a count, which acquires and releases, comes to putting it in place. -/
theorem Canonical.holdings_assign (canonical : draft.Canonical) (lock : Lock) (count : Nat) :
    (draft.assign lock count).holdings = draft.holdings.assign lock count := by
  have assigned := (canonical.assign lock count).holdings
  refine assigned.ext (canonical.holdings.assign lock count) fun tested => ?_
  rw [Holdings.count_assign, draft.count_assign]

/-- Flattening stays in range, as every lock that it takes up starts over. -/
theorem Canonical.flattenOnWords?_eq (canonical : draft.Canonical) (kept : LockSet) :
    draft.holdings.flattenOnWords? kept = some (draft.flatten kept).holdings := by
  have folded : ∀ (list : List Lock) (start : Draft), start.Canonical →
      list.foldlM (fun flattened lock => (flattened.erase lock).acquireOnWords? lock 1)
          start.holdings =
        some (list.foldl (fun flattened lock => (flattened.forget lock).acquire lock 1)
          start).holdings := by
    intro list
    induction list with
    | nil => exact fun start startCanonical => rfl
    | cons lock rest inductionHypothesis =>
      intro start startCanonical
      have forgotten : (start.holdings.erase lock).count lock = 0 := by
        rw [Holdings.count_erase, if_pos rfl]
      have acquired : (start.holdings.erase lock).acquireOnWords? lock 1 =
          some ((start.forget lock).acquire lock 1).holdings := by
        rw [Holdings.acquireOnWords?_eq (startCanonical.holdings.erase lock) lock 1
          (forgotten ▸ Nat.zero_le _), forgotten, if_pos (by decide)]
        rfl
      rw [List.foldlM_cons, acquired, List.foldl_cons]
      exact inductionHypothesis _ ((startCanonical.forget lock).acquire lock 1)
  exact folded _ draft canonical

/-- Adding a root's counts leaves the range exactly if it overflows. -/
theorem reapplyOnWords?_eq (draft : Draft) {root : State}
    (rootCanonical : root.holdings.Canonical) (used : LockSet) :
    (draft.OverflowsUnder (.reapply root used) →
        draft.holdings.reapplyOnWords? root.holdings used = none) ∧
      (¬ draft.OverflowsUnder (.reapply root used) →
        draft.holdings.reapplyOnWords? root.holdings used =
          some (draft.reapply root used).holdings) := by
  have distinct : ((root.holdings.entries.filter fun entry => entry.1 ∉ used).map
      Prod.fst).Nodup :=
    rootCanonical.nodup_locks.sublist (List.filter_sublist.map Prod.fst)
  have positive : ∀ entry ∈ root.holdings.entries.filter fun entry => entry.1 ∉ used,
      0 < entry.2 :=
    fun entry member => rootCanonical.positive entry (List.mem_filter.mp member).1
  obtain ⟨leaves, stays⟩ :=
    Holdings.foldlM_reapplyEntryOnWords?_eq _ distinct positive draft.holdings
  constructor
  · rintro ⟨lock, held, outside, tooLarge⟩
    obtain ⟨entry, listed, rfl⟩ := List.mem_map.mp held
    rw [rootCanonical.count_of_mem listed] at tooLarge
    exact leaves ⟨entry, List.mem_filter.mpr ⟨listed, decide_eq_true outside⟩, tooLarge⟩
  · intro fitting
    refine stays fun entry member => ?_
    obtain ⟨listed, outside⟩ := List.mem_filter.mp member
    have counted : root.holdings.count entry.1 = entry.2 := rootCanonical.count_of_mem listed
    apply Nat.le_of_not_lt
    intro tooLarge
    exact fitting ⟨entry.1, List.mem_map_of_mem listed, of_decide_eq_true outside,
      counted.symm ▸ tooLarge⟩

namespace Fits

/-- A draft of a state that fits, fits. -/
protected theorem ofState {state : State} (fits : state.Fits) : (ofState state).Fits where
  canonical := .ofState fits.canonical
  within := .ofState fits.within

variable (fits : draft.Fits)

include fits

/-- No lock has more than the largest counter. -/
theorem count_le (lock : Lock) : draft.holdings.count lock ≤ Trace.maxCounter :=
  fits.within.holdings.count_le lock

/-- What is built from a draft that fits, fits. -/
protected theorem successor (fresh : Nat) : (draft.successor fresh).Fits where
  canonical := fits.canonical.successor fresh
  within := forall_chain_successor (Holdings.Within fun _ count => count ≤ Trace.maxCounter) draft
    fresh fits.within.holdings fits.within.origin fits.within.saved

variable {edit : Edit State} (editFits : edit.Fits)

include editFits

/-- An edit leaves the range exactly if it overflows. -/
theorem changedOnWords?_eq :
    (draft.OverflowsUnder edit → draft.changedOnWords? edit = none) ∧
      (¬ draft.OverflowsUnder edit →
        draft.changedOnWords? edit = some (draft.change edit).holdings) := by
  have canonical := fits.canonical.holdings
  cases edit with
  | acquire lock =>
    have most := fits.count_le lock
    rw [OverflowsUnder, changedOnWords?, Holdings.acquireOnWords?_eq canonical lock 1 most]
    constructor
    · intro atMost
      rw [if_neg (by omega)]
    · intro room
      rw [if_pos (by omega)]
      rfl
  | release lock =>
    refine ⟨False.elim, fun _ => ?_⟩
    exact Holdings.releaseOnWords?_eq canonical lock 1 (fits.count_le lock)
  | assign lock count =>
    refine ⟨False.elim, fun _ => ?_⟩
    have assigned := fits.canonical.holdings_assign lock count.toNat
    rw [changedOnWords?, change, assigned]
    exact Holdings.assignOnWords?_eq canonical lock count.toNat (fits.count_le lock)
      (editFits.assigned lock count rfl)
  | flatten kept => exact ⟨False.elim, fun _ => fits.canonical.flattenOnWords?_eq kept⟩
  | reapply root used =>
    have rootCanonical := (editFits.root root rfl).canonical root.toSnapshot List.mem_cons_self
    exact draft.reapplyOnWords?_eq rootCanonical used
  | forget lock | restore lock | restoreAll | forgetAll | save | abort | detach | drop locks
  | attach root | reinstate root used => exact ⟨False.elim, fun _ => rfl⟩

/-- After an edit that does not overflow, all counts are in range. -/
theorem count_change_le (fitting : ¬ draft.OverflowsUnder edit) (lock : Lock) :
    (draft.change edit).holdings.count lock ≤ Trace.maxCounter := by
  have most := fits.count_le lock
  have rootFits : ∀ root ∈ edit.root?, root.holdings.count lock ≤ Trace.maxCounter :=
    fun root looked => ((editFits.root root looked).within root.toSnapshot
      List.mem_cons_self).count_le lock
  have savedFits : ∀ caller below, draft.saved = caller :: below →
      caller.holdings.count lock ≤ Trace.maxCounter := fun caller below called =>
    (fits.within.saved caller (called ▸ List.mem_cons_self)).count_le lock
  cases edit with
  | acquire target =>
    have room : draft.holdings.count target ≠ Trace.maxCounter := fitting
    have before := fits.count_le target
    rw [change, count_acquire]
    split <;> omega
  | release target =>
    have before := fits.count_le target
    rw [change, count_release]
    split <;> omega
  | forget target =>
    change (draft.holdings.erase target).count lock ≤ _
    rw [Holdings.count_erase]
    split <;> omega
  | assign target count =>
    have assigned := editFits.assigned target count rfl
    rw [change, count_assign]
    split <;> omega
  | restore target =>
    rw [change, count_restore]
    split
    next here =>
      subst here
      split
      next => exact most
      next caller below called => exact savedFits caller below called
    next => exact most
  | restoreAll =>
    rw [change, restoreAll]
    split
    next => exact most
    next caller below called => exact savedFits caller below called
  | forgetAll => exact Nat.zero_le _
  | drop locks =>
    change (draft.holdings.eraseAll locks).count lock ≤ _
    rw [Holdings.count_eraseAll]
    split <;> omega
  | flatten kept =>
    rw [change, count_flatten]
    split
    · decide
    · exact most
  | reinstate root used =>
    have rootCanonical := (editFits.root root rfl).canonical root.toSnapshot List.mem_cons_self
    rw [change, count_reinstate draft root rootCanonical]
    split
    · exact rootFits root rfl
    · exact most
  | reapply root used =>
    have rootCanonical := (editFits.root root rfl).canonical root.toSnapshot List.mem_cons_self
    rw [change, count_reapply draft root rootCanonical]
    split
    next added =>
      have sum : ¬ Trace.maxCounter < draft.holdings.count lock + root.holdings.count lock :=
        fun tooLarge => fitting ⟨lock, added.1, added.2, tooLarge⟩
      omega
    next => exact most
  | save | abort | detach | attach root => exact most

/-- An edit that does not overflow keeps all in range. -/
protected theorem change (fitting : ¬ draft.OverflowsUnder edit) : (draft.change edit).Fits where
  canonical := fits.canonical.change edit fun root looked => (editFits.root root looked).canonical
  within :=
    { holdings := fun lock _ => fits.count_change_le editFits fitting lock
      origin := by
        rw [origin_change]
        exact fits.within.origin
      saved := by
        rw [saved_change]
        cases edit with
        | save => exact fits.within.origin
        | detach => exact List.forall_mem_nil _
        | attach root =>
          exact fun snapshot member =>
            (editFits.root root rfl).within snapshot (List.mem_cons_of_mem _ member)
        | _ => exact fits.within.saved }

/-- On counters of 32 bits an edit leaves the range exactly if it overflows, and otherwise does
what it does and keeps all in range. -/
theorem changeOnWords?_eq :
    (draft.OverflowsUnder edit → draft.changeOnWords? edit = none) ∧
      (¬ draft.OverflowsUnder edit →
        draft.changeOnWords? edit = some (draft.change edit) ∧ (draft.change edit).Fits) := by
  obtain ⟨leaves, stays⟩ := fits.changedOnWords?_eq editFits
  constructor
  · intro overflows
    rw [changeOnWords?, leaves overflows]
    rfl
  · intro fitting
    refine ⟨?_, fits.change editFits fitting⟩
    rw [changeOnWords?, stays fitting]
    rfl

end Fits

end Draft

end HeldLocks
