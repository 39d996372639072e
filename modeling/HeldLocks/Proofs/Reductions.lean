import HeldLocks.Proofs.Successors
import HeldLocks.Reduction

/-!
# Laws of reductions

A reduction and the expansion that belongs to it are one calculation for each lock. A lock
of the block keeps its count in both directions. Of any other lock the block sees
`Reduction.seen` of the count, and the caller regains `Reduction.regained` afterwards; and
if the block leaves what it saw, the caller regains what it had (`Reduction.regained_seen`).

The chain to return to is dropped before the block and put back after it. A block that
opens no call ends without a chain, and then the expansion returns to the very chain of the
caller (`Reduction.saved_expand`).
-/

namespace HeldLocks

namespace Reduction

/-- The count that the block sees of a lock it does not use. -/
def seen (reduction : Reduction) (held : Nat) : Nat :=
  if reduction.dropUnused then 0 else if reduction.flattenCounts then min held 1 else held

/-- The count that the caller, who holds a lock so often, regains after a block that does
not use the lock and leaves it with the final count. -/
def regained (reduction : Reduction) (held final : Nat) : Nat :=
  if reduction.dropUnused then if held = 0 then final else held
  else if reduction.flattenCounts then final + (held - 1)
  else final

/-- What the block saw and left as it was, the caller regains. -/
theorem regained_seen (reduction : Reduction) (held : Nat) :
    reduction.regained held (reduction.seen held) = held := by
  rw [regained, seen]
  cases reduction.dropUnused with
  | true =>
    simp only [if_true]
    split
    next unheld => exact unheld.symm
    next => rfl
  | false =>
    cases reduction.flattenCounts with
    | true =>
      simp only [Bool.false_eq_true, if_false, if_true]
      omega
    | false => simp only [Bool.false_eq_true, if_false]

/-! ## The drafts behind them -/

/-- The work whose result a reduction is. -/
def reducing (reduction : Reduction) (caller : State) (block : LockSet) : Draft :=
  let detached := (Draft.ofState caller).detach
  if reduction.dropUnused then detached.drop (caller.holdings.locks.diff block)
  else if reduction.flattenCounts then detached.flatten block
  else detached

/-- The work whose result an expansion is. -/
def expanding (reduction : Reduction) (caller : State) (block : LockSet) (final : State) :
    Draft :=
  let attached := (Draft.ofState final).attach caller
  if reduction.dropUnused then attached.reinstate caller block
  else if reduction.flattenCounts then attached.reapply caller block
  else attached

/-- A reduction is what its work is succeeded by. -/
theorem reduce_eq (reduction : Reduction) (fresh : Nat) (caller : State) (block : LockSet) :
    reduction.reduce fresh caller block = (reduction.reducing caller block).successor fresh :=
  rfl

/-- So is an expansion. -/
theorem expand_eq (reduction : Reduction) (fresh : Nat) (caller : State) (block : LockSet)
    (final : State) : reduction.expand fresh caller block final =
      (reduction.expanding caller block final).successor fresh :=
  rfl

/-- A reduction only detaches the chain, whatever it does to the holdings. -/
theorem context_reducing (reduction : Reduction) (caller : State) (block : LockSet) :
    (reduction.reducing caller block).context = (caller, [], false, .editing) := by
  rw [reducing]
  split
  · rfl
  · split
    · exact Draft.context_flatten _ block
    · rfl

/-- An expansion only attaches the caller's chain, whatever it does to the holdings. -/
theorem context_expanding (reduction : Reduction) (caller : State) (block : LockSet)
    (final : State) :
    (reduction.expanding caller block final).context =
      (final, caller.saved, false, .editing) := by
  rw [expanding]
  split
  · rfl
  · split <;> rfl

/-- What edits keep that look at no other state, a reduction keeps. -/
theorem reducing_keeps (reduction : Reduction) (caller : State) (block : LockSet)
    (Kept : Draft → Prop) (started : Kept (.ofState caller))
    (changeKeeps : ∀ draft, Kept draft → ∀ edit : Edit State, edit.root? = none →
      Kept (draft.change edit)) : Kept (reduction.reducing caller block) := by
  have detached := changeKeeps _ started .detach rfl
  rw [reducing]
  split
  · exact changeKeeps _ detached (.drop (caller.holdings.locks.diff block)) rfl
  · split
    · exact changeKeeps _ detached (.flatten block) rfl
    · exact detached

/-- What edits keep that look at no other state than the caller, an expansion keeps. -/
theorem expanding_keeps (reduction : Reduction) (caller : State) (block : LockSet)
    (final : State) (Kept : Draft → Prop) (started : Kept (.ofState final))
    (changeKeeps : ∀ draft, Kept draft → ∀ edit : Edit State, edit.root? = some caller →
      Kept (draft.change edit)) : Kept (reduction.expanding caller block final) := by
  have attached := changeKeeps _ started (.attach caller) rfl
  rw [expanding]
  split
  · exact changeKeeps _ attached (.reinstate caller block) rfl
  · split
    · exact changeKeeps _ attached (.reapply caller block) rfl
    · exact attached

/-! ## Counts -/

/-- Before the block a lock of the block has the caller's count, and any other lock what
the block sees of it. -/
theorem count_reduce (reduction : Reduction) (fresh : Nat) {caller : State}
    (canonical : caller.holdings.Canonical) (block : LockSet) (lock : Lock) :
    (reduction.reduce fresh caller block).holdings.count lock =
      if lock ∈ block then caller.holdings.count lock
      else reduction.seen (caller.holdings.count lock) := by
  have held := canonical.mem_iff_count_pos lock
  rw [reduce_eq, Draft.holdings_successor]
  rw [reducing, seen]
  cases reduction.dropUnused with
  | true =>
    simp only [if_true, Draft.drop, Holdings.count_eraseAll, LockSet.mem_diff,
      Holdings.mem_locks, Draft.detach, Draft.ofState, held]
    by_cases inside : lock ∈ block
    · simp [inside]
    · simp only [inside, not_false_eq_true, and_true, if_false]
      split
      next => rfl
      next unheld => exact Nat.eq_zero_of_not_pos unheld
  | false =>
    cases reduction.flattenCounts with
    | true =>
      simp only [Bool.false_eq_true, if_false, if_true, Draft.count_flatten, Draft.detach,
        Draft.ofState, held]
      by_cases inside : lock ∈ block
      · simp [inside]
      · simp only [inside, not_false_eq_true, and_true, if_false]
        split <;> omega
    | false => simp [Draft.detach, Draft.ofState]

/-- After the block a lock of the block has the count the block leaves it with, and any
other lock what the caller regains. -/
theorem count_expand (reduction : Reduction) (fresh : Nat) {caller : State}
    (canonical : caller.holdings.Canonical) (block : LockSet) (final : State) (lock : Lock) :
    (reduction.expand fresh caller block final).holdings.count lock =
      if lock ∈ block then final.holdings.count lock
      else reduction.regained (caller.holdings.count lock) (final.holdings.count lock) := by
  have held := canonical.mem_iff_count_pos lock
  rw [expand_eq, Draft.holdings_successor]
  rw [expanding, regained]
  cases reduction.dropUnused with
  | true =>
    simp only [if_true, Draft.count_reinstate _ _ canonical, Draft.attach, Draft.ofState, held]
    by_cases inside : lock ∈ block
    · simp [inside]
    · simp only [inside, not_false_eq_true, and_true, if_false]
      split
      next positive => rw [if_neg (Nat.ne_of_gt positive)]
      next unheld => rw [if_pos (Nat.eq_zero_of_not_pos unheld)]
  | false =>
    cases reduction.flattenCounts with
    | true =>
      simp only [Bool.false_eq_true, if_false, if_true, Draft.count_reapply _ _ canonical,
        Draft.attach, Draft.ofState, held]
      by_cases inside : lock ∈ block
      · simp [inside]
      · simp only [inside, not_false_eq_true, and_true, if_false]
        split <;> omega
    | false => simp [Draft.attach, Draft.ofState]

/-! ## Chains -/

/-- A reduced state returns to nothing. If it is the caller itself, that one does not
either. -/
theorem saved_reduce (reduction : Reduction) (fresh : Nat) (caller : State)
    (block : LockSet) : (reduction.reduce fresh caller block).saved = [] := by
  have context := context_reducing reduction caller block
  have origin : (reduction.reducing caller block).origin = caller := congrArg (·.1) context
  have remaining := Draft.remaining_of_context context
  rw [reduce_eq, Draft.saved_successor_of_exact, remaining]
  intro agrees
  rw [remaining] at agrees ⊢
  exact (eq_nil_of_sameChain agrees).symm

/-- After a block that ended without a chain, the expanded state returns to the very chain
of the caller. -/
theorem saved_expand (reduction : Reduction) (fresh : Nat) (caller : State)
    (block : LockSet) (final : State) (closed : final.saved = []) :
    (reduction.expand fresh caller block final).saved = caller.saved := by
  have context := context_expanding reduction caller block final
  have origin : (reduction.expanding caller block final).origin = final :=
    congrArg (·.1) context
  have remaining := Draft.remaining_of_context context
  rw [expand_eq, Draft.saved_successor_of_exact, remaining]
  intro agrees
  rw [remaining, origin, closed] at agrees ⊢
  rw [sameChain_comm] at agrees
  exact eq_nil_of_sameChain agrees

/-! ## The canonical form -/

/-- What a canonical state is reduced to is canonical. -/
theorem canonical_reduce (reduction : Reduction) (fresh : Nat) {caller : State}
    (canonical : caller.Canonical) (block : LockSet) :
    (reduction.reduce fresh caller block).Canonical := by
  apply Draft.Canonical.successor
  apply reduction.reducing_keeps caller block Draft.Canonical (.ofState canonical)
  intro draft draftCanonical edit rootless
  apply draftCanonical.change
  rw [rootless]
  exact fun root looked => nomatch looked

/-- What canonical states are expanded to is canonical. -/
theorem canonical_expand (reduction : Reduction) (fresh : Nat) {caller final : State}
    (callerCanonical : caller.Canonical) (finalCanonical : final.Canonical)
    (block : LockSet) : (reduction.expand fresh caller block final).Canonical := by
  apply Draft.Canonical.successor
  apply reduction.expanding_keeps caller block final Draft.Canonical (.ofState finalCanonical)
  intro draft draftCanonical edit rooted
  apply draftCanonical.change
  rw [rooted]
  rintro root ⟨⟩
  exact callerCanonical

end Reduction

end HeldLocks
