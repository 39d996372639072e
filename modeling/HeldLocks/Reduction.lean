import HeldLocks.Draft.Build

/-!
# Reductions

The effect of a block of code is found once and used at every call of the block. For that
a caller's state is reduced, before the block, to what the block can observe, and expanded
again after it with what the reduction left out. Callers whose reduced states have one key
share the summary of the block.

What a reduction leaves out, besides what the state returns to, is up to its options:
locks that the block does not use, or only the counts of such locks, or nothing.
-/

namespace HeldLocks

/-- What a reduction leaves out of a caller's state. -/
structure Reduction where
  /-- Leave out the locks that the block does not use. -/
  dropUnused : Bool
  /-- Leave out the counts of the locks that the block does not use. It has no effect
      beside `dropUnused`. -/
  flattenCounts : Bool
deriving DecidableEq

namespace Reduction

/-- The caller's state as the block sees it. -/
def reduce (reduction : Reduction) (fresh : Nat) (caller : State) (block : LockSet) : State :=
  let detached := (Draft.ofState caller).detach
  let reduced :=
    if reduction.dropUnused then detached.drop (caller.holdings.locks.diff block)
    else if reduction.flattenCounts then detached.flatten block
    else detached
  reduced.successor fresh

/-- The state after the block, with the caller's context put back around it. -/
def expand (reduction : Reduction) (fresh : Nat) (caller : State) (block : LockSet)
    (final : State) : State :=
  let attached := (Draft.ofState final).attach caller
  let expanded :=
    if reduction.dropUnused then attached.reinstate caller block
    else if reduction.flattenCounts then attached.reapply caller block
    else attached
  expanded.successor fresh

/-- What a summary is looked up by. -/
def key (reduced : State) : Holdings := reduced.holdings

end Reduction

end HeldLocks
