import HeldLocks.Proofs.Counters
import HeldLocks.Proofs.Reductions

/-!
# Reductions on counters of 32 bits

A reduction and an expansion are a few edits each, so `HeldLocks.Proofs.Counters` tells what they
come to on counters of 32 bits. From states whose counts are in range a reduction never leaves it:
it drops locks, or starts them over with one acquisition.

An expansion puts counts back, and where they were flattened it adds the caller's count to what the
block has left before it takes one off. That sum can be larger than the largest counter
(`Reduction.Overflows`), even if the result would be in range. Otherwise an expansion does what it
does, and all counts stay in range (`Reduction.expandOnWords?_eq`).
-/

namespace HeldLocks

namespace Reduction

/-- The work whose result a reduction is, on counters of 32 bits. -/
def reducingOnWords? (reduction : Reduction) (caller : State) (block : LockSet) :
    Option Draft := do
  let detached ← (Draft.ofState caller).changeOnWords? .detach
  if reduction.dropUnused then detached.changeOnWords? (.drop (caller.holdings.locks.diff block))
  else if reduction.flattenCounts then detached.changeOnWords? (.flatten block)
  else some detached

/-- The work whose result an expansion is, on counters of 32 bits. -/
def expandingOnWords? (reduction : Reduction) (caller : State) (block : LockSet)
    (final : State) : Option Draft := do
  let attached ← (Draft.ofState final).changeOnWords? (.attach caller)
  if reduction.dropUnused then attached.changeOnWords? (.reinstate caller block)
  else if reduction.flattenCounts then attached.changeOnWords? (.reapply caller block)
  else some attached

/-- The caller's state as the block sees it, on counters of 32 bits. -/
def reduceOnWords? (reduction : Reduction) (fresh : Nat) (caller : State) (block : LockSet) :
    Option State :=
  (reduction.reducingOnWords? caller block).map fun reduced => reduced.successor fresh

/-- The state after the block, with the caller's context put back around it, on counters of 32
bits. -/
def expandOnWords? (reduction : Reduction) (fresh : Nat) (caller : State) (block : LockSet)
    (final : State) : Option State :=
  (reduction.expandingOnWords? caller block final).map fun expanded => expanded.successor fresh

/-- Whether an expansion adds the caller's count of some lock to what the block has left of it, and
the sum is larger than the largest counter. -/
def Overflows (reduction : Reduction) (caller : State) (block : LockSet) (final : State) : Prop :=
  reduction.dropUnused = false ∧ reduction.flattenCounts = true ∧
    ∃ lock ∈ caller.holdings, lock ∉ block ∧
      Trace.maxCounter < final.holdings.count lock + caller.holdings.count lock

variable {caller final : State}

/-- An edit that neither assigns a count nor looks at a state fits. -/
theorem fits_of_rootless (edit : Edit State) (rootless : edit.root? = none)
    (unassigned : ∀ lock count, edit ≠ .assign lock count) : edit.Fits where
  assigned := fun lock count assigns => absurd assigns (unassigned lock count)
  root := by
    rw [rootless]
    exact fun root looked => by cases looked

/-- An edit that looks at a state that fits, and assigns no count, fits. -/
theorem fits_of_root (edit : Edit State) {root : State} (rooted : edit.root? = some root)
    (unassigned : ∀ lock count, edit ≠ .assign lock count) (fits : root.Fits) : edit.Fits where
  assigned := fun lock count assigns => absurd assigns (unassigned lock count)
  root := by
    rw [rooted]
    rintro looked ⟨⟩
    exact fits

/-- On counters of 32 bits a reduction does what it does, and keeps all in range. -/
theorem reduceOnWords?_eq (reduction : Reduction) (fresh : Nat) (fits : caller.Fits)
    (block : LockSet) :
    reduction.reduceOnWords? fresh caller block = some (reduction.reduce fresh caller block) ∧
      (reduction.reduce fresh caller block).Fits := by
  obtain ⟨detached, detachedFits⟩ := ((Draft.Fits.ofState fits).changeOnWords?_eq
    (fits_of_rootless .detach rfl (by simp))).2 id
  have work : reduction.reducingOnWords? caller block = some (reduction.reducing caller block) ∧
      (reduction.reducing caller block).Fits := by
    rw [reducingOnWords?, detached, reducing, Option.bind_eq_bind, Option.bind_some]
    split
    · exact (detachedFits.changeOnWords?_eq (fits_of_rootless
        (.drop (caller.holdings.locks.diff block)) rfl (by simp))).2 id
    · split
      · exact (detachedFits.changeOnWords?_eq (fits_of_rootless
          (.flatten block) rfl (by simp))).2 id
      · exact ⟨rfl, detachedFits⟩
  rw [reduceOnWords?, work.1, reduce_eq]
  exact ⟨rfl, work.2.successor fresh⟩

/-- On counters of 32 bits an expansion leaves the range exactly if it overflows, and otherwise
does what it does and keeps all in range. -/
theorem expandOnWords?_eq (reduction : Reduction) (fresh : Nat) (callerFits : caller.Fits)
    (block : LockSet) (finalFits : final.Fits) :
    (reduction.Overflows caller block final →
        reduction.expandOnWords? fresh caller block final = none) ∧
      (¬ reduction.Overflows caller block final →
        reduction.expandOnWords? fresh caller block final =
            some (reduction.expand fresh caller block final) ∧
          (reduction.expand fresh caller block final).Fits) := by
  obtain ⟨attached, attachedFits⟩ := ((Draft.Fits.ofState finalFits).changeOnWords?_eq
    (fits_of_root (.attach caller) rfl (by simp) callerFits)).2 id
  obtain ⟨reinstated, reinstatedFits⟩ := (attachedFits.changeOnWords?_eq
    (fits_of_root (.reinstate caller block) rfl (by simp) callerFits)).2 id
  obtain ⟨leaves, stays⟩ := attachedFits.changeOnWords?_eq
    (fits_of_root (.reapply caller block) rfl (by simp) callerFits)
  have work : (reduction.Overflows caller block final →
        reduction.expandingOnWords? caller block final = none) ∧
      (¬ reduction.Overflows caller block final →
        reduction.expandingOnWords? caller block final =
            some (reduction.expanding caller block final) ∧
          (reduction.expanding caller block final).Fits) := by
    rw [expandingOnWords?, attached, expanding, Overflows, Option.bind_eq_bind, Option.bind_some]
    cases reduction.dropUnused with
    | true =>
      exact ⟨fun overflows => Bool.noConfusion overflows.1, fun _ => ⟨reinstated, reinstatedFits⟩⟩
    | false =>
      cases reduction.flattenCounts with
      | true =>
        exact ⟨fun overflows => leaves overflows.2.2,
          fun fitting => stays fun overflows => fitting ⟨rfl, rfl, overflows⟩⟩
      | false =>
        exact ⟨fun overflows => Bool.noConfusion overflows.2.1, fun _ => ⟨rfl, attachedFits⟩⟩
  rw [expandOnWords?, expand_eq]
  constructor
  · intro overflows
    rw [work.1 overflows]
    rfl
  · intro fitting
    obtain ⟨expanded, expandedFits⟩ := work.2 fitting
    rw [expanded]
    exact ⟨rfl, expandedFits.successor fresh⟩

/-- So an expansion leaves the range exactly if it overflows. -/
theorem expandOnWords?_eq_none_iff (reduction : Reduction) (fresh : Nat)
    (callerFits : caller.Fits) (block : LockSet) (finalFits : final.Fits) :
    reduction.expandOnWords? fresh caller block final = none ↔
      reduction.Overflows caller block final := by
  obtain ⟨leaves, stays⟩ := reduction.expandOnWords?_eq fresh callerFits block finalFits
  refine ⟨fun left => ?_, leaves⟩
  apply Classical.byContradiction
  intro fitting
  rw [(stays fitting).1] at left
  cases left

/-- The caller's count is in range, and so is what it would regain, but the sum on the way is
not. -/
example : Reduction.expandOnWords? ⟨false, true⟩ 2
    ⟨⟨0, ⟨[(.ofName "a", 2147483647)]⟩⟩, []⟩ .empty ⟨⟨1, ⟨[(.ofName "a", 1)]⟩⟩, []⟩ = none := by
  decide +kernel

end Reduction

end HeldLocks
