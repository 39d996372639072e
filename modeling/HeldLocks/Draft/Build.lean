import HeldLocks.Draft.Edit

/-!
# Building a draft

A draft becomes a state once. An infeasible draft becomes none. Where the work has led
back to the state it started from, in holdings and in all that it returns to, that state
itself is the result, so an unchanged state is never made a second time; otherwise a new
state is made under the number given for it.

A restored lock means that the innermost open call has returned, which shows only here:
the successor then returns to what lies below that call.

A new state takes the holdings and the chain out of the draft that it is made of. The draft
can still be asked for counts, and then holds no lock.
-/

namespace HeldLocks.Draft

/-- What the successor returns to. -/
def remaining (draft : Draft) : List Snapshot :=
  if draft.restored then draft.saved.tail else draft.saved

/-- Whether the work has led back to the state that it started from. -/
def unchanged (draft : Draft) : Bool :=
  draft.holdings == draft.origin.holdings && sameChain draft.remaining draft.origin.saved

/-- The state that a feasible draft stands for: its origin if the work has led back to it,
    and else a new one with the given number. -/
def successor (draft : Draft) (fresh : Nat) : State :=
  if draft.unchanged then draft.origin
  else ⟨⟨fresh, draft.holdings⟩, draft.remaining⟩

/-- The draft as the build leaves it behind. Only a new state takes from it what it is made
    of: a draft of an infeasible path, or one that was led back to its origin, still holds
    its locks. -/
def finished (draft : Draft) : Draft :=
  match draft.status with
  | .editing =>
    if draft.unchanged then { draft with saved := draft.remaining, status := .built }
    else { draft with holdings := .empty, saved := [], status := .built }
  | .infeasible | .built => { draft with status := .built }

/-- End the work. The outcome is the successor, or nothing if the path is infeasible, and
    comes with the draft as it is left behind. -/
def build (draft : Draft) (fresh : Nat) : Except Misuse (Option State × Draft) :=
  match draft.status with
  | .built => .error .usedAfterBuild
  | .infeasible => .ok (none, draft.finished)
  | .editing => .ok (some (draft.successor fresh), draft.finished)

/-- Whatever becomes of a draft, it is built then. -/
theorem status_finished (draft : Draft) : draft.finished.status = .built := by
  rw [finished]
  split
  · split <;> rfl
  · rfl
  · rfl

/-- A draft that nothing was done to stands for its origin. -/
theorem successor_ofState (origin : State) (fresh : Nat) :
    (ofState origin).successor fresh = origin := by
  simp only [successor, unchanged, remaining, ofState, Bool.false_eq_true, if_false,
    beq_self_eq_true, sameChain_self, Bool.and_self, if_true]

end HeldLocks.Draft
