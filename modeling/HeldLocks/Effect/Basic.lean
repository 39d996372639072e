import HeldLocks.Draft.Build

/-!
# Effects

An effect is one thing that a statement of the program does to locks. Unlike an edit it
reads the draft that it meets: an acquisition with a bound does nothing to a lock that
already has the bounding count, and a check of a count does nothing if it comes out as
expected. `Effect.edit?` makes that choice, and `State.after` is the successor of a state
under a batch of effects.
-/

namespace HeldLocks

/-- One thing that a statement of the program does to locks. -/
inductive Effect where
  /-- Acquire a lock. A positive bound is a count beyond which nothing is acquired. -/
  | acquire (lock : Lock) (bound : Int)
  /-- Release a lock once. -/
  | release (lock : Lock)
  /-- Forget a lock. -/
  | forget (lock : Lock)
  /-- Bring the count of a lock to a value. -/
  | assign (lock : Lock) (count : Int)
  /-- Give a lock the count that it has in the state to return to. -/
  | restore (lock : Lock)
  /-- Rule the path out unless it is as expected whether the lock has the count. -/
  | check (lock : Lock) (count : Int) (expected : Bool)
  /-- Take the holdings of the state to return to. -/
  | restoreAll
  /-- Forget every lock. -/
  | forgetAll
  /-- Open a call that returns to the state at hand. -/
  | save
deriving DecidableEq

namespace Effect

/-- The name of an effect with its operands. Bounds are not shown. -/
def text : Effect → String
  | acquire lock _ => "Acquire(" ++ lock.text ++ ")"
  | release lock => "Release(" ++ lock.text ++ ")"
  | forget lock => "Reset(" ++ lock.text ++ ")"
  | assign lock count => "Set(" ++ lock.text ++ ", " ++ toString count ++ ")"
  | restore lock => "Restore(" ++ lock.text ++ ")"
  | check lock count expected =>
    "Check(" ++ lock.text ++ (if expected then " == " else " != ") ++ toString count ++ ")"
  | restoreAll => "RestoreAll"
  | forgetAll => "ResetAll"
  | save => "SaveState"

/-- The lock that an effect is about, if it is about a single one. -/
def lock? : Effect → Option Lock
  | acquire lock _ | release lock | forget lock | assign lock _ | restore lock
  | check lock _ _ => some lock
  | restoreAll | forgetAll | save => none

/-- The edit that an effect asks for at the given holdings, if it asks for one. -/
def edit? (holdings : Holdings) : Effect → Option (Edit State)
  | acquire lock bound =>
    if 0 < bound ∧ bound ≤ holdings.count lock then none else some (.acquire lock)
  | release lock => some (.release lock)
  | forget lock => some (.forget lock)
  | assign lock count => some (.assign lock count)
  | restore lock => some (.restore lock)
  | check lock count expected =>
    if decide (holdings.count lock = count) = expected then none else some .abort
  | restoreAll => some .restoreAll
  | forgetAll => some .forgetAll
  | save => some .save

end Effect

namespace Draft

/-- Let an effect act on a draft. One that asks for no edit is not refused, whatever the
    stage of the draft. -/
def undergo (draft : Draft) (effect : Effect) : Except Misuse Draft :=
  match effect.edit? draft.holdings with
  | none => .ok draft
  | some edit => draft.edit edit

/-- Let effects act in order, up to the first that is refused. -/
def undergoAll (draft : Draft) (effects : List Effect) : Except Misuse Draft :=
  effects.foldlM undergo draft

end Draft

namespace State

/-- The successor of a state under a batch of effects, made under the given number if it is
    new. There is none if the batch rules the path out. -/
def after (state : State) (fresh : Nat) (effects : List Effect) :
    Except Misuse (Option State) := do
  let draft ← (Draft.ofState state).undergoAll effects
  let (outcome, _) ← draft.build fresh
  return outcome

end State

end HeldLocks
