import HeldLocks.State

/-!
# Drafts

A draft is the work on the successor of a state: the holdings so far, the chain that the
successor will return to, and whether the path has turned out to be infeasible. This
module holds the single changes. They are total functions; that a draft takes changes
only until it is built, and counts that are not negative, is checked in
`HeldLocks.Draft.Edit`, and what a draft becomes is in `HeldLocks.Draft.Build`.

Acquisitions and releases are recorded in `Draft.touches`, equal ones in a row under their
number. Changes that bring a count to a value (`Draft.assign`) or to one (`Draft.flatten`)
work by acquiring and releasing, so the record tells how often they did.
-/

namespace HeldLocks

/-- The stage that a draft has reached. -/
inductive Draft.Status where
  /-- Changes are accepted. -/
  | editing
  /-- Changes are accepted, but the path has turned out to be infeasible. -/
  | infeasible
  /-- The successor has been made. -/
  | built
deriving DecidableEq

/-- A run of acquisitions or of releases of one lock. -/
inductive Draft.Touch where
  /-- The lock was acquired this often. -/
  | acquired (lock : Lock) (times : Nat)
  /-- The lock was released this often, whether or not it was held. -/
  | released (lock : Lock) (times : Nat)
deriving DecidableEq

/-- How many acquisitions a run is. -/
def Draft.Touch.acquisitions : Draft.Touch → Nat
  | acquired _ times => times
  | released _ _ => 0

/-- How many releases a run is. -/
def Draft.Touch.releases : Draft.Touch → Nat
  | acquired _ _ => 0
  | released _ times => times

/-- Work on the successor of a state. -/
structure Draft where
  /-- The state that the work started from. -/
  origin : State
  /-- The holdings so far. -/
  holdings : Holdings
  /-- What the successor returns to, before `restored` is taken into account. -/
  saved : List Snapshot
  /-- Whether a lock was restored, so that the innermost open call has returned. -/
  restored : Bool
  /-- The stage of the work. -/
  status : Draft.Status
  /-- The acquisitions and releases, the latest first. -/
  touches : List Draft.Touch

namespace Draft

/-- The draft in which nothing has been changed. -/
def ofState (origin : State) : Draft where
  origin
  holdings := origin.holdings
  saved := origin.saved
  restored := false
  status := .editing
  touches := []

/-! ## Changes of one lock -/

/-- Acquire a lock a number of times. -/
def acquire (draft : Draft) (lock : Lock) (times : Nat) : Draft :=
  if times = 0 then draft
  else { draft with
    holdings := draft.holdings.acquire lock times
    touches := .acquired lock times :: draft.touches }

/-- Release a lock a number of times. Nothing is left to release once it is not held. -/
def release (draft : Draft) (lock : Lock) (times : Nat) : Draft :=
  if times = 0 then draft
  else { draft with
    holdings := draft.holdings.release lock times
    touches := .released lock times :: draft.touches }

/-- Forget a lock whatever its count. -/
def forget (draft : Draft) (lock : Lock) : Draft :=
  { draft with holdings := draft.holdings.erase lock }

/-- Bring the count of a lock to a value by acquiring or releasing it as often as that
    takes. At most one of the two differences is positive. -/
def assign (draft : Draft) (lock : Lock) (count : Nat) : Draft :=
  let held := draft.holdings.count lock
  (draft.acquire lock (count - held)).release lock (held - count)

/-- A loop of single acquisitions. -/
def acquireEach (draft : Draft) (lock : Lock) : Nat → Draft
  | 0 => draft
  | times + 1 => (draft.acquire lock 1).acquireEach lock times

/-- A loop of single releases. -/
def releaseEach (draft : Draft) (lock : Lock) : Nat → Draft
  | 0 => draft
  | times + 1 => (draft.release lock 1).releaseEach lock times

/-- Bring the count of a lock to a value by two loops, one that acquires it up to the value
    and one that releases it down to the value. `assign` does at once what these loops do
    turn by turn, which may be as many turns as the largest counter. -/
def assignEach (draft : Draft) (lock : Lock) (count : Nat) : Draft :=
  let held := draft.holdings.count lock
  (draft.acquireEach lock (count - held)).releaseEach lock (held - count)

/-- Give a lock the count that it has in the state to return to. Nothing happens if no
    call is open. -/
def restore (draft : Draft) (lock : Lock) : Draft :=
  match draft.saved with
  | [] => draft
  | caller :: _ =>
    { draft with
      holdings := draft.holdings.assign lock (caller.holdings.count lock)
      restored := true }

/-! ## Changes of all locks -/

/-- Take the holdings of the state to return to, without returning. Nothing happens if no
    call is open. -/
def restoreAll (draft : Draft) : Draft :=
  match draft.saved with
  | [] => draft
  | caller :: _ => { draft with holdings := caller.holdings }

/-- Forget every lock. -/
def forgetAll (draft : Draft) : Draft := { draft with holdings := .empty }

/-- Have the successor return to the state that the work started from. -/
def save (draft : Draft) : Draft := { draft with saved := draft.origin.chain }

/-- Mark the path as infeasible. -/
def abort (draft : Draft) : Draft := { draft with status := .infeasible }

/-! ## Changes at the ends of a block summary -/

/-- Have the successor return to nothing. -/
def detach (draft : Draft) : Draft := { draft with saved := [] }

/-- Forget the locks of a set. -/
def drop (draft : Draft) (locks : LockSet) : Draft :=
  { draft with holdings := draft.holdings.eraseAll locks }

/-- Bring every held lock outside a set to the count one, by forgetting it and acquiring
    it again. -/
def flatten (draft : Draft) (kept : LockSet) : Draft :=
  (draft.holdings.locks.diff kept).elements.foldl
    (fun flattened lock => (flattened.forget lock).acquire lock 1) draft

/-- Have the successor return to what another state returns to. -/
def attach (draft : Draft) (root : State) : Draft := { draft with saved := root.saved }

/-- Take the counts of another state for the locks that it holds outside a set. -/
def reinstate (draft : Draft) (root : State) (used : LockSet) : Draft :=
  { draft with
    holdings := (root.holdings.entries.filter fun entry => entry.1 ∉ used).foldl
      (fun holdings entry => holdings.insert entry.1 entry.2) draft.holdings }

/-- Add the counts of another state, less one, for the locks that it holds outside a set.
    The one is the acquisition that `flatten` leaves. -/
def reapply (draft : Draft) (root : State) (used : LockSet) : Draft :=
  { draft with
    holdings := (root.holdings.entries.filter fun entry => entry.1 ∉ used).foldl
      (fun holdings entry =>
        holdings.assign entry.1 (holdings.count entry.1 + entry.2 - 1)) draft.holdings }

end Draft

end HeldLocks
