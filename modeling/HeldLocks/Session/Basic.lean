import HeldLocks.State

/-!
# Sessions

A session is a record of the states that have been made, in the order in which they were
made. A state stands at the place that is its number, so a number finds its state again,
and the length of the record is the number of the next new state.
-/

namespace HeldLocks

/-- The states made so far. -/
structure Session where
  /-- The states in the order in which they were made. -/
  states : List State

namespace Session

/-- The session in which only the state without locks has been made. -/
def start : Session := ⟨[.empty 0]⟩

/-- The number of the next new state. -/
def fresh (session : Session) : Nat := session.states.length

/-- The state with a number. -/
def find? (session : Session) : Int → Option State
  | .ofNat serial => session.states[serial]?
  | .negSucc _ => none

/-- Record a state. A state that is not new is recorded already. -/
def record (session : Session) (state : State) : Session :=
  if state.serial = session.fresh then ⟨session.states ++ [state]⟩ else session

/-- Record the outcomes of some work in order. -/
def recordAll (session : Session) (outcomes : List (Option State)) : Session :=
  (outcomes.filterMap id).foldl record session

/-- All states, those that come first in their order first. States that compare alike stay
    in the order in which they were made. -/
def sorted (session : Session) : List State :=
  session.states.mergeSort fun left right => !right.holdings.precedes left.holdings

/-- Only new states make the record longer, and by one place. -/
theorem record_of_new (session : Session) (state : State) (new : state.serial = session.fresh) :
    session.record state = ⟨session.states ++ [state]⟩ :=
  if_pos new

/-- A state whose number is in use is not recorded again. -/
theorem record_of_old (session : Session) (state : State) (old : state.serial < session.fresh) :
    session.record state = session :=
  if_neg (Nat.ne_of_lt old)

end Session

end HeldLocks
