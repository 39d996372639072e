import HeldLocks.Effect.Basic
import HeldLocks.Reduction
import HeldLocks.Trace.Parser

/-!
# Commands and answers

What can be asked of a session, and what comes back. A command names states by their
numbers; an answer holds the states themselves.
-/

namespace HeldLocks

/-- What is done to a draft in the course of a command. -/
inductive Action where
  /-- An edit, whose root is named by its number. -/
  | edit (edit : Edit Int)
  /-- An effect. -/
  | effect (effect : Effect)
  /-- Ask for the count of a lock. -/
  | count (lock : Lock)
  /-- Build the draft. -/
  | build

/-- What is asked of a session. -/
inductive Command where
  /-- Make another state without locks. -/
  | empty
  /-- Work on the successor of a state, action by action. -/
  | draft (origin : Int) (actions : List Action)
  /-- Make the successor of a state under a batch of effects. -/
  | effects (origin : Int) (effects : List Effect)
  /-- Replay a trace from a state. -/
  | trace (origin : Int) (text : String) (bound : Int)
  /-- Reduce a caller's state for a block. -/
  | reduce (caller : Int) (block : LockSet) (reduction : Reduction)
  /-- Expand the state after a block. -/
  | expand (caller : Int) (block : LockSet) (final : Int) (reduction : Reduction)
  /-- Find the difference of two states and replay it from the first. -/
  | difference (source target : Int)
  /-- Compare two states. -/
  | compare (left right : Int)
  /-- Ask for the counts of locks. -/
  | query (state : Int) (locks : List Lock)
  /-- Ask for all there is to know about a state. -/
  | describe (state : Int)
  /-- List all states in their order. -/
  | sort

/-- What an action comes to. -/
inductive Report where
  /-- A change of the draft, with the number of acquisitions and releases it took. -/
  | changed (draft : Draft) (acquired released : Nat)
  /-- A count. -/
  | counted (count : Nat)
  /-- The outcome of building the draft, with the draft as it is left behind. -/
  | built (outcome : Option State) (draft : Draft)

/-- How two states compare. -/
structure Comparison where
  /-- The comparison of their holdings as an integer. -/
  order : Int
  /-- Whether the first comes strictly before the second. -/
  precedes : Bool
  /-- Whether they hold and return to the same. -/
  same : Bool
  /-- Whether they return to the same. -/
  sameSaved : Bool
  /-- Whether their hashes are equal. Nothing is said of states with different holdings. -/
  sameHash : Option Bool

/-- What a command is answered with. -/
inductive Answer where
  /-- A state. -/
  | state (state : State)
  /-- What the actions on a draft came to, and the misuse that ended them, if one did. -/
  | reports (reports : List Report) (misuse : Option Misuse)
  /-- Effects and the successor that they lead to. -/
  | successor (effects : List Effect) (outcome : Option State)
  /-- The steps of a trace and the outcomes of those that were taken. -/
  | replay (steps : List Trace.Step) (outcomes : List (Option State))
  /-- A text that is no trace. -/
  | unreadable (error : Trace.ParseError)
  /-- A reduced or expanded state with its key. -/
  | reduction (state : State) (key : Holdings) (reduction : Reduction)
  /-- A difference, the state that it leads to, and whether that is the target. -/
  | difference (effects : List Effect) (replayed : Option State) (reached : Bool)
  /-- A comparison of two states. -/
  | comparison (comparison : Comparison)
  /-- The counts of locks, each with whether the lock is held. -/
  | counts (counts : List (Nat × Bool))
  /-- All there is to know about a state. -/
  | description (state : State)
  /-- The numbers of states. -/
  | numbers (serials : List Nat)
  /-- A number that is not in use. -/
  | noSuchState
  /-- A misuse of a draft. -/
  | misuse (misuse : Misuse)

namespace Action

/-- Whether an action builds the draft. -/
def builds : Action → Bool
  | build => true
  | _ => false

/-- The actions of a command, which end by building the draft if they do not build it at
    some earlier point. -/
def complete (actions : List Action) : List Action :=
  if actions.any builds then actions else actions ++ [build]

end Action

/-- Whether an answer ends the session. A misuse does. -/
def Answer.isLast : Answer → Bool
  | misuse _ => true
  | reports _ (some _) => true
  | _ => false

/-- How two states compare. -/
def State.comparison (left right : State) : Comparison where
  order := left.holdings.compareInt right.holdings
  precedes := left.holdings.precedes right.holdings
  same := left.same right
  sameSaved := left.sameSaved right
  sameHash := if left.holdings = right.holdings then some (hash left == hash right) else none

end HeldLocks
