import HeldLocks.Holdings.Order

/-!
# States

A state is what is known at one point of a path: the holdings there, and the states to
which the enclosing calls return, the innermost first. States never change. Each gets a
serial number when it is made, so that two states with one number are one state, while
states made apart may still agree in all they hold.

`State.same` is that agreement: equal holdings at every level of the two chains. It stops
at the first number that both chains share, since from there on they are one chain.
-/

namespace HeldLocks

/-- A numbered record of holdings: a state without what it returns to. -/
structure Snapshot where
  /-- The place in the order in which states were made. -/
  serial : Nat
  /-- The locks held there. -/
  holdings : Holdings
deriving DecidableEq

/-- A state of a path. -/
structure State extends Snapshot where
  /-- The states to return to, the innermost first. -/
  saved : List Snapshot
deriving DecidableEq

/-- Whether two chains of snapshots agree. One number is one snapshot with one chain below
    it, so a shared number settles the rest. -/
def sameChain : List Snapshot → List Snapshot → Bool
  | [], [] => true
  | left :: lefts, right :: rights =>
    left.serial == right.serial ||
      (left.holdings == right.holdings && sameChain lefts rights)
  | _, _ => false

namespace State

/-- The state in which no lock is held and no call is open. -/
def empty (serial : Nat) : State := ⟨⟨serial, .empty⟩, []⟩

/-- The chain of a state: the state itself, then those it returns to. -/
def chain (state : State) : List Snapshot := state.toSnapshot :: state.saved

/-- The state on top of a chain, if there is one. -/
def ofChain? : List Snapshot → Option State
  | [] => none
  | top :: below => some ⟨top, below⟩

/-- The state that the innermost open call returns to. -/
def restore? (state : State) : Option State := ofChain? state.saved

/-- The holdings along the chain, the state's own first. -/
def levels (state : State) : List Holdings := state.chain.map Snapshot.holdings

/-- Whether two states hold the same and return to the same, level by level. -/
def same (left right : State) : Bool := sameChain left.chain right.chain

/-- Whether two states return to the same. -/
def sameSaved (left right : State) : Bool := sameChain left.saved right.saved

/-- Whether two names stand for one state. -/
def identical (left right : State) : Bool := left.serial == right.serial

/-- The hash of a state is that of its holdings. What it returns to does not take part. -/
instance : Hashable State where
  hash state := hash state.holdings

/-- The holdings, without what the state returns to. -/
def text (state : State) : String := state.holdings.text

/-- Every chain with a top is the chain of a state. -/
theorem ofChain?_chain (state : State) : ofChain? state.chain = some state := rfl

/-- A state has no caller exactly if it returns to nothing. -/
theorem restore?_eq_none_iff (state : State) : state.restore? = none ↔ state.saved = [] := by
  unfold restore?
  cases state.saved <;> simp [ofChain?]

end State

/-- A chain agrees with itself. -/
theorem sameChain_self (chain : List Snapshot) : sameChain chain chain = true := by
  cases chain with
  | nil => rfl
  | cons top below => simp only [sameChain, beq_self_eq_true, Bool.true_or]

end HeldLocks
