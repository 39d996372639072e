import HeldLocks.LockSet

/-!
# Holdings

The locks held on a path of a program, each with its count: how many times it has been
acquired without a matching release. A lock that is not held has the count zero and no
entry.

Entries stand in the order of their locks. Nothing in the type enforces this, nor that
counts are positive; `Holdings.Canonical` is the predicate, and the operations keep it
(`HeldLocks.Holdings.Lemmas`). What an operation does to the counts holds of any list of
entries, so those laws carry no premise.
-/

namespace HeldLocks

/-- The held locks with their counts. -/
structure Holdings where
  /-- One entry for each held lock. -/
  entries : List (Lock × Nat)
deriving DecidableEq, Hashable

namespace Holdings

/-- The count of a lock in a list of entries, zero if no entry names it. -/
def countIn (lock : Lock) : List (Lock × Nat) → Nat
  | [] => 0
  | (held, count) :: rest => if held = lock then count else countIn lock rest

/-- Give a lock a count, in front of the first larger lock or in place of its entry. -/
def insertInto (lock : Lock) (count : Nat) : List (Lock × Nat) → List (Lock × Nat)
  | [] => [(lock, count)]
  | (held, old) :: rest =>
    match compare lock held with
    | .lt => (lock, count) :: (held, old) :: rest
    | .eq => (lock, count) :: rest
    | .gt => (held, old) :: insertInto lock count rest

/-- No lock is held. -/
def empty : Holdings := ⟨[]⟩

/-- How many times a lock is held. -/
def count (holdings : Holdings) (lock : Lock) : Nat := countIn lock holdings.entries

/-- A lock is held if it has an entry. -/
instance : Membership Lock Holdings where
  mem holdings lock := lock ∈ holdings.entries.map Prod.fst

/-- Whether a lock is held is decided by a search through the locks. -/
instance (lock : Lock) (holdings : Holdings) : Decidable (lock ∈ holdings) :=
  inferInstanceAs (Decidable (lock ∈ holdings.entries.map Prod.fst))

/-- The held locks. -/
def locks (holdings : Holdings) : LockSet := ⟨holdings.entries.map Prod.fst⟩

/-- The number of held locks. -/
def size (holdings : Holdings) : Nat := holdings.entries.length

/-- The sum of the counts of all held locks. -/
def total (holdings : Holdings) : Nat := holdings.entries.foldl (fun sum entry => sum + entry.2) 0

/-- Whether no lock is held. -/
def isEmpty (holdings : Holdings) : Bool := holdings.entries.isEmpty

/-- Set the count of a lock, which becomes held if it was not. -/
def insert (holdings : Holdings) (lock : Lock) (count : Nat) : Holdings :=
  ⟨insertInto lock count holdings.entries⟩

/-- Forget a lock whatever its count. -/
def erase (holdings : Holdings) (lock : Lock) : Holdings :=
  ⟨holdings.entries.filter fun entry => entry.1 ≠ lock⟩

/-- Set the count of a lock, forgetting it if the count is zero. -/
def assign (holdings : Holdings) (lock : Lock) (count : Nat) : Holdings :=
  if count = 0 then holdings.erase lock else holdings.insert lock count

/-- Take a lock a number of times more. -/
def acquire (holdings : Holdings) (lock : Lock) (times : Nat) : Holdings :=
  holdings.assign lock (holdings.count lock + times)

/-- Give a lock back a number of times, or as often as it is held if that is less. -/
def release (holdings : Holdings) (lock : Lock) (times : Nat) : Holdings :=
  holdings.assign lock (holdings.count lock - times)

/-- Forget every lock of a set. -/
def eraseAll (holdings : Holdings) (locks : LockSet) : Holdings :=
  locks.elements.foldl erase holdings

/-- An entry as it is shown: the lock, then its count in brackets. -/
def entryText (entry : Lock × Nat) : String :=
  entry.1.text ++ "[" ++ toString entry.2 ++ "]"

/-- The entries in order, separated by commas, or a phrase if there are none. -/
def text (holdings : Holdings) : String :=
  if holdings.isEmpty then "Without locks"
  else ", ".intercalate (holdings.entries.map entryText)

/-- Strictly ascending locks with positive counts: the one form of each assignment of
    counts to locks. -/
structure Canonical (holdings : Holdings) : Prop where
  /-- The locks ascend strictly, so none is listed twice. -/
  ascending : holdings.entries.Pairwise fun earlier later => earlier.1 < later.1
  /-- Every listed lock is held at least once. -/
  positive : ∀ entry ∈ holdings.entries, 0 < entry.2

end Holdings

end HeldLocks
