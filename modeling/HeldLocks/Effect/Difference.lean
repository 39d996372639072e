import HeldLocks.Effect.Basic

/-!
# Differences

The difference of two holdings is a batch of acquisitions and releases that leads from the
first to the second. The locks of the first holdings come first, in their order, and then
those that only the second has; all effects on one lock stand together and are of one
kind, as many as its counts differ by.
-/

namespace HeldLocks.Holdings

/-- What brings a lock from one count to another. At most one of the two differences is
    positive. -/
def steps (lock : Lock) (held wanted : Nat) : List Effect :=
  List.replicate (held - wanted) (.release lock) ++
    List.replicate (wanted - held) (.acquire lock 0)

/-- The effects that lead from some holdings to others. -/
def difference (held wanted : Holdings) : List Effect :=
  held.entries.flatMap (fun entry => steps entry.1 entry.2 (wanted.count entry.1)) ++
    (wanted.entries.filter fun entry => entry.1 ∉ held).flatMap
      (fun entry => steps entry.1 0 entry.2)

end HeldLocks.Holdings
