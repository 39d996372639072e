import HeldLocks.Proofs.Differences
import Mathlib.Data.List.TFAE

/-!
# Ways of holding the same

There are several ways to ask whether two states hold the same: count every lock, look at the
entries, compare, take a difference. They go through the entries quite differently. Counting
looks a lock up and takes zero where it finds nothing, a comparison walks both lists side by side,
and a difference makes one pass over each. On arbitrary lists of entries they disagree: an entry
with the count zero is seen by some of them and not by others.

Holdings in a session are canonical, and then all of them come to the same
(`Session.holding_same_told_alike`). What carries this is `Holdings.difference_eq_nil_iff`: between
canonical holdings there is nothing to do exactly if they are equal.
-/

namespace HeldLocks

namespace Holdings

/-- A lock that has the count wanted takes nothing to get there. -/
theorem steps_self (lock : Lock) (count : Nat) : steps lock count count = [] := by
  simp only [steps, Nat.sub_self, List.replicate_zero, List.append_nil]

/-- Nothing leads from holdings to themselves: the first pass finds every count as wanted, and the
second no lock that is missing. -/
theorem Canonical.difference_self {holdings : Holdings} (canonical : holdings.Canonical) :
    holdings.difference holdings = [] := by
  rw [difference, List.append_eq_nil_iff, List.flatMap_eq_nil_iff, List.flatMap_eq_nil_iff]
  constructor
  · intro entry listed
    rw [canonical.count_of_mem listed, steps_self]
  · intro entry missing
    obtain ⟨listed, absent⟩ := List.mem_filter.mp missing
    exact absurd (List.mem_map_of_mem listed) (of_decide_eq_true absent)

/-- Nothing leads from canonical holdings to others exactly if they are the same. -/
theorem difference_eq_nil_iff {held wanted : Holdings} (heldCanonical : held.Canonical)
    (wantedCanonical : wanted.Canonical) : held.difference wanted = [] ↔ held = wanted := by
  constructor
  · intro nothing
    apply heldCanonical.ext wantedCanonical
    intro lock
    -- Nothing brings the lock from its count to the count wanted.
    have brings := Effect.brings_difference heldCanonical wantedCanonical lock
    rw [nothing] at brings
    exact brings.tally_eq
  · rintro rfl
    exact heldCanonical.difference_self

/-- Canonical holdings are the same exactly if they count every lock alike. -/
theorem eq_iff_count_eq {left right : Holdings} (leftCanonical : left.Canonical)
    (rightCanonical : right.Canonical) :
    left = right ↔ ∀ lock, left.count lock = right.count lock := by
  constructor
  · rintro rfl lock
    rfl
  · exact leftCanonical.ext rightCanonical

end Holdings

/-- What it can mean that two states hold the same: they count every lock alike, a summary is
looked up by the same key for both, they compare as zero, and there is nothing to do to get from
what one holds to what the other does, in either direction. -/
def State.waysToHoldSame (left right : State) : List Prop :=
  [∀ lock, left.holdings.count lock = right.holdings.count lock,
    Reduction.key left = Reduction.key right,
    left.holdings.compareInt right.holdings = 0,
    left.holdings.difference right.holdings = [],
    right.holdings.difference left.holdings = []]

namespace Session

/-- In every session all ways of holding the same are equivalent. And two states are the same
exactly if, in any one of these ways, they hold the same and they return to the same.

Proof: holdings in a session are canonical, so each way says that they are equal; and the levels
of a state are its own holdings on top of those of what it returns to. -/
theorem holding_same_told_alike {session : Session} (reachable : session.Reachable)
    {left right : State} (leftMade : left ∈ session.states) (rightMade : right ∈ session.states) :
    (left.waysToHoldSame right).TFAE ∧
      ∀ way ∈ left.waysToHoldSame right,
        (left.same right = true ↔ way ∧ left.sameSaved right = true) := by
  have wellFormed := reachable.wellFormed
  have leftCanonical := wellFormed.canonical left leftMade
  have rightCanonical := wellFormed.canonical right rightMade
  have meansEqual : ∀ way ∈ left.waysToHoldSame right, (way ↔ left.holdings = right.holdings) := by
    simp only [State.waysToHoldSame, List.forall_mem_cons]
    refine ⟨?_, Iff.rfl, ?_, ?_, ?_, List.forall_mem_nil _⟩
    · exact (Holdings.eq_iff_count_eq leftCanonical rightCanonical).symm
    · exact Holdings.compareInt_eq_zero_iff _ _
    · exact Holdings.difference_eq_nil_iff leftCanonical rightCanonical
    · rw [Holdings.difference_eq_nil_iff rightCanonical leftCanonical]
      exact eq_comm
  refine ⟨List.tfae_of_forall _ _ meansEqual, ?_⟩
  intro way listed
  rw [meansEqual way listed, wellFormed.same_iff leftMade rightMade,
    wellFormed.sameSaved_iff leftMade rightMade, State.levels_def, State.levels_def,
    List.cons.injEq]

/-- A call is opened and undone again lock by lock: the state in it holds what its caller does, over
two locks that were acquired in the other order. Both differences are empty, and the two are not
the same, since only one of them is in a call. -/
theorem holding_same_across_call :
    ∃ caller inside : State,
      caller.holdings.entries = [(.ofName "a", 1), (.ofName "b", 2)] ∧
      inside.saved = [caller.toSnapshot] ∧
      inside.holdings.difference caller.holdings = [] ∧
      caller.holdings.difference inside.holdings = [] ∧
      inside.holdings.compareInt caller.holdings = 0 ∧
      ¬ inside.same caller = true := by
  obtain ⟨session, reachable, callerMade, insideMade⟩ : ∃ session : Session,
      session.Reachable ∧
        ⟨⟨1, ⟨[(.ofName "a", 1), (.ofName "b", 2)]⟩⟩, []⟩ ∈ session.states ∧
        ⟨⟨2, ⟨[(.ofName "a", 1), (.ofName "b", 2)]⟩⟩,
          [⟨1, ⟨[(.ofName "a", 1), (.ofName "b", 2)]⟩⟩]⟩ ∈ session.states :=
    ⟨(start.run [.effects 0 [.acquire (.ofName "a") 0, .assign (.ofName "b") 2],
      .effects 1 [.save, .forgetAll, .assign (.ofName "b") 2, .acquire (.ofName "a") 0]]).2,
      ⟨_, rfl⟩, List.mem_of_getElem? (i := 1) rfl, List.mem_of_getElem? (i := 2) rfl⟩
  obtain ⟨alike, same⟩ := holding_same_told_alike reachable insideMade callerMade
  have counts : ∀ lock, Holdings.count ⟨[(.ofName "a", 1), (.ofName "b", 2)]⟩ lock =
      Holdings.count ⟨[(.ofName "a", 1), (.ofName "b", 2)]⟩ lock := fun _ => rfl
  refine ⟨_, _, rfl, rfl, (alike.out 0 3).mp counts, (alike.out 0 4).mp counts,
    (alike.out 0 2).mp counts, ?_⟩
  rw [same _ List.mem_cons_self]
  rintro ⟨_, sameSaved⟩
  exact absurd sameSaved (by decide)

end Session

end HeldLocks
