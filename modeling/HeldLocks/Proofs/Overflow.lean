import HeldLocks.Proofs.CounterReplays

/-!
# Texts that leave the range of counters

The replay of a text from the state without locks starts in range, and what a text assigns can be
written, so it is in range too. No release and no assignment ever leaves it: a lock that is not
held is not released, and an assignment stops at a counter. Nor does an acquisition with a positive
bound, for it stops at the bound. But an acquisition without one has no such guard, and a lock may
be assigned the largest counter. So a text may lead out of the range, and this is the only way
(`Trace.counters_leave_range_iff`).
-/

namespace HeldLocks

namespace Trace

/-- When a replay leaves the range of its counters. Let a text be read, with whatever bound, and
replayed from the state without locks, once with counts of any size and once on counters of 32
bits.

* The replay on counters leaves the range exactly if some acquisition that is reached, and that no
  positive bound in range stops, meets its lock at the largest counter.
* Otherwise it has the same outcomes, and in each of them, at every level, the holdings are
  canonical and all counts are in range.
* With a positive bound in range this does not happen.

Proof: by induction on the steps and, within a step, on its effects, with all that the draft has or
can take up in range. From there an acquisition is the only effect that computes a larger counter
than what can be written. -/
theorem counters_leave_range_iff {bound : Int} {text : String} {steps : List Step}
    (read : parse bound text = .ok steps) (serial fresh : Nat) :
    ∃ outcomes, replay fresh (.empty serial) steps = .ok outcomes ∧
      (replayOnWords? fresh (.empty serial) steps = none ↔
        Overflows fresh (.empty serial) steps) ∧
      (¬ Overflows fresh (.empty serial) steps →
        replayOnWords? fresh (.empty serial) steps = some outcomes ∧
        ∀ state, some state ∈ outcomes → ∀ snapshot ∈ state.chain,
          snapshot.holdings.Canonical ∧ ∀ lock, snapshot.holdings.count lock ≤ maxCounter) ∧
      (0 < bound → bound ≤ maxCounter → ¬ Overflows fresh (.empty serial) steps) := by
  obtain ⟨outcomes, ran⟩ := replay_of_valid fresh (.empty serial) (valid_of_parse read)
  obtain ⟨leaves, stays⟩ := replayOnWords?_eq (State.fits_empty serial) (fits_of_parse read) ran
  refine ⟨outcomes, ran, ⟨?_, leaves⟩, ?_, fun positive inRange =>
    not_overflows_of_bounded positive inRange read fresh _⟩
  · intro left
    apply Classical.byContradiction
    intro fitting
    rw [(stays fitting).1] at left
    cases left
  · intro fitting
    obtain ⟨same, allFit⟩ := stays fitting
    refine ⟨same, fun state reached snapshot member => ?_⟩
    obtain ⟨canonical, within⟩ := allFit state reached
    exact ⟨canonical snapshot member, (within snapshot member).count_le⟩

/-- With a bound, a lock that was assigned the largest counter is not acquired any more. -/
theorem bounded_acquisition_at_largest_counter :
    ∃ outcomes, replay 1 (.empty 0)
        [⟨3, [.assign (.ofName "a") 2147483647, .acquire (.ofName "a") 2]⟩] = .ok outcomes ∧
      replayOnWords? 1 (.empty 0)
        [⟨3, [.assign (.ofName "a") 2147483647, .acquire (.ofName "a") 2]⟩] = some outcomes := by
  have read : parse 2 "set a 2147483647\nacquire a\ncommit" =
      .ok [⟨3, [.assign (.ofName "a") 2147483647, .acquire (.ofName "a") 2]⟩] := rfl
  obtain ⟨outcomes, ran, _, stays, bounded⟩ := counters_leave_range_iff read 0 1
  exact ⟨outcomes, ran, (stays (bounded (by decide) (by decide))).1⟩

/-- Not every text is replayed within the range of counters. Without a bound, the largest counter
can be assigned and the lock acquired once more. -/
theorem unbounded_acquisition_leaves_range :
    ¬ ∀ (bound : Int) (text : String) (steps : List Step), 0 ≤ bound → bound ≤ maxCounter →
      parse bound text = .ok steps →
        ∃ outcomes, replayOnWords? 1 (.empty 0) steps = some outcomes := by
  intro always
  have read : parse 0 "set a 2147483647\nacquire a\ncommit" =
      .ok [⟨3, [.assign (.ofName "a") 2147483647, .acquire (.ofName "a") 0]⟩] := rfl
  obtain ⟨outcomes, stayed⟩ := always 0 _ _ (Int.le_refl 0) (by decide) read
  obtain ⟨_, ran⟩ := replay_of_valid 1 (.empty 0) (valid_of_parse read)
  have assigned : ((Draft.ofState (.empty 0)).meetAll
      [.assign (.ofName "a") 2147483647]).holdings.count (.ofName "a") = maxCounter := by
    simp [Draft.meetAll, Draft.meet, Effect.edit?, Draft.change, Draft.count_assign, maxCounter]
  have overflows : (Draft.ofState (.empty 0)).Overflows
      [.assign (.ofName "a") 2147483647, .acquire (.ofName "a") 0] :=
    ⟨[.assign (.ofName "a") 2147483647], .acquire (.ofName "a") 0, [], rfl, assigned, by decide⟩
  have left := (replayOnWords?_eq (State.fits_empty 0) (fits_of_parse read) ran).1
    ⟨[], _, [], [], .empty 0, rfl, rfl, rfl, overflows⟩
  cases left.symm.trans stayed

end Trace

end HeldLocks
