import HeldLocks.Trace.Basic

/-!
# Replaying traces

The steps of a trace lead from a state to its successor, from there to the next, and so
on, until the trace ends or a step rules the path out. New states get ascending numbers.
-/

namespace HeldLocks

/-- The first number that is free once a state with this number has been made. -/
def State.nextFresh (state : State) (fresh : Nat) : Nat := max fresh (state.serial + 1)

namespace Trace

/-- The outcome of every step, in order. Where a step rules the path out there is no state,
    and no further step is taken. -/
def replay (fresh : Nat) (start : State) : List Step → Except Misuse (List (Option State))
  | [] => .ok []
  | step :: rest =>
    match start.after fresh step.effects with
    | .error misuse => .error misuse
    | .ok none => .ok [none]
    | .ok (some next) => (replay (next.nextFresh fresh) next rest).map (some next :: ·)

/-- The first step of a replay that is not refused rules the path out, and that is all, or leads to
    a state from which the rest is replayed. -/
theorem replay_cons_cases {fresh : Nat} {start : State} {step : Step} {rest : List Step}
    {outcomes : List (Option State)} (ran : replay fresh start (step :: rest) = .ok outcomes) :
    start.after fresh step.effects = .ok none ∧ outcomes = [none] ∨
      ∃ next later, start.after fresh step.effects = .ok (some next) ∧
        replay (next.nextFresh fresh) next rest = .ok later ∧ outcomes = some next :: later := by
  rw [replay] at ran
  split at ran
  next => cases ran
  next stepped => exact Or.inl ⟨stepped, (Except.ok.inj ran).symm⟩
  next next stepped =>
    cases others : replay (next.nextFresh fresh) next rest with
    | error misuse => simp [others, Except.map] at ran
    | ok later =>
      rw [others] at ran
      exact Or.inr ⟨next, later, stepped, others, (Except.ok.inj ran).symm⟩

end Trace

end HeldLocks
