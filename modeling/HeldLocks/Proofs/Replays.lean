import HeldLocks.Proofs.Sessions

/-!
# Replays in parts

The replay of two traces one after the other is the replay of the first, followed, if a
state came out of it, by the replay of the second from that state (`Trace.replay_append`).
`Trace.exit?` is the state that comes out and `Trace.freshAfter` the number that the second
replay starts with. In a session these are a recorded state and the number of the next new
one, so that a feasible replay can be taken apart anywhere and what sessions keep is known
at every joint: `Session.WellFormed.replay_cons` and `Session.WellFormed.replay_append`.
-/

namespace HeldLocks

namespace Trace

/-- The state that a replay ends in: the last outcome or, if no step was taken, the state
that it started from. There is none if a step ruled the path out. -/
def exit? (start : State) (outcomes : List (Option State)) : Option State :=
  outcomes.getLast?.getD (some start)

/-- The first number that is free after a replay. -/
def freshAfter (fresh : Nat) (outcomes : List (Option State)) : Nat :=
  (outcomes.filterMap id).foldl (fun fresh state => state.nextFresh fresh) fresh

/-- A replay whose first step has a successor ends where the rest, from there, ends. -/
theorem exit?_cons (start next : State) (outcomes : List (Option State)) :
    exit? start (some next :: outcomes) = exit? next outcomes := by
  simp [exit?, List.getLast?_cons]

/-- The second of two replays in a row ends where both do. -/
theorem exit?_append (start middle : State) (earlier later : List (Option State))
    (ends : exit? start earlier = some middle) :
    exit? start (earlier ++ later) = exit? middle later := by
  simp only [exit?] at ends ⊢
  rw [List.getLast?_append, Option.getD_or, ends]

/-- The state that a replay with some step ends in is the last of its outcomes. -/
theorem eq_append_of_exit? (start last : State) (outcomes : List (Option State))
    (nonempty : outcomes ≠ []) (ends : exit? start outcomes = some last) :
    ∃ earlier, outcomes = earlier ++ [some last] := by
  rw [exit?, List.getLast?_eq_some_getLast nonempty, Option.getD_some] at ends
  refine ⟨outcomes.dropLast, ?_⟩
  rw [← ends, List.dropLast_concat_getLast nonempty]

/-- A replay ends in a state that it has led to, or where it started. -/
theorem eq_or_mem_of_exit? {start last : State} {outcomes : List (Option State)}
    (ends : exit? start outcomes = some last) : last = start ∨ some last ∈ outcomes := by
  by_cases nothing : outcomes = []
  · subst nothing
    exact Or.inl (Option.some.inj ends).symm
  · obtain ⟨earlier, rfl⟩ := eq_append_of_exit? start last outcomes nothing ends
    exact Or.inr (List.mem_append_right earlier List.mem_cons_self)

/-- A replay that ends in no state has come to a step that rules the path out. -/
theorem getLast?_of_exit? {start : State} {outcomes : List (Option State)}
    (ends : exit? start outcomes = none) : outcomes.getLast? = some none := by
  rw [exit?] at ends
  cases last : outcomes.getLast? with
  | none => simp [last] at ends
  | some outcome =>
    rw [last, Option.getD_some] at ends
    rw [ends]

/-- The first number that is free after a replay is counted on from its first step. -/
theorem freshAfter_cons (fresh : Nat) (next : State) (outcomes : List (Option State)) :
    freshAfter fresh (some next :: outcomes) = freshAfter (next.nextFresh fresh) outcomes := rfl

/-- Where no step rules the path out, a state comes out. -/
theorem exit?_of_feasible (start : State) (outcomes : List (Option State))
    (feasible : none ∉ outcomes) : ∃ last, exit? start outcomes = some last := by
  induction outcomes generalizing start with
  | nil => exact ⟨start, rfl⟩
  | cons outcome rest inductionHypothesis =>
    obtain ⟨here, later⟩ := List.ne_and_not_mem_of_not_mem_cons feasible
    cases outcome with
    | none => exact absurd rfl here
    | some next =>
      rw [exit?_cons]
      exact inductionHypothesis next later

/-- A trace of valid effects is never refused. -/
theorem replay_of_valid (fresh : Nat) (start : State) {steps : List Step}
    (valid : ∀ step ∈ steps, ∀ effect ∈ step.effects, effect.Valid) :
    ∃ outcomes, replay fresh start steps = .ok outcomes := by
  induction steps generalizing fresh start with
  | nil => exact ⟨[], rfl⟩
  | cons step rest inductionHypothesis =>
    obtain ⟨first, others⟩ := List.forall_mem_cons.mp valid
    rw [replay, start.after_of_valid fresh step.effects first]
    cases ((Draft.ofState start).meetAll step.effects).outcome fresh with
    | none => exact ⟨[none], rfl⟩
    | some next =>
      obtain ⟨later, ran⟩ := inductionHypothesis (next.nextFresh fresh) next others
      exact ⟨some next :: later, by simp only [ran, Except.map]⟩

/-- A replay of two traces in a row is two replays, unless the first rules the path out. -/
theorem replay_append (fresh : Nat) (start : State) (first second : List Step) :
    replay fresh start (first ++ second) =
      match replay fresh start first with
      | .error misuse => .error misuse
      | .ok outcomes =>
        match exit? start outcomes with
        | none => .ok outcomes
        | some last =>
          (replay (freshAfter fresh outcomes) last second).map (outcomes ++ ·) := by
  induction first generalizing fresh start with
  | nil =>
    cases others : replay fresh start second <;>
      simp [replay, exit?, freshAfter, others, Except.map]
  | cons step rest inductionHypothesis =>
    rw [List.cons_append, replay, replay]
    cases ran : start.after fresh step.effects with
    | error misuse => rfl
    | ok outcome =>
      cases outcome with
      | none => rfl
      | some next =>
        simp only [inductionHypothesis]
        cases others : replay (next.nextFresh fresh) next rest with
        | error misuse => rfl
        | ok outcomes =>
          simp only [Except.map, exit?_cons]
          cases exit? next outcomes with
          | none => rfl
          | some last =>
            simp only [freshAfter_cons]
            cases replay _ last second <;> rfl

/-- The first step of a feasible replay, and the replay that remains. -/
theorem replay_cons (fresh : Nat) (start last : State) (step : Step) (rest : List Step)
    (outcomes : List (Option State)) (ran : replay fresh start (step :: rest) = .ok outcomes)
    (ends : exit? start outcomes = some last) :
    ∃ next later, start.after fresh step.effects = .ok (some next) ∧
      replay (next.nextFresh fresh) next rest = .ok later ∧
      outcomes = some next :: later ∧ exit? next later = some last := by
  rcases replay_cons_cases ran with ⟨_, rfl⟩ | ⟨next, later, stepped, others, rfl⟩
  · cases ends
  · rw [exit?_cons] at ends
    exact ⟨next, later, stepped, others, rfl, ends⟩

/-- A replay with an exit takes every step, and none of them rules the path out. -/
theorem feasible_of_exit? {fresh : Nat} {start last : State} {steps : List Step}
    {outcomes : List (Option State)} (ran : replay fresh start steps = .ok outcomes)
    (ends : exit? start outcomes = some last) :
    none ∉ outcomes ∧ outcomes.length = steps.length := by
  induction steps generalizing fresh start outcomes with
  | nil =>
    obtain rfl := Except.ok.inj ran
    exact ⟨List.not_mem_nil, rfl⟩
  | cons step rest inductionHypothesis =>
    obtain ⟨next, later, -, nextRan, rfl, nextEnds⟩ :=
      replay_cons fresh start last step rest outcomes ran ends
    obtain ⟨feasible, length⟩ := inductionHypothesis nextRan nextEnds
    exact ⟨List.not_mem_cons_of_ne_of_not_mem (Option.some_ne_none next).symm feasible,
      congrArg (· + 1) length⟩

/-- What every feasible step of a trace keeps holds of every state that a replay leads to. -/
theorem replay_keeps_each (Kept : State → Prop) (steps : List Step)
    (stepKeeps : ∀ step ∈ steps, ∀ state next fresh, Kept state →
      state.after fresh step.effects = .ok (some next) → Kept next)
    (fresh : Nat) (start : State) (started : Kept start) (outcomes : List (Option State))
    (ran : replay fresh start steps = .ok outcomes) {state : State}
    (reached : some state ∈ outcomes) : Kept state := by
  induction steps generalizing fresh start outcomes with
  | nil =>
    obtain rfl := Except.ok.inj ran
    cases reached
  | cons step rest inductionHypothesis =>
    obtain ⟨first, others⟩ := List.forall_mem_cons.mp stepKeeps
    rcases replay_cons_cases ran with ⟨_, rfl⟩ | ⟨next, later, stepped, nextRan, rfl⟩
    · exact absurd (List.mem_singleton.mp reached) (Option.some_ne_none state)
    · have nextKept := first start next fresh started stepped
      rcases List.mem_cons.mp reached with same | reached
      · obtain rfl := Option.some.inj same
        exact nextKept
      · exact inductionHypothesis others _ next nextKept later nextRan reached

/-- So it holds where a feasible replay ends. -/
theorem replay_keeps (Kept : State → Prop) (steps : List Step)
    (stepKeeps : ∀ step ∈ steps, ∀ state next fresh, Kept state →
      state.after fresh step.effects = .ok (some next) → Kept next)
    (fresh : Nat) (start : State) (started : Kept start) (outcomes : List (Option State))
    (ran : replay fresh start steps = .ok outcomes) {last : State}
    (ends : exit? start outcomes = some last) : Kept last := by
  rcases eq_or_mem_of_exit? ends with rfl | reached
  · exact started
  · exact replay_keeps_each Kept steps stepKeeps fresh start started outcomes ran reached

end Trace

namespace Session.WellFormed

variable {session : Session} {state last : State}

/-- The first step of a feasible replay in a session: the session stays well formed, and
the rest is replayed in it. -/
theorem replay_cons (wellFormed : session.WellFormed) (made : state ∈ session.states)
    {step : Trace.Step} {rest : List Trace.Step} {outcomes : List (Option State)}
    (ran : Trace.replay session.fresh state (step :: rest) = .ok outcomes)
    (ends : Trace.exit? state outcomes = some last) :
    ∃ next later, state.after session.fresh step.effects = .ok (some next) ∧
      (session.record next).WellFormed ∧ next ∈ (session.record next).states ∧
      Trace.replay (session.record next).fresh next rest = .ok later ∧
      outcomes = some next :: later ∧ Trace.exit? next later = some last := by
  obtain ⟨next, later, stepped, nextRan, rfl, nextEnds⟩ :=
    Trace.replay_cons session.fresh state last step rest outcomes ran ends
  obtain ⟨nextWellFormed, nextMade, nextFresh⟩ :=
    wellFormed.record_after made step.effects stepped
  rw [← nextFresh] at nextRan
  exact ⟨next, later, stepped, nextWellFormed, nextMade, nextRan, rfl, nextEnds⟩

/-- The state that a feasible replay ends in is recorded with its outcomes, and the next
number is the one after the replay. -/
theorem exit_made (wellFormed : session.WellFormed) (made : state ∈ session.states)
    {steps : List Trace.Step} {outcomes : List (Option State)}
    (ran : Trace.replay session.fresh state steps = .ok outcomes)
    (ends : Trace.exit? state outcomes = some last) :
    last ∈ (session.recordAll outcomes).states ∧
      (session.recordAll outcomes).fresh = Trace.freshAfter session.fresh outcomes := by
  induction steps generalizing session state outcomes with
  | nil =>
    obtain rfl := Except.ok.inj ran
    obtain rfl := Option.some.inj ends
    exact ⟨made, rfl⟩
  | cons step rest inductionHypothesis =>
    obtain ⟨next, later, stepped, nextWellFormed, nextMade, nextRan, rfl, nextEnds⟩ :=
      wellFormed.replay_cons made ran ends
    obtain ⟨_, _, nextFresh⟩ := wellFormed.record_after made step.effects stepped
    rw [recordAll_some, Trace.freshAfter_cons, ← nextFresh]
    exact inductionHypothesis nextWellFormed nextMade nextRan nextEnds

/-- The first part of a feasible replay, and the part that remains. -/
theorem replay_append (wellFormed : session.WellFormed) (made : state ∈ session.states)
    {first second : List Trace.Step} {outcomes : List (Option State)}
    (ran : Trace.replay session.fresh state (first ++ second) = .ok outcomes)
    (ends : Trace.exit? state outcomes = some last) :
    ∃ earlier middle later, Trace.replay session.fresh state first = .ok earlier ∧
      Trace.exit? state earlier = some middle ∧
      (session.recordAll earlier).WellFormed ∧ middle ∈ (session.recordAll earlier).states ∧
      Trace.replay (session.recordAll earlier).fresh middle second = .ok later ∧
      outcomes = earlier ++ later ∧ Trace.exit? middle later = some last := by
  rw [Trace.replay_append] at ran
  cases firstRan : Trace.replay session.fresh state first with
  | error misuse => simp [firstRan] at ran
  | ok earlier =>
    cases firstEnds : Trace.exit? state earlier with
    | none =>
      simp only [firstRan, firstEnds, Except.ok.injEq] at ran
      rw [← ran, firstEnds] at ends
      exact nomatch ends
    | some middle =>
      obtain ⟨middleMade, middleFresh⟩ := wellFormed.exit_made made firstRan firstEnds
      simp only [firstRan, firstEnds, ← middleFresh] at ran
      cases secondRan : Trace.replay (session.recordAll earlier).fresh middle second with
      | error misuse => simp [secondRan, Except.map] at ran
      | ok later =>
        simp only [secondRan, Except.map, Except.ok.injEq] at ran
        subst ran
        rw [Trace.exit?_append state middle earlier later firstEnds] at ends
        exact ⟨earlier, middle, later, rfl, firstEnds,
          wellFormed.replay made first earlier firstRan, middleMade, secondRan, rfl, ends⟩

end Session.WellFormed

end HeldLocks
