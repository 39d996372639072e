import HeldLocks.Proofs.Reorderings

/-!
# Inserting a commit

A step whose effects are split in two, with a commit in between, goes through one state more.
If the first part neither saves nor restores a lock, that state holds what the draft holds at
the same point of the undivided step and returns to the very same chain, whether it is new or
shared. So its own draft is in step with that draft, though it started elsewhere, and as long
as the second part does not save, the two stay in step (`Draft.InStep.ofSuccessor`).

A check that fails in the first part marks the undivided step as infeasible for good, and ends
the divided one at the commit. Either way no later step is taken. Whatever comes after the
second part starts from states that agree, and leads through states that agree.
-/

namespace HeldLocks

namespace Draft

/-- Once the path is ruled out, no effect takes that back. -/
theorem status_meetAll_of_infeasible (draft : Draft) (effects : List Effect)
    (infeasible : draft.status = .infeasible) :
    (draft.meetAll effects).status = .infeasible := by
  apply meetAll_keeps (fun reached => reached.status = .infeasible) _ draft infeasible
  intro reached still effect _
  rcases reached.meet_eq_or_eq effect with same | changed
  · rw [same]
    exact still
  · rw [changed, status_change]
    cases effect.asked <;> simp only [still]

/-- A draft of the successor goes on where the draft that led to it stands. -/
theorem InStep.ofSuccessor {draft : Draft} (fresh : Nat)
    (kept : draft.saved = draft.origin.saved) (unmarked : draft.restored = false)
    (isOpen : draft.status = .editing) :
    (Draft.ofState (draft.successor fresh)).InStep draft where
  holdings := draft.holdings_successor fresh
  saved := by
    have remaining : draft.remaining = draft.origin.saved := by
      rw [Draft.remaining, unmarked, if_neg Bool.false_ne_true, kept]
    exact (draft.saved_successor_of_kept fresh remaining).trans kept.symm
  restored := unmarked.symm
  status := isOpen.symm

end Draft

namespace Trace

/-- Of lists of outcomes that agree one by one, both or neither have a step that rules the
path out. -/
theorem none_mem_congr {outcomes others : List (Option State)}
    (agree : List.Forall₂ (Option.Rel State.Agree) outcomes others) :
    none ∈ others ↔ none ∈ outcomes := by
  induction agree with
  | nil => exact Iff.rfl
  | cons first _ inductionHypothesis =>
    rw [List.mem_cons, List.mem_cons, inductionHypothesis]
    cases first <;> simp only [reduceCtorEq, true_or, false_or]

/-- How the outcomes of a trace compare with those of the same trace with a commit put into
the step at a place. -/
structure CommitInserted (place : Nat) (outcomes others : List (Option State)) : Prop where
  /-- Both have a step that rules the path out, or neither has. -/
  infeasible : none ∈ others ↔ none ∈ outcomes
  /-- Where the commit leads to a state, there is one state more, and all others agree. -/
  passed : ∀ middle, others[place]? = some (some middle) →
    others.length = outcomes.length + 1 ∧
      List.Forall₂ (Option.Rel State.Agree) outcomes (others.eraseIdx place)
  /-- Where it is not reached, or rules the path out, all outcomes agree as they stand. -/
  stopped : (∀ middle, others[place]? ≠ some (some middle)) →
    List.Forall₂ (Option.Rel State.Agree) outcomes others

namespace CommitInserted

/-- The commit is the first outcome. -/
theorem passing {outcomes others : List (Option State)} (middle : State)
    (agree : List.Forall₂ (Option.Rel State.Agree) outcomes others) :
    CommitInserted 0 outcomes (some middle :: others) where
  infeasible := by
    rw [List.mem_cons, none_mem_congr agree]
    simp only [reduceCtorEq, false_or]
  passed := by
    intro _ _
    rw [List.length_cons, agree.length_eq, List.eraseIdx_cons_zero]
    exact ⟨rfl, agree⟩
  stopped := fun unreached => absurd rfl (unreached middle)

/-- The path is ruled out at the commit or before. -/
theorem stopping (place : Nat) : CommitInserted place [none] [none] where
  infeasible := Iff.rfl
  passed := by
    intro middle reached
    cases place <;> cases reached
  stopped := fun _ => .cons .none .nil

/-- A step before the commit. -/
theorem cons {place : Nat} {outcomes others : List (Option State)} {next twin : State}
    (agree : next.Agree twin) (later : CommitInserted place outcomes others) :
    CommitInserted (place + 1) (some next :: outcomes) (some twin :: others) where
  infeasible := by
    rw [List.mem_cons, List.mem_cons, later.infeasible]
    simp only [reduceCtorEq, false_or]
  passed := by
    intro middle reached
    obtain ⟨length, rest⟩ := later.passed middle reached
    rw [List.length_cons, List.length_cons, length, List.eraseIdx_cons_succ]
    exact ⟨rfl, .cons (.some agree) rest⟩
  stopped := fun unreached => .cons (.some agree) (later.stopped unreached)

end CommitInserted

end Trace

namespace Session

section Divided

variable {session other : Session} {left right : State} (wellFormed : session.WellFormed)
  (otherWellFormed : other.WellFormed) (made : left ∈ session.states)
  (otherMade : right ∈ other.states) (agree : left.Agree right) {first second : List Effect}
  (unsaved : .save ∉ first) (unrestored : ∀ lock, .restore lock ∉ first)
  (secondUnsaved : .save ∉ second) (firstValid : ∀ effect ∈ first, effect.Valid)
  (secondValid : ∀ effect ∈ second, effect.Valid)

include wellFormed otherWellFormed made otherMade agree unsaved unrestored secondUnsaved
  firstValid secondValid

/-- One batch on one of two agreeing states, divided in two on the other. The first part rules
the path out, and so does the undivided batch; or it leads to a state, from which the second
part leads to an outcome that agrees with that of the undivided batch. -/
theorem divided_after :
    (left.after session.fresh (first ++ second) = .ok none ∧
      right.after other.fresh first = .ok none) ∨
    ∃ middle outcome otherOutcome,
      left.after session.fresh (first ++ second) = .ok outcome ∧
      right.after other.fresh first = .ok (some middle) ∧
      middle.after (other.record middle).fresh second = .ok otherOutcome ∧
      Option.Rel State.Agree outcome otherOutcome := by
  have bothValid : ∀ effect ∈ first ++ second, effect.Valid := fun effect member =>
    (List.mem_append.mp member).elim (firstValid effect) (secondValid effect)
  have undivided := left.after_of_valid session.fresh (first ++ second) bothValid
  have entered := right.after_of_valid other.fresh first firstValid
  have halfway := (Draft.Alike.ofState agree).meetAll first
  have grounds := wellFormed.grounds_meetAll (wellFormed.grounds_ofState made) (first ++ second)
  rw [Draft.meetAll_append] at undivided grounds
  have origin := (Draft.ofState right).origin_meetAll first
  have kept := (Draft.ofState right).saved_meetAll first
  have unmarked := (Draft.ofState right).restored_meetAll_of_none first rfl unrestored
  have unbuilt := right.status_meetAll_ofState first
  rw [if_neg unsaved] at kept
  generalize (Draft.ofState left).meetAll first = undividedHalf at *
  generalize (Draft.ofState right).meetAll first = half at *
  rw [Draft.outcome] at entered
  cases stage : half.status with
  | built => exact absurd stage unbuilt
  | infeasible =>
    rw [stage, if_pos rfl] at entered
    have still := undividedHalf.status_meetAll_of_infeasible second (halfway.status.trans stage)
    rw [Draft.outcome, still, if_pos rfl] at undivided
    exact Or.inl ⟨undivided, entered⟩
  | editing =>
    rw [stage, if_neg Draft.Status.noConfusion] at entered
    obtain ⟨middleWellFormed, middleMade, _⟩ :=
      otherWellFormed.record_after otherMade first entered
    have goesOn := middleWellFormed.grounds_meetAll
      (middleWellFormed.grounds_ofState middleMade) second
    have resumed := (half.successor other.fresh).after_of_valid
      (other.record (half.successor other.fresh)).fresh second secondValid
    have inStep : (Draft.ofState (half.successor other.fresh)).InStep half := by
      apply Draft.InStep.ofSuccessor other.fresh _ unmarked stage
      rw [kept, origin]
      rfl
    have final := inStep.meetAll second fun saves => absurd saves secondUnsaved
    have undividedFinal := halfway.meetAll second
    refine Or.inr ⟨_, _, _, undivided, entered, resumed, ?_⟩
    rw [Draft.outcome, Draft.outcome, undividedFinal.status, final.status]
    split
    · exact .none
    · refine .some (State.agree_of_levels ?_)
      rw [wellFormed.levels_successor grounds, middleWellFormed.levels_successor goesOn,
        undividedFinal.holdings, final.holdings, undividedFinal.remaining, final.remaining]

/-- A trace on one of two agreeing states, and the same trace with one step divided on the
other. The steps before lead through agreeing states, which are recorded, each in its session,
so that the division meets agreeing states again. -/
theorem divided_replay {earlier later : List Trace.Step} (line firstLine secondLine : Nat)
    (earlierValid : ∀ step ∈ earlier, ∀ effect ∈ step.effects, effect.Valid)
    (laterValid : ∀ step ∈ later, ∀ effect ∈ step.effects, effect.Valid) :
    ∃ outcomes others,
      Trace.replay session.fresh left (earlier ++ ⟨line, first ++ second⟩ :: later) =
        .ok outcomes ∧
      Trace.replay other.fresh right
        (earlier ++ ⟨firstLine, first⟩ :: ⟨secondLine, second⟩ :: later) = .ok others ∧
      Trace.CommitInserted earlier.length outcomes others := by
  induction earlier generalizing session other left right with
  | nil =>
    simp only [List.nil_append, Trace.replay]
    rcases divided_after wellFormed otherWellFormed made otherMade agree unsaved unrestored
        secondUnsaved firstValid secondValid with
      ⟨undivided, entered⟩ | ⟨middle, outcome, otherOutcome, undivided, entered, resumed, related⟩
    · exact ⟨[none], [none], by rw [undivided], by rw [entered], .stopping 0⟩
    · obtain ⟨middleWellFormed, middleMade, middleFresh⟩ :=
        otherWellFormed.record_after otherMade first entered
      rw [undivided, entered]
      simp only [← middleFresh, resumed]
      cases related with
      | none =>
        refine ⟨[none], [some middle, none], rfl, rfl, ?_⟩
        exact .passing middle (.cons .none .nil)
      | some nexts =>
        obtain ⟨nextWellFormed, nextMade, nextFresh⟩ :=
          wellFormed.record_after made _ undivided
        obtain ⟨twinWellFormed, twinMade, twinFresh⟩ :=
          middleWellFormed.record_after middleMade second resumed
        simp only [← nextFresh, ← twinFresh]
        obtain ⟨outcomes, ran⟩ := Trace.replay_of_valid _ _ laterValid
        obtain ⟨others, otherRan, laterAgree⟩ :=
          (parallel_replay nextWellFormed twinWellFormed nextMade twinMade nexts later).result ran
        rw [ran, otherRan]
        exact ⟨_, _, rfl, rfl, .passing middle (.cons (.some nexts) laterAgree)⟩
  | cons step rest inductionHypothesis =>
    obtain ⟨stepValid, restValid⟩ := List.forall_mem_cons.mp earlierValid
    have ran := left.after_of_valid session.fresh step.effects stepValid
    obtain ⟨otherOutcome, otherRan, related⟩ :=
      (parallel_after wellFormed otherWellFormed made otherMade agree session.fresh other.fresh
        step.effects).result ran
    generalize ((Draft.ofState left).meetAll step.effects).outcome session.fresh = outcome at *
    simp only [List.cons_append, Trace.replay]
    rw [ran, otherRan]
    cases related with
    | none => exact ⟨[none], [none], rfl, rfl, .stopping _⟩
    | some nexts =>
      obtain ⟨nextWellFormed, nextMade, nextFresh⟩ := wellFormed.record_after made _ ran
      obtain ⟨twinWellFormed, twinMade, twinFresh⟩ :=
        otherWellFormed.record_after otherMade _ otherRan
      obtain ⟨outcomes, others, laterRan, otherLaterRan, inserted⟩ :=
        inductionHypothesis nextWellFormed twinWellFormed nextMade twinMade nexts restValid
      simp only [← nextFresh, ← twinFresh]
      rw [laterRan, otherLaterRan]
      exact ⟨_, _, rfl, rfl, .cons nexts inserted⟩

end Divided

/-- Inserting a commit does not change what comes out. Let some step of a trace be divided in
two, so that its first part neither saves nor restores a lock and its second part does not
save, and let both traces be replayed from one state under numbers that are not in use. Neither
replay is refused, and either both rule the path out or neither does. If the first part leads
to a state, the divided trace has that state more, and all its other outcomes agree with those
of the undivided trace, before the division and after it. If not, the outcomes agree as they
stand.

Proof: up to the division the two replays run parallel. There the state in the middle goes on
where the undivided step stands, and the states that the two lead to agree. -/
theorem inserted_commit_agrees {session : Session} (reachable : session.Reachable)
    {state : State} (made : state ∈ session.states) (earlier : List Trace.Step)
    (first second : List Effect) (later : List Trace.Step) (line firstLine secondLine : Nat)
    (unsaved : .save ∉ first) (unrestored : ∀ lock, .restore lock ∉ first)
    (secondUnsaved : .save ∉ second)
    (valid : ∀ step ∈ earlier ++ ⟨line, first ++ second⟩ :: later,
      ∀ effect ∈ step.effects, effect.Valid)
    {fresh otherFresh : Nat} (unused : session.fresh ≤ fresh)
    (otherUnused : session.fresh ≤ otherFresh) :
    ∃ outcomes others,
      Trace.replay fresh state (earlier ++ ⟨line, first ++ second⟩ :: later) = .ok outcomes ∧
      Trace.replay otherFresh state
        (earlier ++ ⟨firstLine, first⟩ :: ⟨secondLine, second⟩ :: later) = .ok others ∧
      Trace.CommitInserted earlier.length outcomes others := by
  obtain ⟨before, laterWellFormed, grown, rfl⟩ := reachable.wellFormed.exists_later unused
  obtain ⟨other, otherWellFormed, otherGrown, rfl⟩ :=
    reachable.wellFormed.exists_later otherUnused
  have stepValid := valid _ (List.mem_append_right earlier List.mem_cons_self)
  apply divided_replay laterWellFormed otherWellFormed (grown made) (otherGrown made)
    (State.Agree.refl state) unsaved unrestored secondUnsaved
  · exact fun effect member => stepValid effect (List.mem_append_left second member)
  · exact fun effect member => stepValid effect (List.mem_append_right first member)
  · exact fun step member => valid step (List.mem_append_left _ member)
  · exact fun step member =>
      valid step (List.mem_append_right earlier (List.mem_cons_of_mem _ member))

/-- A step that takes the caller's holdings and then returns is divided between the two. The
commit leads to a state of its own inside the call. -/
theorem commit_before_return :
    ∃ outcomes others,
      Trace.replay 3 ⟨⟨2, ⟨[(.ofName "a", 1), (.ofName "b", 1)]⟩⟩, [⟨1, ⟨[(.ofName "a", 1)]⟩⟩]⟩
        [⟨1, [.acquire (.ofName "c") 0]⟩,
          ⟨2, [.release (.ofName "b"), .restoreAll, .acquire (.ofName "b") 0,
            .restore (.ofName "a"), .check (.ofName "a") 1 true]⟩,
          ⟨4, [.release (.ofName "a")]⟩] = .ok outcomes ∧
      Trace.replay 7 ⟨⟨2, ⟨[(.ofName "a", 1), (.ofName "b", 1)]⟩⟩, [⟨1, ⟨[(.ofName "a", 1)]⟩⟩]⟩
        [⟨1, [.acquire (.ofName "c") 0]⟩,
          ⟨2, [.release (.ofName "b"), .restoreAll]⟩,
          ⟨3, [.acquire (.ofName "b") 0, .restore (.ofName "a"), .check (.ofName "a") 1 true]⟩,
          ⟨4, [.release (.ofName "a")]⟩] = .ok others ∧
      none ∉ others ∧ others.length = 4 ∧ outcomes.length = 3 ∧
      List.Forall₂ (Option.Rel State.Agree) outcomes (others.eraseIdx 1) := by
  obtain ⟨session, reachable, unused, made⟩ : ∃ session : Session,
      session.Reachable ∧ session.fresh = 3 ∧
        ⟨⟨2, ⟨[(.ofName "a", 1), (.ofName "b", 1)]⟩⟩, [⟨1, ⟨[(.ofName "a", 1)]⟩⟩]⟩ ∈
          session.states :=
    ⟨(start.run [.effects 0 [.acquire (.ofName "a") 0],
      .effects 1 [.save, .acquire (.ofName "b") 0]]).2, ⟨_, rfl⟩, rfl,
      List.mem_of_getElem? (i := 2) rfl⟩
  obtain ⟨outcomes, others, ran, otherRan, inserted⟩ := inserted_commit_agrees reachable made
    [⟨1, [.acquire (.ofName "c") 0]⟩] [.release (.ofName "b"), .restoreAll]
    [.acquire (.ofName "b") 0, .restore (.ofName "a"), .check (.ofName "a") 1 true]
    [⟨4, [.release (.ofName "a")]⟩] 2 2 3 (by decide) (by simp) (by decide)
    (by simp [Effect.Valid]) (by omega : session.fresh ≤ 3) (by omega : session.fresh ≤ 7)
  obtain rfl := Except.ok.inj ran
  obtain rfl := Except.ok.inj otherRan
  obtain ⟨_, agree⟩ := inserted.passed _ rfl
  exact ⟨_, _, rfl, rfl, by decide, rfl, rfl, agree⟩

end Session

end HeldLocks
