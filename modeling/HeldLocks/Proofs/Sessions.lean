import HeldLocks.Proofs.Reductions
import HeldLocks.Session.Run

/-!
# What sessions keep

In every session a state stands at the place that is its number, what it returns to is a
recorded state with a smaller number, and its holdings are canonical. `Session.WellFormed`
collects the three, and `Session.Reachable.wellFormed` says that every session that
commands lead to has them.

The invariant looks at one link of a chain only. Following the links gives the whole chain:
it descends, and its holdings are canonical at every level.

A draft is grounded in a session if it started from a recorded state, would return to a
recorded state, and has canonical holdings. Edits keep a draft grounded as long as their
roots are recorded; and the successor of a grounded draft can be recorded without
disturbing the session.
-/

namespace HeldLocks.Session

/-- What every session keeps. -/
structure WellFormed (session : Session) : Prop where
  /-- States stand at the places that are their numbers. -/
  numbered : ∀ (serial : Nat) (state : State),
    session.states[serial]? = some state → state.serial = serial
  /-- What a state returns to is recorded, and was made before it. -/
  linked : ∀ state ∈ session.states, ∀ caller, state.restore? = some caller →
    caller ∈ session.states ∧ caller.serial < state.serial
  /-- Holdings are canonical. -/
  canonical : ∀ state ∈ session.states, state.holdings.Canonical

/-- What a draft needs so that its successor can be recorded. -/
structure Grounds (session : Session) (draft : Draft) : Prop where
  /-- The state that the work started from is recorded. -/
  origin : draft.origin ∈ session.states
  /-- The state on top of the chain is recorded, if there is one. -/
  saved : ∀ caller, State.ofChain? draft.saved = some caller → caller ∈ session.states
  /-- The holdings so far are canonical. -/
  holdings : draft.holdings.Canonical

/-- Recording a state drops none. -/
theorem subset_record (session : Session) (state : State) :
    session.states ⊆ (session.record state).states := by
  rw [record]
  split
  · exact List.subset_append_left _ _
  · exact List.Subset.refl _

/-- A state that is found is recorded. -/
theorem mem_of_find? (session : Session) (serial : Int) (state : State)
    (found : session.find? serial = some state) : state ∈ session.states := by
  cases serial with
  | ofNat serial => exact List.mem_of_getElem? found
  | negSucc serial => exact nomatch found

/-- What an answer keeps for every recorded state is kept if the state is named by a number,
even by one that is not in use. -/
theorem withState_keeps (session : Session) (Kept : Session → Prop) (serial : Int)
    (answer : State → Answer × Session) (kept : Kept session)
    (answerKeeps : ∀ state ∈ session.states, Kept (answer state).2) :
    Kept (session.withState serial answer).2 := by
  rw [Session.withState]
  cases found : session.find? serial with
  | none => exact kept
  | some state => exact answerKeeps state (mem_of_find? session serial state found)

/-- States are recorded one after the other. -/
theorem recordAll_some (session : Session) (state : State) (outcomes : List (Option State)) :
    session.recordAll (some state :: outcomes) = (session.record state).recordAll outcomes := rfl

/-- A session is well formed when it starts, with a state without locks and callers. -/
theorem wellFormed_start : start.WellFormed where
  numbered := by
    intro serial state found
    obtain ⟨here, rfl⟩ := List.getElem?_eq_some_iff.mp found
    have first : serial = 0 := Nat.lt_one_iff.mp here
    subst first
    rfl
  linked := by
    intro state member caller returns
    obtain rfl := List.mem_singleton.mp member
    exact nomatch returns
  canonical := by
    intro state member
    obtain rfl := List.mem_singleton.mp member
    exact Holdings.Canonical.empty

namespace WellFormed

variable {session : Session}

/-- The number of a recorded state is in use. -/
theorem serial_lt_fresh (wellFormed : session.WellFormed) {state : State}
    (made : state ∈ session.states) : state.serial < session.fresh := by
  obtain ⟨place, here, rfl⟩ := List.getElem_of_mem made
  rw [wellFormed.numbered place _ (List.getElem?_eq_getElem here)]
  exact here

/-- The chain of a recorded state descends. -/
theorem descending (wellFormed : session.WellFormed) {state : State}
    (made : state ∈ session.states) : Descending state.chain := by
  obtain ⟨top, saved⟩ := state
  -- The induction follows the links, so the state moves on to its caller with each level.
  induction saved generalizing top with
  | nil => exact List.pairwise_singleton _ _
  | cons next below inductionHypothesis =>
    obtain ⟨callerMade, older⟩ := wellFormed.linked _ made ⟨next, below⟩ rfl
    have further : Descending (next :: below) := inductionHypothesis next callerMade
    refine List.pairwise_cons.mpr ⟨?_, further⟩
    intro lower member
    rcases List.mem_cons.mp member with rfl | member
    · exact older
    · exact Nat.lt_trans ((List.pairwise_cons.mp further).1 lower member) older

/-- The holdings of a recorded state are canonical along its chain. -/
theorem canonical_chain (wellFormed : session.WellFormed) {state : State}
    (made : state ∈ session.states) : state.Canonical := by
  obtain ⟨top, saved⟩ := state
  induction saved generalizing top with
  | nil =>
    intro snapshot member
    obtain rfl := List.mem_singleton.mp member
    exact wellFormed.canonical _ made
  | cons next below inductionHypothesis =>
    obtain ⟨callerMade, _⟩ := wellFormed.linked _ made ⟨next, below⟩ rfl
    intro snapshot member
    rcases List.mem_cons.mp member with rfl | member
    · exact wellFormed.canonical _ made
    · exact inductionHypothesis next callerMade snapshot member

/-- Recording a new state keeps a session well formed if the state returns to a recorded
one and its holdings are canonical. -/
theorem record (wellFormed : session.WellFormed) (state : State)
    (new : state.serial = session.fresh)
    (returns : ∀ caller, state.restore? = some caller → caller ∈ session.states)
    (canonical : state.holdings.Canonical) : (session.record state).WellFormed := by
  rw [record_of_new session state new]
  constructor
  · intro serial found present
    rw [List.getElem?_append] at present
    split at present
    next => exact wellFormed.numbered serial found present
    next beyond =>
      obtain ⟨here, rfl⟩ := List.getElem?_eq_some_iff.mp present
      have last : serial - session.states.length = 0 := Nat.lt_one_iff.mp here
      simp only [last, List.getElem_cons_zero, new, fresh]
      omega
  · intro recorded member caller link
    rcases List.mem_append.mp member with before | isNew
    · obtain ⟨callerMade, older⟩ := wellFormed.linked recorded before caller link
      exact ⟨List.mem_append_left _ callerMade, older⟩
    · obtain rfl := List.mem_singleton.mp isNew
      have callerMade := returns caller link
      refine ⟨List.mem_append_left _ callerMade, ?_⟩
      rw [new]
      exact wellFormed.serial_lt_fresh callerMade
  · intro recorded member
    rcases List.mem_append.mp member with before | isNew
    · exact wellFormed.canonical recorded before
    · obtain rfl := List.mem_singleton.mp isNew
      exact canonical

end WellFormed

/-! ## Grounded drafts -/

/-- A draft stays grounded when more is recorded. -/
theorem Grounds.mono {session later : Session} {draft : Draft} (grounds : session.Grounds draft)
    (recorded : session.states ⊆ later.states) : later.Grounds draft where
  origin := recorded grounds.origin
  saved := fun caller top => recorded (grounds.saved caller top)
  holdings := grounds.holdings

namespace WellFormed

variable {session : Session} {draft : Draft}

/-- A draft of a recorded state is grounded. -/
theorem grounds_ofState (wellFormed : session.WellFormed) {state : State}
    (made : state ∈ session.states) : session.Grounds (.ofState state) where
  origin := made
  saved := fun caller returns => (wellFormed.linked state made caller returns).1
  holdings := wellFormed.canonical state made

/-- A grounded draft is canonical in all it has or can take up. -/
theorem canonical_draft (wellFormed : session.WellFormed) (grounds : session.Grounds draft) :
    draft.Canonical where
  holdings := grounds.holdings
  origin := wellFormed.canonical_chain grounds.origin
  saved := by
    cases returns : draft.saved with
    | nil => exact fun _ member => absurd member List.not_mem_nil
    | cons top below =>
      have callerMade := grounds.saved ⟨top, below⟩ (by rw [returns]; rfl)
      exact wellFormed.canonical_chain callerMade

/-- Edits keep a draft grounded if the states they look at are recorded. -/
theorem grounds_change (wellFormed : session.WellFormed) (grounds : session.Grounds draft)
    (edit : Edit State) (roots : ∀ root ∈ edit.root?, root ∈ session.states) :
    session.Grounds (draft.change edit) where
  origin := by
    rw [Draft.origin_change]
    exact grounds.origin
  saved := by
    intro caller top
    rw [Draft.saved_change] at top
    cases edit with
    | save =>
      obtain rfl : draft.origin = caller := Option.some.inj top
      exact grounds.origin
    | detach => exact nomatch top
    | attach root => exact (wellFormed.linked root (roots root rfl) caller top).1
    | _ => exact grounds.saved caller top
  holdings := by
    have canonical := wellFormed.canonical_draft grounds
    refine (canonical.change edit ?_).holdings
    exact fun root looked => wellFormed.canonical_chain (roots root looked)

/-- Effects look at no state but the one they act on. -/
theorem grounds_meet (wellFormed : session.WellFormed) (grounds : session.Grounds draft)
    (effect : Effect) : session.Grounds (draft.meet effect) := by
  rcases draft.meet_eq_or_eq effect with same | changed
  · rw [same]
    exact grounds
  · rw [changed]
    apply wellFormed.grounds_change grounds
    rw [effect.root?_asked]
    exact fun root looked => nomatch looked

/-- A batch keeps a draft grounded. -/
theorem grounds_meetAll (wellFormed : session.WellFormed) (grounds : session.Grounds draft)
    (effects : List Effect) : session.Grounds (draft.meetAll effects) := by
  apply Draft.meetAll_keeps session.Grounds _ draft grounds
  intro reached reachedGrounds effect _
  exact wellFormed.grounds_meet reachedGrounds effect

/-- The work behind a reduction is grounded. -/
theorem grounds_reducing (wellFormed : session.WellFormed) {caller : State}
    (made : caller ∈ session.states) (block : LockSet) (reduction : Reduction) :
    session.Grounds (reduction.reducing caller block) := by
  apply reduction.reducing_keeps caller block session.Grounds (wellFormed.grounds_ofState made)
  intro draft grounds edit rootless
  apply wellFormed.grounds_change grounds
  rw [rootless]
  exact fun root looked => nomatch looked

/-- The work behind an expansion is grounded. -/
theorem grounds_expanding (wellFormed : session.WellFormed) {caller final : State}
    (callerMade : caller ∈ session.states) (finalMade : final ∈ session.states)
    (block : LockSet) (reduction : Reduction) :
    session.Grounds (reduction.expanding caller block final) := by
  apply reduction.expanding_keeps caller block final session.Grounds
    (wellFormed.grounds_ofState finalMade)
  intro draft grounds edit rooted
  apply wellFormed.grounds_change grounds
  rw [rooted]
  rintro root ⟨⟩
  exact callerMade

/-- What the successor of a grounded draft returns to is recorded: the top of the chain,
or the state that this one returns to. -/
theorem remaining_made (wellFormed : session.WellFormed) (grounds : session.Grounds draft)
    (caller : State) (top : State.ofChain? draft.remaining = some caller) :
    caller ∈ session.states := by
  rw [Draft.remaining] at top
  split at top
  · cases returns : draft.saved with
    | nil =>
      rw [returns] at top
      cases top
    | cons upper below =>
      rw [returns] at top
      have upperMade := grounds.saved ⟨upper, below⟩ (by rw [returns]; rfl)
      exact (wellFormed.linked _ upperMade caller top).1
  · exact grounds.saved caller top

/-- The successor of a grounded draft is recorded already, or can be recorded. -/
theorem record_successor (wellFormed : session.WellFormed) (grounds : session.Grounds draft) :
    (session.record (draft.successor session.fresh)).WellFormed ∧
      draft.successor session.fresh ∈
        (session.record (draft.successor session.fresh)).states ∧
      (session.record (draft.successor session.fresh)).fresh =
        (draft.successor session.fresh).nextFresh session.fresh := by
  by_cases shared : draft.unchanged = true
  · have old := wellFormed.serial_lt_fresh grounds.origin
    simp only [Draft.successor, shared, if_true, record_of_old session _ old]
    exact ⟨wellFormed, grounds.origin, (Nat.max_eq_left old).symm⟩
  · simp only [Draft.successor, shared]
    refine ⟨?_, ?_, ?_⟩
    · exact wellFormed.record _ rfl (wellFormed.remaining_made grounds) grounds.holdings
    · rw [record_of_new _ _ rfl]
      exact List.mem_append_right _ List.mem_cons_self
    · rw [record_of_new _ _ rfl]
      simp [State.nextFresh, fresh]

/-- A batch leads from a recorded state to one that can be recorded. -/
theorem record_after (wellFormed : session.WellFormed) {state next : State}
    (made : state ∈ session.states) (effects : List Effect)
    (ran : state.after session.fresh effects = .ok (some next)) :
    (session.record next).WellFormed ∧ next ∈ (session.record next).states ∧
      (session.record next).fresh = next.nextFresh session.fresh := by
  obtain rfl := State.successor_of_after state next session.fresh effects ran
  exact wellFormed.record_successor
    (wellFormed.grounds_meetAll (wellFormed.grounds_ofState made) effects)

/-- What is left of a grounded draft after its build is grounded. -/
theorem grounds_finished (wellFormed : session.WellFormed) (grounds : session.Grounds draft) :
    session.Grounds draft.finished := by
  rw [Draft.finished]
  split
  · split
    · exact ⟨grounds.origin, wellFormed.remaining_made grounds, grounds.holdings⟩
    · refine ⟨grounds.origin, ?_, Holdings.Canonical.empty⟩
      intro caller top
      cases top
  · exact ⟨grounds.origin, grounds.saved, grounds.holdings⟩
  · exact ⟨grounds.origin, grounds.saved, grounds.holdings⟩

/-- Building a grounded draft leads on to a session in which what is left of the draft is
still grounded. -/
theorem record_build (wellFormed : session.WellFormed) (grounds : session.Grounds draft)
    {outcome : Option State} {finished : Draft}
    (ran : draft.build session.fresh = .ok (outcome, finished)) :
    (session.recordAll [outcome]).WellFormed ∧
      (session.recordAll [outcome]).Grounds finished := by
  have unbuilt : draft.status ≠ .built := by
    intro built
    simp [Draft.build, built] at ran
  rw [Draft.build_of_unbuilt draft session.fresh unbuilt] at ran
  obtain ⟨rfl, rfl⟩ := Prod.mk.inj (Except.ok.inj ran)
  have finished := wellFormed.grounds_finished grounds
  rw [Draft.outcome]
  split
  · exact ⟨wellFormed, finished⟩
  · exact ⟨(wellFormed.record_successor grounds).1, finished.mono (subset_record session _)⟩

/-! ## Commands -/

/-- A resolved edit looks at a recorded state if it looks at one. -/
theorem roots_of_resolve? (name : Edit Int) (edit : Edit State)
    (resolved : name.resolve? session.find? = some edit) :
    ∀ root ∈ edit.root?, root ∈ session.states := by
  cases name with
  | attach serial | reinstate serial used | reapply serial used =>
    obtain ⟨root, found, rfl⟩ := Option.map_eq_some_iff.mp resolved
    intro looked isRoot
    obtain rfl : root = looked := Option.some.inj isRoot
    exact mem_of_find? session serial root found
  | _ =>
    cases resolved
    exact fun root looked => nomatch looked

/-- Whatever is done to a grounded draft, and wherever it ends, the session is kept. -/
theorem act (wellFormed : session.WellFormed) (grounds : session.Grounds draft)
    (actions : List Action) : (session.act draft actions).2.2.WellFormed := by
  induction actions generalizing session draft with
  | nil => exact wellFormed
  | cons action rest inductionHypothesis =>
    cases action with
    | count lock => exact inductionHypothesis wellFormed grounds
    | edit name =>
      simp only [Session.act]
      cases resolved : name.resolve? session.find? with
      | none => exact wellFormed
      | some edit =>
        simp only
        cases accepted : draft.edit edit with
        | error misuse => exact wellFormed
        | ok changed =>
          obtain rfl := Draft.change_of_edit draft changed edit accepted
          exact inductionHypothesis wellFormed
            (wellFormed.grounds_change grounds edit (roots_of_resolve? name edit resolved))
    | effect effect =>
      simp only [Session.act]
      cases accepted : draft.undergo effect with
      | error misuse => exact wellFormed
      | ok changed =>
        obtain rfl := Draft.meet_of_undergo draft changed effect accepted
        exact inductionHypothesis wellFormed (wellFormed.grounds_meet grounds effect)
    | build =>
      simp only [Session.act]
      cases ran : draft.build session.fresh with
      | error misuse => exact wellFormed
      | ok built =>
        obtain ⟨kept, grounded⟩ := wellFormed.record_build grounds ran
        exact inductionHypothesis kept grounded

/-- Recording the outcome of a batch keeps a session well formed. -/
theorem record_outcome (wellFormed : session.WellFormed) {state : State}
    (made : state ∈ session.states) (effects : List Effect) (outcome : Option State)
    (ran : state.after session.fresh effects = .ok outcome) :
    (session.recordAll [outcome]).WellFormed := by
  cases outcome with
  | none => exact wellFormed
  | some next => exact (wellFormed.record_after made effects ran).1

/-- The numbers that a replay hands out are those that recording its outcomes expects. -/
theorem replay (wellFormed : session.WellFormed) {state : State}
    (made : state ∈ session.states) (steps : List Trace.Step)
    (outcomes : List (Option State))
    (ran : Trace.replay session.fresh state steps = .ok outcomes) :
    (session.recordAll outcomes).WellFormed := by
  induction steps generalizing session state outcomes with
  | nil =>
    obtain rfl := Except.ok.inj ran
    exact wellFormed
  | cons step rest inductionHypothesis =>
    rcases Trace.replay_cons_cases ran with ⟨_, rfl⟩ | ⟨next, later, stepped, others, rfl⟩
    · exact wellFormed
    · obtain ⟨nextWellFormed, nextMade, nextFresh⟩ :=
        wellFormed.record_after made step.effects stepped
      rw [← nextFresh] at others
      rw [recordAll_some]
      exact inductionHypothesis nextWellFormed nextMade later others

/-- Recording a reduction of a recorded state keeps a session well formed. -/
theorem reduce (wellFormed : session.WellFormed) {caller : State}
    (made : caller ∈ session.states) (block : LockSet) (reduction : Reduction) :
    (session.record (reduction.reduce session.fresh caller block)).WellFormed :=
  (wellFormed.record_successor (wellFormed.grounds_reducing made block reduction)).1

/-- So does recording an expansion of recorded states. -/
theorem expand (wellFormed : session.WellFormed) {caller final : State}
    (callerMade : caller ∈ session.states) (finalMade : final ∈ session.states)
    (block : LockSet) (reduction : Reduction) :
    (session.record (reduction.expand session.fresh caller block final)).WellFormed :=
  (wellFormed.record_successor
    (wellFormed.grounds_expanding callerMade finalMade block reduction)).1

/-- An answer that keeps a session well formed for every recorded state does so for one that is
looked up. -/
theorem withState (wellFormed : session.WellFormed) (serial : Int)
    (answer : State → Answer × Session)
    (answerKeeps : ∀ state ∈ session.states, (answer state).2.WellFormed) :
    (session.withState serial answer).2.WellFormed :=
  session.withState_keeps Session.WellFormed serial answer wellFormed answerKeeps

/-- Every answer keeps the session well formed. -/
theorem answer (wellFormed : session.WellFormed) (command : Command) :
    (session.answer command).2.WellFormed := by
  cases command with
  | empty =>
    refine wellFormed.record _ rfl ?_ Holdings.Canonical.empty
    exact fun caller returns => nomatch returns
  | draft origin actions =>
    refine wellFormed.withState origin _ fun state made => ?_
    have kept := wellFormed.act (wellFormed.grounds_ofState made) (Action.complete actions)
    rw [Session.draftFrom]
    split <;> simp_all
  | effects origin effects =>
    refine wellFormed.withState origin _ fun state made => ?_
    rw [effectsFrom]
    cases ran : state.after session.fresh effects with
    | error misuse => exact wellFormed
    | ok outcome => exact wellFormed.record_outcome made effects outcome ran
  | trace origin text bound =>
    refine wellFormed.withState origin _ fun state made => ?_
    rw [Session.traceFrom]
    split
    · exact wellFormed
    · split
      · exact wellFormed
      · next steps _ _ outcomes ran => exact wellFormed.replay made steps outcomes ran
  | reduce caller block reduction =>
    exact wellFormed.withState caller _ fun state made => wellFormed.reduce made block reduction
  | expand caller block final reduction =>
    exact wellFormed.withState caller _ fun state made =>
      wellFormed.withState final _ fun exit exitMade =>
        wellFormed.expand made exitMade block reduction
  | difference source target =>
    refine wellFormed.withState source _ fun state made =>
      wellFormed.withState target _ fun other _ => ?_
    rw [differenceFrom]
    cases ran : state.after session.fresh (state.holdings.difference other.holdings) with
    | error misuse => simpa only [ran] using wellFormed
    | ok outcome => simpa only [ran] using wellFormed.record_outcome made _ outcome ran
  | compare left right =>
    exact wellFormed.withState left _ fun _ _ =>
      wellFormed.withState right _ fun _ _ => wellFormed
  | query state locks => exact wellFormed.withState state _ fun _ _ => wellFormed
  | describe state => exact wellFormed.withState state _ fun _ _ => wellFormed
  | sort => exact wellFormed

end WellFormed

/-- Every session that commands lead to is well formed. -/
theorem Reachable.wellFormed {session : Session} (reachable : session.Reachable) :
    session.WellFormed :=
  reachable.induction wellFormed_start fun _ command kept => kept.answer command

end HeldLocks.Session
