import HeldLocks.Proofs.CounterReductions
import HeldLocks.Proofs.CounterReplays

/-!
# Sessions on counters of 32 bits

A program answers its commands on counters of 32 bits. `Session.answerOnWords?` follows it through
every command: whatever computes a counter does so in range, or nothing comes out of the command.
From a session whose states all fit, an answer on counters is the answer with counts of any size,
and the states that it adds fit as well (`Session.Fits.answerOnWords?_eq`). When single edits,
batches, replays and expansions leave the range is said where they are defined on counters.

So a session that a program reaches is one that commands lead to, and the counts of all its states
are in range (`Session.ReachableOnWords.reachable_and_fits`). What is said of such sessions
elsewhere, for counts of any size, is said of the program up to where it leaves the range.
-/

namespace HeldLocks

/-- What is computed on counters of 32 bits leaves their range, or comes to the exact result, of
which something holds then. -/
def InRange {Result : Type} (computed : Option Result) (exact : Result) (Good : Prop) : Prop :=
  computed = none ∨ computed = some exact ∧ Good

/-- What leaves the range exactly under some condition either does or is in range. -/
theorem InRange.of_overflows {Result : Type} {computed : Option Result} {exact : Result}
    {Overflows Good : Prop} (leaves : Overflows → computed = none)
    (stays : ¬ Overflows → computed = some exact ∧ Good) : InRange computed exact Good := by
  by_cases overflows : Overflows
  · exact Or.inl (leaves overflows)
  · exact Or.inr (stays overflows)

/-- What is made of a result in range is in range. -/
theorem InRange.map {Result Other : Type} {computed : Option Result} {exact : Result}
    {Good Better : Prop} (inRange : InRange computed exact Good) (finish : Result → Other)
    (better : Good → Better) : InRange (computed.map finish) (finish exact) Better := by
  rcases inRange with left | ⟨same, good⟩
  · rw [left]
    exact Or.inl rfl
  · rw [same]
    exact Or.inr ⟨rfl, better good⟩

/-- Work that goes on from a result in range is in range if it is from the exact result. -/
theorem InRange.bind {Result Other : Type} {computed : Option Result} {exact : Result}
    {onward : Result → Option Other} {exactOther : Other} {Good Better : Prop}
    (inRange : InRange computed exact Good)
    (continues : Good → InRange (onward exact) exactOther Better) :
    InRange (computed >>= onward) exactOther Better := by
  rcases inRange with left | ⟨same, good⟩
  · rw [left]
    exact Or.inl rfl
  · rw [same]
    exact continues good

/-! ## Drafts that refuse -/

namespace Draft

/-- Apply an edit on counters of 32 bits. It is refused as it is with counts of any size. -/
def editOnWords? (draft : Draft) (edit : Edit State) : Option (Except Misuse Draft) :=
  if draft.status = .built then some (.error .usedAfterBuild)
  else match edit.refusal? with
    | some misuse => some (.error misuse)
    | none => (draft.changeOnWords? edit).map .ok

/-- Let an effect act on counters of 32 bits. -/
def undergoOnWords? (draft : Draft) (effect : Effect) : Option (Except Misuse Draft) :=
  match effect.edit? draft.holdings with
  | none => some (.ok draft)
  | some edit => draft.editOnWords? edit

/-- Let effects act in order on counters of 32 bits, up to the first that is refused. -/
def undergoAllOnWords? (draft : Draft) : List Effect → Option (Except Misuse Draft)
  | [] => some (.ok draft)
  | effect :: rest => do
    match ← draft.undergoOnWords? effect with
    | .error misuse => return .error misuse
    | .ok next => next.undergoAllOnWords? rest

namespace Fits

variable {draft : Draft} (fits : draft.Fits)

include fits

/-- An edit on counters of 32 bits leaves their range or is answered as it is, by a refusal or by a
draft that fits. -/
theorem editOnWords?_eq {edit : Edit State} (editFits : edit.Fits) :
    InRange (draft.editOnWords? edit) (draft.edit edit)
      (∀ next, draft.edit edit = .ok next → next.Fits) := by
  rw [editOnWords?, Draft.edit]
  split
  · exact Or.inr ⟨rfl, fun next accepted => by cases accepted⟩
  · cases edit.refusal? with
    | some misuse => exact Or.inr ⟨rfl, fun next accepted => by cases accepted⟩
    | none =>
      obtain ⟨leaves, stays⟩ := fits.changeOnWords?_eq editFits
      refine (InRange.of_overflows leaves stays).map Except.ok fun changedFits next accepted => ?_
      obtain rfl := Except.ok.inj accepted
      exact changedFits

/-- So does an effect. -/
theorem undergoOnWords?_eq {effect : Effect} (effectFits : effect.Fits) :
    InRange (draft.undergoOnWords? effect) (draft.undergo effect)
      (∀ next, draft.undergo effect = .ok next → next.Fits) := by
  rw [undergoOnWords?, undergo]
  cases asks : effect.edit? draft.holdings with
  | none =>
    refine Or.inr ⟨rfl, fun next accepted => ?_⟩
    obtain rfl := Except.ok.inj accepted
    exact fits
  | some edit =>
    have asked := effect.asked_of_edit? draft.holdings edit asks
    exact fits.editOnWords?_eq (asked ▸ effectFits.asked)

/-- So does a batch of effects. -/
theorem undergoAllOnWords?_eq {effects : List Effect}
    (effectsFit : ∀ effect ∈ effects, effect.Fits) :
    InRange (draft.undergoAllOnWords? effects) (draft.undergoAll effects)
      (∀ next, draft.undergoAll effects = .ok next → next.Fits) := by
  induction effects generalizing draft with
  | nil =>
    refine Or.inr ⟨rfl, fun next accepted => ?_⟩
    obtain rfl := Except.ok.inj accepted
    exact fits
  | cons effect rest inductionHypothesis =>
    obtain ⟨first, others⟩ := List.forall_mem_cons.mp effectsFit
    rw [undergoAllOnWords?, undergoAll, List.foldlM_cons]
    refine (fits.undergoOnWords?_eq first).bind fun nextFits => ?_
    cases accepted : draft.undergo effect with
    | error misuse => exact Or.inr ⟨rfl, fun next refused => by cases refused⟩
    | ok next => exact inductionHypothesis (nextFits next accepted) others

/-- What a draft is left with after its build fits. -/
protected theorem finished : draft.finished.Fits := by
  rw [Draft.finished]
  split
  · split
    · refine ⟨⟨fits.canonical.holdings, fits.canonical.origin, ?_⟩,
        ⟨fits.within.holdings, fits.within.origin, ?_⟩⟩
      · exact fun snapshot member => fits.canonical.saved snapshot (mem_of_mem_remaining member)
      · exact fun snapshot member => fits.within.saved snapshot (mem_of_mem_remaining member)
    · exact ⟨⟨Holdings.Canonical.empty, fits.canonical.origin, List.forall_mem_nil _⟩,
        ⟨fun lock held => absurd held (Nat.lt_irrefl 0), fits.within.origin,
          List.forall_mem_nil _⟩⟩
  · exact ⟨⟨fits.canonical.holdings, fits.canonical.origin, fits.canonical.saved⟩,
      ⟨fits.within.holdings, fits.within.origin, fits.within.saved⟩⟩
  · exact ⟨⟨fits.canonical.holdings, fits.canonical.origin, fits.canonical.saved⟩,
      ⟨fits.within.holdings, fits.within.origin, fits.within.saved⟩⟩

/-- A build computes no counter: its outcome fits, and so does what it leaves of the draft. -/
theorem build {fresh : Nat} {outcome : Option State} {finished : Draft}
    (ran : draft.build fresh = .ok (outcome, finished)) :
    (∀ next ∈ outcome, next.Fits) ∧ finished.Fits := by
  have unbuilt : draft.status ≠ .built := by
    intro built
    simp [Draft.build, built] at ran
  rw [draft.build_of_unbuilt fresh unbuilt] at ran
  obtain ⟨rfl, rfl⟩ := Prod.mk.inj (Except.ok.inj ran)
  refine ⟨fun next built => ?_, fits.finished⟩
  obtain ⟨_, rfl⟩ := (draft.outcome_eq_some_iff fresh next).mp built
  exact fits.successor fresh

end Fits

end Draft

/-- A difference assigns nothing. -/
theorem Effect.fits_of_mem_difference {held wanted : Holdings} {effect : Effect}
    (member : effect ∈ held.difference wanted) : effect.Fits := by
  have ofStep : ∀ lock count other, effect ∈ Holdings.steps lock count other → effect.Fits := by
    intro lock count other listed
    rcases List.mem_append.mp listed with released | acquired
    · rw [List.eq_of_mem_replicate released]
      trivial
    · rw [List.eq_of_mem_replicate acquired]
      trivial
  rcases List.mem_append.mp member with first | second
  · obtain ⟨entry, _, listed⟩ := List.mem_flatMap.mp first
    exact ofStep _ _ _ listed
  · obtain ⟨entry, _, listed⟩ := List.mem_flatMap.mp second
    exact ofStep _ _ _ listed

/-! ## Commands -/

/-- Whether an action assigns a count in range, if it assigns one. -/
def Action.Fits : Action → Prop
  | edit (.assign _ value) => value.toNat ≤ Trace.maxCounter
  | effect made => made.Fits
  | _ => True

/-- Whether what a command assigns is in range. What a text assigns is in any case. -/
def Command.Fits : Command → Prop
  | draft _ actions => ∀ action ∈ actions, action.Fits
  | effects _ batch => ∀ effect ∈ batch, effect.Fits
  | _ => True

namespace Session

/-- All states of a session fit. -/
def Fits (session : Session) : Prop := ∀ state ∈ session.states, state.Fits

/-- Do actions on a draft on counters of 32 bits. -/
def actOnWords? (session : Session) (draft : Draft) :
    List Action → Option (List Report × DraftEnd × Session)
  | [] => some ([], .completed, session)
  | .count lock :: rest =>
    (actOnWords? session draft rest).map fun (reports, ended, final) =>
      (.counted (draft.holdings.count lock) :: reports, ended, final)
  | .edit edit :: rest =>
    match edit.resolve? session.find? with
    | none => some ([], .noSuchState, session)
    | some edit => do
      match ← draft.editOnWords? edit with
      | .error misuse => return ([], .misused misuse, session)
      | .ok changed =>
        (actOnWords? session changed rest).map fun (reports, ended, final) =>
          (changeReport draft changed :: reports, ended, final)
  | .effect effect :: rest => do
    match ← draft.undergoOnWords? effect with
    | .error misuse => return ([], .misused misuse, session)
    | .ok changed =>
      (actOnWords? session changed rest).map fun (reports, ended, final) =>
        (changeReport draft changed :: reports, ended, final)
  | .build :: rest =>
    match draft.build session.fresh with
    | .error misuse => some ([], .misused misuse, session)
    | .ok (outcome, finished) =>
      (actOnWords? (session.recordAll [outcome]) finished rest).map
        fun (reports, ended, final) => (.built outcome finished :: reports, ended, final)

/-- Do actions on a draft of a state on counters of 32 bits and answer with their reports. -/
def draftFromOnWords? (session : Session) (origin : State) (actions : List Action) :
    Option (Answer × Session) :=
  (session.actOnWords? (.ofState origin) (Action.complete actions)).map fun
    | (reports, .completed, final) => (.reports reports none, final)
    | (reports, .misused misuse, final) => (.reports reports (some misuse), final)
    | (_, .noSuchState, final) => (.noSuchState, final)

/-- Answer with the outcome of a batch, unless it was refused. -/
def answerAfter (session : Session) (ran : Except Misuse (Option State))
    (answer : Option State → Answer) : Answer × Session :=
  match ran with
  | .error misuse => (.misuse misuse, session)
  | .ok outcome => (answer outcome, session.recordAll [outcome])

/-- Let effects act on a fresh draft of a state on counters of 32 bits, build it, and answer with
the outcome. -/
def successorOnWords? (session : Session) (origin : State) (effects : List Effect)
    (answer : Option State → Answer) : Option (Answer × Session) :=
  ((Draft.ofState origin).undergoAllOnWords? effects).map fun worked =>
    session.answerAfter (worked >>= fun draft => (draft.build session.fresh).map Prod.fst) answer

/-- Read a trace and replay it from a state on counters of 32 bits. -/
def traceFromOnWords? (session : Session) (origin : State) (text : String) (bound : Int) :
    Option (Answer × Session) :=
  match Trace.parse bound text with
  | .error error => some (.unreadable error, session)
  | .ok steps =>
    (Trace.replayOnWords? session.fresh origin steps).map fun outcomes =>
      (.replay steps outcomes, session.recordAll outcomes)

/-- Answer a command that names one state on counters of 32 bits. -/
def withStateOnWords? (session : Session) (serial : Int)
    (answer : State → Option (Answer × Session)) : Option (Answer × Session) :=
  match session.find? serial with
  | none => some (.noSuchState, session)
  | some state => answer state

/-- Answer one command on counters of 32 bits. Those that are not listed change no count. What they
subtract to compare counts stays in range (`Holdings.compareWords?_eq_some`). -/
def answerOnWords? (session : Session) : Command → Option (Answer × Session)
  | .draft origin actions =>
    session.withStateOnWords? origin fun origin => session.draftFromOnWords? origin actions
  | .effects origin effects =>
    session.withStateOnWords? origin fun origin =>
      session.successorOnWords? origin effects (.successor effects)
  | .trace origin text bound =>
    session.withStateOnWords? origin fun origin => session.traceFromOnWords? origin text bound
  | .reduce caller block reduction =>
    session.withStateOnWords? caller fun caller =>
      (reduction.reduceOnWords? session.fresh caller block).map fun reduced =>
        (.reduction reduced (Reduction.key reduced) reduction, session.record reduced)
  | .expand caller block final reduction =>
    session.withStateOnWords? caller fun caller =>
      session.withStateOnWords? final fun final =>
        (reduction.expandOnWords? session.fresh caller block final).map fun expanded =>
          (.reduction expanded (Reduction.key expanded) reduction, session.record expanded)
  | .difference source target =>
    session.withStateOnWords? source fun source =>
      session.withStateOnWords? target fun target =>
        let effects := source.holdings.difference target.holdings
        session.successorOnWords? source effects fun outcome =>
          .difference effects outcome (outcome.any (·.same target))
  | command => some (session.answer command)

/-- Answer commands in order on counters of 32 bits. -/
def runOnWords? (session : Session) : List Command → Option (List Answer × Session)
  | [] => some ([], session)
  | command :: rest => do
    let (answer, next) ← session.answerOnWords? command
    if answer.isLast then return ([answer], next)
    else (next.runOnWords? rest).map fun (answers, final) => (answer :: answers, final)

/-- The sessions that a program reaches on counters of 32 bits by commands that assign nothing out
of range. -/
def ReachableOnWords (session : Session) : Prop :=
  ∃ commands answers, (∀ command ∈ commands, Command.Fits command) ∧
    start.runOnWords? commands = some (answers, session)

namespace Fits

variable {session : Session} (fits : session.Fits)

include fits

/-- Recording a state that fits keeps all states fitting. -/
theorem record {state : State} (stateFits : state.Fits) : (session.record state).Fits := by
  rw [Session.record]
  split
  · exact List.forall_mem_append.mpr ⟨fits, List.forall_mem_singleton.mpr stateFits⟩
  · exact fits

/-- Recording the outcomes of some work does, if they fit. -/
theorem recordAll {outcomes : List (Option State)}
    (outcomesFit : ∀ state, some state ∈ outcomes → state.Fits) :
    (session.recordAll outcomes).Fits := by
  refine List.foldlRecOn (motive := fun later => later.Fits) _ Session.record fits ?_
  intro later laterFits state member
  obtain ⟨outcome, listed, rfl⟩ := List.mem_filterMap.mp member
  exact laterFits.record (outcomesFit state listed)

/-- Recording one outcome does. -/
theorem recordOutcome {outcome : Option State} (outcomeFits : ∀ state ∈ outcome, state.Fits) :
    (session.recordAll [outcome]).Fits :=
  fits.recordAll fun state listed => outcomeFits state (List.mem_singleton.mp listed).symm

/-- A state that is found fits. -/
theorem of_find? {serial : Int} {state : State} (found : session.find? serial = some state) :
    state.Fits :=
  fits state (mem_of_find? session serial state found)

/-- An action's edit fits once its root has been looked up. -/
theorem edit_of_resolve? {name : Edit Int} {edit : Edit State}
    (actionFits : (Action.edit name).Fits) (resolved : name.resolve? session.find? = some edit) :
    edit.Fits where
  assigned := by
    rintro lock count rfl
    cases name with
    | assign target value =>
      obtain ⟨_, rfl⟩ := Edit.assign.inj (Option.some.inj resolved)
      exact actionFits
    | attach serial | reinstate serial used | reapply serial used =>
      obtain ⟨root, _, made⟩ := Option.map_eq_some_iff.mp resolved
      cases made
    | _ => cases resolved
  root := fun root looked =>
    fits root (WellFormed.roots_of_resolve? name edit resolved root looked)

/-- Actions on a draft that fits leave the range or come to what they come to, and the states that
they make fit. -/
theorem actOnWords?_eq {draft : Draft} (draftFits : draft.Fits) {actions : List Action}
    (actionsFit : ∀ action ∈ actions, action.Fits) :
    InRange (session.actOnWords? draft actions) (session.act draft actions)
      (session.act draft actions).2.2.Fits := by
  induction actions generalizing session draft with
  | nil => exact Or.inr ⟨rfl, fits⟩
  | cons action rest inductionHypothesis =>
    obtain ⟨first, others⟩ := List.forall_mem_cons.mp actionsFit
    cases action with
    | count lock => exact (inductionHypothesis fits draftFits others).map _ id
    | edit name =>
      simp only [actOnWords?, act]
      cases resolved : name.resolve? session.find? with
      | none => exact Or.inr ⟨rfl, fits⟩
      | some edit =>
        simp only
        have editFits := fits.edit_of_resolve? first resolved
        refine (draftFits.editOnWords?_eq editFits).bind fun nextFits => ?_
        cases accepted : draft.edit edit with
        | error misuse => exact Or.inr ⟨rfl, fits⟩
        | ok changed =>
          exact (inductionHypothesis fits (nextFits changed accepted) others).map _ id
    | effect effect =>
      simp only [actOnWords?, act]
      refine (draftFits.undergoOnWords?_eq first).bind fun nextFits => ?_
      cases accepted : draft.undergo effect with
      | error misuse => exact Or.inr ⟨rfl, fits⟩
      | ok changed =>
        exact (inductionHypothesis fits (nextFits changed accepted) others).map _ id
    | build =>
      simp only [actOnWords?, act]
      cases ran : draft.build session.fresh with
      | error misuse => exact Or.inr ⟨rfl, fits⟩
      | ok built =>
        obtain ⟨outcome, finished⟩ := built
        obtain ⟨outcomeFits, finishedFits⟩ := draftFits.build ran
        exact (inductionHypothesis (fits.recordOutcome outcomeFits) finishedFits others).map _ id

/-- Work on a draft leaves the range or is answered as it is. -/
theorem draftFromOnWords?_eq {origin : State} (originFits : origin.Fits) {actions : List Action}
    (actionsFit : ∀ action ∈ actions, action.Fits) :
    InRange (session.draftFromOnWords? origin actions) (session.draftFrom origin actions)
      (session.draftFrom origin actions).2.Fits := by
  have completeFit : ∀ action ∈ Action.complete actions, action.Fits := by
    rw [Action.complete]
    split
    · exact actionsFit
    · exact List.forall_mem_append.mpr ⟨actionsFit, List.forall_mem_singleton.mpr trivial⟩
  have acted := fits.actOnWords?_eq (.ofState originFits) completeFit
  rw [draftFromOnWords?, draftFrom]
  rcases acted with left | ⟨same, final⟩
  · rw [left]
    exact Or.inl rfl
  · rw [same]
    generalize session.act (.ofState origin) (Action.complete actions) = acted at final
    obtain ⟨reports, ended, later⟩ := acted
    cases ended with
    | completed | noSuchState | misused misuse => exact Or.inr ⟨rfl, final⟩

/-- The successor of a state under effects leaves the range or is answered as it is. -/
theorem successorOnWords?_eq {origin : State} (originFits : origin.Fits) {effects : List Effect}
    (effectsFit : ∀ effect ∈ effects, effect.Fits) (answer : Option State → Answer) :
    InRange (session.successorOnWords? origin effects answer)
      (session.answerAfter (origin.after session.fresh effects) answer)
      (session.answerAfter (origin.after session.fresh effects) answer).2.Fits := by
  have steps : origin.after session.fresh effects = (Draft.ofState origin).undergoAll effects >>=
      fun reached => (reached.build session.fresh).map Prod.fst := rfl
  rw [successorOnWords?, steps]
  rcases (Draft.Fits.ofState originFits).undergoAllOnWords?_eq effectsFit with
    left | ⟨same, reachedFits⟩
  · rw [left]
    exact Or.inl rfl
  · rw [same]
    cases worked : (Draft.ofState origin).undergoAll effects with
    | error misuse => exact Or.inr ⟨rfl, fits⟩
    | ok reached =>
      refine Or.inr ⟨rfl, ?_⟩
      change (session.answerAfter ((reached.build session.fresh).map Prod.fst) answer).2.Fits
      cases built : reached.build session.fresh with
      | error misuse => exact fits
      | ok ending =>
        obtain ⟨outcome, finished⟩ := ending
        exact fits.recordOutcome ((reachedFits reached worked).build built).1

/-- A trace leaves the range or is answered as it is. -/
theorem traceFromOnWords?_eq {origin : State} (originFits : origin.Fits) (text : String)
    (bound : Int) :
    InRange (session.traceFromOnWords? origin text bound) (session.traceFrom origin text bound)
      (session.traceFrom origin text bound).2.Fits := by
  rw [traceFromOnWords?, traceFrom]
  cases read : Trace.parse bound text with
  | error error => exact Or.inr ⟨rfl, fits⟩
  | ok steps =>
    obtain ⟨outcomes, ran⟩ :=
      Trace.replay_of_valid session.fresh origin (Trace.valid_of_parse read)
    obtain ⟨leaves, stays⟩ :=
      Trace.replayOnWords?_eq originFits (Trace.fits_of_parse read) ran
    simp only [ran]
    exact (InRange.of_overflows leaves stays).map _ fits.recordAll

/-- A command that names a state is answered as it is if it is from any state that fits. -/
theorem withStateOnWords?_eq (serial : Int) {onWords : State → Option (Answer × Session)}
    {answer : State → Answer × Session}
    (answers : ∀ state, state.Fits → InRange (onWords state) (answer state) (answer state).2.Fits) :
    InRange (session.withStateOnWords? serial onWords) (session.withState serial answer)
      (session.withState serial answer).2.Fits := by
  rw [withStateOnWords?, withState]
  cases found : session.find? serial with
  | none => exact Or.inr ⟨rfl, fits⟩
  | some state => exact answers state (fits.of_find? found)

/-- Every answer on counters of 32 bits leaves their range or is the answer with counts of any
size, and then the states that it adds fit. -/
theorem answerOnWords?_eq {command : Command} (commandFits : command.Fits) :
    InRange (session.answerOnWords? command) (session.answer command)
      (session.answer command).2.Fits := by
  have named := fun serial answer => session.withState_keeps Fits serial answer fits
  cases command with
  | empty => exact Or.inr ⟨rfl, fits.record (State.fits_empty session.fresh)⟩
  | draft origin actions =>
    exact fits.withStateOnWords?_eq origin fun state stateFits =>
      fits.draftFromOnWords?_eq stateFits commandFits
  | effects origin effects =>
    exact fits.withStateOnWords?_eq origin fun state stateFits =>
      fits.successorOnWords?_eq stateFits commandFits _
  | trace origin text bound =>
    exact fits.withStateOnWords?_eq origin fun state stateFits =>
      fits.traceFromOnWords?_eq stateFits text bound
  | reduce caller block reduction =>
    refine fits.withStateOnWords?_eq caller fun state stateFits => ?_
    obtain ⟨same, reducedFits⟩ := reduction.reduceOnWords?_eq session.fresh stateFits block
    rw [same]
    exact Or.inr ⟨rfl, fits.record reducedFits⟩
  | expand caller block final reduction =>
    refine fits.withStateOnWords?_eq caller fun state stateFits =>
      fits.withStateOnWords?_eq final fun exit exitFits => ?_
    obtain ⟨leaves, stays⟩ := reduction.expandOnWords?_eq session.fresh stateFits block exitFits
    exact (InRange.of_overflows leaves stays).map _ fits.record
  | difference source target =>
    exact fits.withStateOnWords?_eq source fun state stateFits =>
      fits.withStateOnWords?_eq target fun other _ =>
        fits.successorOnWords?_eq stateFits (fun _ => Effect.fits_of_mem_difference) _
  | compare left right =>
    exact Or.inr ⟨rfl, named left _ fun _ _ => named right _ fun _ _ => fits⟩
  | query state locks => exact Or.inr ⟨rfl, named state _ fun _ _ => fits⟩
  | describe state => exact Or.inr ⟨rfl, named state _ fun _ _ => fits⟩
  | sort => exact Or.inr ⟨rfl, fits⟩

/-- So does every run. -/
theorem runOnWords?_eq {commands : List Command}
    (commandsFit : ∀ command ∈ commands, Command.Fits command) :
    InRange (session.runOnWords? commands) (session.run commands)
      (session.run commands).2.Fits := by
  induction commands generalizing session with
  | nil => exact Or.inr ⟨rfl, fits⟩
  | cons command rest inductionHypothesis =>
    obtain ⟨first, others⟩ := List.forall_mem_cons.mp commandsFit
    rw [runOnWords?, run]
    refine (fits.answerOnWords?_eq first).bind fun nextFits => ?_
    generalize session.answer command = answered at nextFits
    obtain ⟨answer, next⟩ := answered
    simp only
    split
    · exact Or.inr ⟨rfl, nextFits⟩
    · exact (inductionHypothesis nextFits others).map _ id

end Fits

/-- The states of the first session fit. -/
theorem fits_start : start.Fits := List.forall_mem_singleton.mpr (State.fits_empty 0)

/-- What a program reaches on counters of 32 bits is reached with counts of any size too, and the
counts of all its states, and of all that they return to, are in range. -/
theorem ReachableOnWords.reachable_and_fits {session : Session}
    (reachable : session.ReachableOnWords) : session.Reachable ∧ session.Fits := by
  obtain ⟨commands, answers, commandsFit, ran⟩ := reachable
  rcases fits_start.runOnWords?_eq commandsFit with left | ⟨same, fits⟩
  · cases left.symm.trans ran
  · have reached : start.run commands = (answers, session) :=
      Option.some.inj (same.symm.trans ran)
    rw [reached] at fits
    exact ⟨⟨commands, congrArg Prod.snd reached⟩, fits⟩

end Session

end HeldLocks
