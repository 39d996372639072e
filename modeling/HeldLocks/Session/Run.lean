import HeldLocks.Effect.Difference
import HeldLocks.Session.Basic
import HeldLocks.Session.Command
import HeldLocks.Trace.Replay

/-!
# Running sessions

Commands are answered one after the other, each on the states recorded so far. A number
that is not in use is answered as such and the session goes on; a misuse of a draft ends
it. States that were made before a misuse, or before a number that is not in use, stay
recorded.
-/

namespace HeldLocks.Session

/-- How a sequence of actions on a draft ends. -/
inductive DraftEnd where
  /-- All actions were done. -/
  | completed
  /-- An action named a state that is not recorded. -/
  | noSuchState
  /-- An action was refused. -/
  | misused (misuse : Misuse)

/-- What a change of a draft is reported as, by what it has added to the record. -/
def changeReport (before after : Draft) : Report :=
  let touches := after.touches.take (after.touches.length - before.touches.length)
  .changed after (touches.foldl (fun sum touch => sum + touch.acquisitions) 0)
    (touches.foldl (fun sum touch => sum + touch.releases) 0)

/-- Do actions on a draft, up to the first that cannot be done. Gives the reports of those
    that were done and the session with the states that they made. -/
def act (session : Session) (draft : Draft) : List Action → List Report × DraftEnd × Session
  | [] => ([], .completed, session)
  | .count lock :: rest =>
    let (reports, ended, final) := act session draft rest
    (.counted (draft.holdings.count lock) :: reports, ended, final)
  | .edit edit :: rest =>
    match edit.resolve? session.find? with
    | none => ([], .noSuchState, session)
    | some edit =>
      match draft.edit edit with
      | .error misuse => ([], .misused misuse, session)
      | .ok changed =>
        let (reports, ended, final) := act session changed rest
        (changeReport draft changed :: reports, ended, final)
  | .effect effect :: rest =>
    match draft.undergo effect with
    | .error misuse => ([], .misused misuse, session)
    | .ok changed =>
      let (reports, ended, final) := act session changed rest
      (changeReport draft changed :: reports, ended, final)
  | .build :: rest =>
    match draft.build session.fresh with
    | .error misuse => ([], .misused misuse, session)
    | .ok (outcome, finished) =>
      let (reports, ended, final) := act (session.recordAll [outcome]) finished rest
      (.built outcome finished :: reports, ended, final)

/-- Do actions on a draft of a state and answer with their reports. -/
def draftFrom (session : Session) (origin : State) (actions : List Action) : Answer × Session :=
  match session.act (.ofState origin) (Action.complete actions) with
  | (reports, .completed, final) => (.reports reports none, final)
  | (reports, .misused misuse, final) => (.reports reports (some misuse), final)
  | (_, .noSuchState, final) => (.noSuchState, final)

/-- Make the successor of a state under effects. -/
def effectsFrom (session : Session) (origin : State) (effects : List Effect) :
    Answer × Session :=
  match origin.after session.fresh effects with
  | .error misuse => (.misuse misuse, session)
  | .ok outcome => (.successor effects outcome, session.recordAll [outcome])

/-- Read a trace and replay it from a state. -/
def traceFrom (session : Session) (origin : State) (text : String) (bound : Int) :
    Answer × Session :=
  match Trace.parse bound text with
  | .error error => (.unreadable error, session)
  | .ok steps =>
    match Trace.replay session.fresh origin steps with
    | .error misuse => (.misuse misuse, session)
    | .ok outcomes => (.replay steps outcomes, session.recordAll outcomes)

/-- Find the difference of two states and replay it. -/
def differenceFrom (session : Session) (source target : State) : Answer × Session :=
  let effects := source.holdings.difference target.holdings
  match source.after session.fresh effects with
  | .error misuse => (.misuse misuse, session)
  | .ok outcome =>
    (.difference effects outcome (outcome.any (·.same target)), session.recordAll [outcome])

/-- Answer a command that names one state. -/
def withState (session : Session) (serial : Int) (answer : State → Answer × Session) :
    Answer × Session :=
  match session.find? serial with
  | none => (.noSuchState, session)
  | some state => answer state

/-- Answer one command. -/
def answer (session : Session) : Command → Answer × Session
  | .empty =>
    let state := State.empty session.fresh
    (.state state, session.record state)
  | .draft origin actions =>
    session.withState origin fun origin => session.draftFrom origin actions
  | .effects origin effects =>
    session.withState origin fun origin => session.effectsFrom origin effects
  | .trace origin text bound =>
    session.withState origin fun origin => session.traceFrom origin text bound
  | .reduce caller block reduction =>
    session.withState caller fun caller =>
      let reduced := reduction.reduce session.fresh caller block
      (.reduction reduced (Reduction.key reduced) reduction, session.record reduced)
  | .expand caller block final reduction =>
    session.withState caller fun caller =>
      session.withState final fun final =>
        let expanded := reduction.expand session.fresh caller block final
        (.reduction expanded (Reduction.key expanded) reduction, session.record expanded)
  | .difference source target =>
    session.withState source fun source =>
      session.withState target fun target => session.differenceFrom source target
  | .compare left right =>
    session.withState left fun left =>
      session.withState right fun right => (.comparison (left.comparison right), session)
  | .query state locks =>
    session.withState state fun state =>
      (.counts (locks.map fun lock =>
        (state.holdings.count lock, decide (lock ∈ state.holdings))), session)
  | .describe state => session.withState state fun state => (.description state, session)
  | .sort => (.numbers (session.sorted.map fun state => state.serial), session)

/-- Answer commands in order, up to the first whose answer ends the session. -/
def run (session : Session) : List Command → List Answer × Session
  | [] => ([], session)
  | command :: rest =>
    let (answer, next) := session.answer command
    if answer.isLast then ([answer], next)
    else
      let (answers, final) := next.run rest
      (answer :: answers, final)

/-- What every answer keeps is kept by every run. -/
theorem run_keeps {Kept : Session → Prop}
    (answerKeeps : ∀ session command, Kept session → Kept (session.answer command).2)
    (session : Session) (kept : Kept session) (commands : List Command) :
    Kept (session.run commands).2 := by
  induction commands generalizing session with
  | nil => exact kept
  | cons command rest inductionHypothesis =>
    have next := answerKeeps session command kept
    simp only [run]
    split
    · exact next
    · exact inductionHypothesis _ next

/-- The sessions that commands lead to. -/
def Reachable (session : Session) : Prop := ∃ commands, (start.run commands).2 = session

/-- What holds at the start and is kept by every answer holds of every reachable session. -/
theorem Reachable.induction {Kept : Session → Prop} (started : Kept start)
    (answerKeeps : ∀ session command, Kept session → Kept (session.answer command).2)
    {session : Session} (reachable : session.Reachable) : Kept session := by
  obtain ⟨commands, rfl⟩ := reachable
  exact run_keeps answerKeeps start started commands

end HeldLocks.Session
