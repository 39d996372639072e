import HeldLocks.Proofs.CounterReplays
import HeldLocks.Proofs.Interchange

/-!
# Replays are monotone

The bound that a trace is read with decides nothing but how often its acquisitions take effect:
read with another bound, a text has the same steps, and only its acquisitions carry the other
bound (`Trace.parse_rebound`).

One state is below another if it counts every lock at most as often, at every level of chains of
one length. Without checks nothing rules a path out, and every effect keeps the order. Local
effects do because they recount single locks by monotone functions, an acquisition even if the
bound above is looser than the one below: where the one above is saturated, the one below cannot
get past it (`Effect.recount_mono`). All others copy counts from chains that are in order
themselves. So drafts stay in order under batches (`Draft.Below.meetAll`), and what they are built
into is in order whichever of the two was led back to its origin.

On counters of 32 bits the same order tells which of the two runs can leave the range alone: only
the one above. Where the one below meets a lock at the largest counter, so does the one above, and
its bound stops it no sooner (`Session.overflows_of_below`).
-/

namespace HeldLocks

/-! ## Reading with another bound -/

namespace Effect

/-- The same effect with another bound, if it carries one. -/
def rebound (bound : Int) : Effect → Effect
  | acquire lock _ => acquire lock bound
  | effect => effect

/-- Whether an effect is a check. -/
def checks : Effect → Bool
  | check _ _ _ => true
  | _ => false

/-- Another bound makes no effect a call, and no call another effect. -/
theorem rebound_eq_save_iff (effect : Effect) (bound : Int) :
    effect.rebound bound = .save ↔ effect = .save := by
  cases effect <;> simp [rebound]

/-- With another bound an effect is about the same lock. -/
theorem lock?_rebound (effect : Effect) (bound : Int) :
    (effect.rebound bound).lock? = effect.lock? := by
  cases effect <;> rfl

/-- It restores as before. -/
theorem restores_rebound (effect : Effect) (bound : Int) :
    (effect.rebound bound).restores = effect.restores := by
  cases effect <;> rfl

/-- It checks as before. -/
theorem checks_rebound (effect : Effect) (bound : Int) :
    (effect.rebound bound).checks = effect.checks := by
  cases effect <;> rfl

/-- A local effect stays local. -/
theorem Local.rebound {effect : Effect} (isLocal : effect.Local) (bound : Int) :
    (effect.rebound bound).Local := by
  cases effect <;> exact isLocal

/-- A valid effect stays valid. -/
theorem Valid.rebound {effect : Effect} (valid : effect.Valid) (bound : Int) :
    (effect.rebound bound).Valid := by
  cases effect <;> exact valid

/-- An effect that fits still fits. -/
theorem Fits.rebound {effect : Effect} (fits : effect.Fits) (bound : Int) :
    (effect.rebound bound).Fits := by
  cases effect <;> exact fits

end Effect

namespace Trace

/-- The same directive with another bound. -/
def Directive.rebound (bound : Int) : Directive → Directive
  | effect carried => effect (carried.rebound bound)
  | commit => commit

/-- The same step with another bound. -/
def Step.rebound (bound : Int) (step : Step) : Step :=
  ⟨step.line, step.effects.map (Effect.rebound bound)⟩

/-- Words that mean a directive mean it with the other bound, if read under that. -/
theorem Means.rebound {bound : Int} {words : List String} {directive : Directive}
    (means : Means bound words directive) (other : Int) :
    Means other words (directive.rebound other) := by
  cases means with
  | acquire names => exact .acquire names
  | release names => exact .release names
  | forget names => exact .forget names
  | assign names spells => exact .assign names spells
  | restore names => exact .restore names
  | check names spells expected => exact .check names spells expected
  | restoreAll => exact .restoreAll
  | forgetAll => exact .forgetAll
  | save => exact .save
  | commit => exact .commit

/-- Words mean the same under every bound, up to the bound, or are blamed for the same. -/
theorem readLine_rebound (bound other : Int) (words : List String) :
    readLine other words = (readLine bound words).map (Option.map (Directive.rebound other)) := by
  obtain rfl | ⟨directive, means⟩ | ⟨fault, blames⟩ := means_or_blames bound words
  · rfl
  · rw [readLine_of_means means, readLine_of_means (means.rebound other)]
    rfl
  · rw [readLine_of_blames bound blames, readLine_of_blames other blames]
    rfl

/-- Under another bound the same lines are read, with that bound in their acquisitions. -/
theorem directivesFrom_rebound (bound other : Int) (number : Nat) (lines : List (List Char)) :
    directivesFrom other number lines = (directivesFrom bound number lines).map
      (List.map fun numbered => (numbered.1, numbered.2.rebound other)) := by
  fun_induction directivesFrom bound number lines with
  | case1 number => rfl
  | case2 number line rest fault rejected =>
    rw [directivesFrom, readLine_rebound bound other, rejected]
    rfl
  | case3 number line rest blank inductionHypothesis =>
    rw [directivesFrom, readLine_rebound bound other, blank]
    exact inductionHypothesis
  | case4 number line rest directive accepted inductionHypothesis =>
    rw [directivesFrom, readLine_rebound bound other, accepted]
    simp only [Except.map, Option.map_some, inductionHypothesis]
    cases directivesFrom bound (number + 1) rest <;> rfl

/-- A directive gets another bound by its effect. -/
theorem Directive.rebound_eq_map (other : Int) :
    Directive.rebound other = Directive.map (Effect.rebound other) := by
  funext directive
  cases directive <;> rfl

/-- Steps are formed without regard to bounds. -/
theorem stepsOf_rebound (other : Int) (directives : List (Nat × Directive)) :
    stepsOf (directives.map fun numbered => (numbered.1, numbered.2.rebound other)) =
      (stepsOf directives).map (Step.rebound other) := by
  rw [Directive.rebound_eq_map]
  exact stepsOf_map id (Effect.rebound other) directives

/-- Read with another bound, a text is refused with the same error, or has the same steps with
    that bound in place of the first. -/
theorem parse_rebound (bound other : Int) (text : String) :
    parse other text = (parse bound text).map (List.map (Step.rebound other)) := by
  rw [parse, parse, directivesFrom_rebound bound other]
  cases directivesFrom bound 1 (linesOf text) with
  | error error => rfl
  | ok directives => exact congrArg Except.ok (stepsOf_rebound other directives)

end Trace

/-! ## The order of states -/

/-- No lock is counted more often. -/
def Holdings.Below (low high : Holdings) : Prop := ∀ lock, low.count lock ≤ high.count lock

/-- No lock is counted more often at any level of chains that have one length. -/
def State.Below (low high : State) : Prop := List.Forall₂ Holdings.Below low.levels high.levels

/-- A state below one whose counts are in range has its counts in range. -/
theorem State.Below.fits {low high : State} (below : low.Below high) (canonical : low.Canonical)
    (fits : high.Fits) : low.Fits where
  canonical := canonical
  within := by
    have each : ∀ {lows highs : List Holdings}, List.Forall₂ Holdings.Below lows highs →
        (∀ held ∈ highs, ∀ lock, held.count lock ≤ Trace.maxCounter) →
          ∀ held ∈ lows, ∀ lock, held.count lock ≤ Trace.maxCounter := by
      intro lows highs ordered
      induction ordered with
      | nil => exact fun _ => List.forall_mem_nil _
      | cons first _ inductionHypothesis =>
        intro inRange
        obtain ⟨top, others⟩ := List.forall_mem_cons.mp inRange
        exact List.forall_mem_cons.mpr
          ⟨fun lock => Nat.le_trans (first lock) (top lock), inductionHypothesis others⟩
    have inRange : ∀ held ∈ high.levels, ∀ lock, held.count lock ≤ Trace.maxCounter :=
      List.forall_mem_map.mpr fun snapshot member => (fits.within snapshot member).count_le
    exact fun snapshot member lock _ =>
      each below inRange snapshot.holdings (List.mem_map_of_mem member) lock

/-- A bound is looser than another if it lets through every acquisition that the other does. -/
def Looser (tight loose : Int) : Prop := loose ≤ 0 ∨ 0 < tight ∧ tight ≤ loose

namespace Effect

/-- An effect recounts its lock by a monotone function, even under a looser bound. -/
theorem recount_mono (effect : Effect) {tight loose : Int} (looser : Looser tight loose)
    {held more : Nat} (below : held ≤ more) :
    (effect.rebound tight).recount held ≤ (effect.rebound loose).recount more := by
  cases effect with
  | acquire lock bound =>
    -- The bounds matter only where the larger count has reached its bound and the smaller has
    -- not: then the larger bound lies between the two counts.
    simp only [rebound, recount]
    unfold Looser at looser
    split <;> split <;> omega
  | release lock => exact Nat.sub_le_sub_right below 1
  | forget lock => exact Nat.le_refl 0
  | assign lock count => exact Nat.le_refl _
  | restore lock | check lock count expected | restoreAll | forgetAll | save => exact below

/-- With a looser bound and more to start from, no lock ends with less. -/
theorem recountAt_mono (effect : Effect) {tight loose : Int} (looser : Looser tight loose)
    (lock : Lock) {held more : Nat} (below : held ≤ more) :
    (effect.rebound tight).recountAt lock held ≤ (effect.rebound loose).recountAt lock more := by
  rw [recountAt, recountAt, lock?_rebound, lock?_rebound]
  split
  · exact effect.recount_mono looser below
  · exact below

end Effect

/-! ## Drafts in order -/

namespace Draft

/-- One draft is below another if all that it holds, at any level of its chains, is below what
    the other holds there. Both or neither are to return. -/
structure Below (low high : Draft) : Prop where
  /-- The states that the work started from. -/
  origin : low.origin.Below high.origin
  /-- The holdings so far. -/
  holdings : low.holdings.Below high.holdings
  /-- What the successors return to. -/
  saved : List.Forall₂ Holdings.Below (low.saved.map Snapshot.holdings)
    (high.saved.map Snapshot.holdings)
  /-- The marks. -/
  restored : low.restored = high.restored

/-- Without a check the stage stays what it is. -/
theorem status_meet_of_unchecked (draft : Draft) {effect : Effect}
    (unchecked : effect.checks = false) : (draft.meet effect).status = draft.status := by
  rcases draft.meet_eq_or_eq effect with same | changed
  · rw [same]
  · rw [changed, status_change]
    cases effect with
    | check lock count expected => cases unchecked
    | _ => rfl

namespace Below

/-- Drafts of states in order are in order. -/
protected theorem ofState {low high : State} (below : low.Below high) :
    (Draft.ofState low).Below (.ofState high) where
  origin := below
  holdings := (List.forall₂_cons.mp below).1
  saved := (List.forall₂_cons.mp below).2
  restored := rfl

section Callers

variable {low high : Draft} (below : low.Below high)

include below

/-- Either both drafts would return to nothing, or both to states in order. -/
theorem callers : low.saved = [] ∧ high.saved = [] ∨
    ∃ caller lows twin highs, low.saved = caller :: lows ∧ high.saved = twin :: highs ∧
      caller.holdings.Below twin.holdings := by
  have saved := below.saved
  cases lowSaved : low.saved with
  | nil =>
    cases highSaved : high.saved with
    | nil => exact Or.inl ⟨rfl, rfl⟩
    | cons twin highs =>
      rw [lowSaved, highSaved] at saved
      cases saved
  | cons caller lows =>
    cases highSaved : high.saved with
    | nil =>
      rw [lowSaved, highSaved] at saved
      cases saved
    | cons twin highs =>
      rw [lowSaved, highSaved] at saved
      exact Or.inr ⟨caller, lows, twin, highs, rfl, rfl, (List.forall₂_cons.mp saved).1⟩

/-- What is left to return to is in order, level by level. -/
theorem remaining : List.Forall₂ Holdings.Below (low.remaining.map Snapshot.holdings)
    (high.remaining.map Snapshot.holdings) := by
  rw [Draft.remaining, Draft.remaining, below.restored]
  split
  · rw [List.map_tail, List.map_tail, ← List.drop_one, ← List.drop_one]
    exact List.forall₂_drop 1 below.saved
  · exact below.saved

end Callers

variable {low high : Draft} (below : low.Below high) {tight loose : Int}
  (looser : Looser tight loose)

include below looser

/-- The holdings stay in order. -/
theorem holdings_meet (effect : Effect) :
    (low.meet (effect.rebound tight)).holdings.Below
      (high.meet (effect.rebound loose)).holdings := by
  have recounted (isLocal : effect.Local) :
      (low.meet (effect.rebound tight)).holdings.Below
        (high.meet (effect.rebound loose)).holdings := by
    intro lock
    rw [count_meet low (isLocal.rebound tight), count_meet high (isLocal.rebound loose)]
    exact effect.recountAt_mono looser lock (below.holdings lock)
  cases effect with
  | acquire lock bound | release lock | forget lock | assign lock count
  | check lock count expected => exact recounted trivial
  | restore lock =>
    intro tested
    change (low.restore lock).holdings.count tested ≤ (high.restore lock).holdings.count tested
    rw [count_restore, count_restore]
    split
    · rcases below.callers with ⟨lowClosed, highClosed⟩ | ⟨_, _, _, _, called, twinCalled, ordered⟩
      · rw [lowClosed, highClosed]
        exact below.holdings lock
      · rw [called, twinCalled]
        exact ordered lock
    · exact below.holdings tested
  | restoreAll =>
    change low.restoreAll.holdings.Below high.restoreAll.holdings
    rw [Draft.restoreAll, Draft.restoreAll]
    rcases below.callers with ⟨lowClosed, highClosed⟩ | ⟨_, _, _, _, called, twinCalled, ordered⟩
    · rw [lowClosed, highClosed]
      exact below.holdings
    · rw [called, twinCalled]
      exact ordered
  | forgetAll => exact fun _ => Nat.le_refl 0
  | save => exact below.holdings

/-- One effect keeps drafts in order, also if it carries a looser bound above. -/
protected theorem meet (effect : Effect) :
    (low.meet (effect.rebound tight)).Below (high.meet (effect.rebound loose)) where
  origin := by
    rw [origin_meet, origin_meet]
    exact below.origin
  holdings := below.holdings_meet looser effect
  saved := by
    simp only [saved_meet, Effect.rebound_eq_save_iff]
    split
    · exact below.origin
    · exact below.saved
  restored := by
    have closed : low.saved.isEmpty = high.saved.isEmpty := by
      rcases below.callers with ⟨lowClosed, highClosed⟩ | ⟨_, _, _, _, called, twinCalled, _⟩
      · rw [lowClosed, highClosed]
      · rw [called, twinCalled]
        rfl
    rw [restored_meet, restored_meet, Effect.restores_rebound, Effect.restores_rebound, closed,
      below.restored]

/-- A batch keeps drafts in order, with the bounds tight below and loose above. -/
theorem meetAll (effects : List Effect) :
    (low.meetAll (effects.map (Effect.rebound tight))).Below
      (high.meetAll (effects.map (Effect.rebound loose))) := by
  induction effects generalizing low high with
  | nil => exact below
  | cons effect rest inductionHypothesis => exact inductionHypothesis (below.meet looser effect)

end Below

/-- Under a looser bound, a draft above another overflows wherever that one does. -/
theorem overflowsAt_of_below {low high : Draft} (below : low.Below high) (fits : high.Fits)
    {tight loose : Int} (looser : Looser tight loose) (effect : Effect)
    (overflows : low.OverflowsAt (effect.rebound tight)) :
    high.OverflowsAt (effect.rebound loose) := by
  cases effect with
  | acquire lock bound =>
    obtain ⟨largest, unstopped⟩ := overflows
    have most := fits.count_le lock
    have least := below.holdings lock
    refine ⟨by omega, ?_⟩
    unfold Looser at looser
    omega
  | _ => exact overflows

/-- So it does under whole batches. -/
theorem overflows_of_rebound {low high : Draft} (below : low.Below high) (fits : high.Fits)
    {tight loose : Int} (looser : Looser tight loose) {effects : List Effect}
    (effectsFit : ∀ effect ∈ effects, effect.Fits)
    (overflows : low.Overflows (effects.map (Effect.rebound tight))) :
    high.Overflows (effects.map (Effect.rebound loose)) := by
  refine overflows.transfer (fun low high => low.Below high ∧ high.Fits) ?_ ?_
    ⟨below, fits⟩
  · exact fun effect _ low high ordered =>
      overflowsAt_of_below ordered.1 ordered.2 looser effect
  · intro effect member low high ordered fitting
    exact ⟨ordered.1.meet looser effect,
      ordered.2.meet ((effectsFit effect member).rebound loose) fitting⟩

/-- Without a check no path is ruled out. -/
theorem outcome_meetAll_ofState (state : State) (fresh : Nat) {effects : List Effect}
    (unchecked : ∀ effect ∈ effects, effect.checks = false) :
    ((Draft.ofState state).meetAll effects).outcome fresh =
      some (((Draft.ofState state).meetAll effects).successor fresh) := by
  have editing : ((Draft.ofState state).meetAll effects).status = .editing := by
    apply meetAll_keeps (fun reached => reached.status = .editing) _ _ rfl
    intro reached stage effect member
    rw [status_meet_of_unchecked reached (unchecked effect member), stage]
  rw [outcome, editing, if_neg Status.noConfusion]

end Draft

namespace Session

section Ordered

variable {session other : Session} {low high : State} (wellFormed : session.WellFormed)
  (otherWellFormed : other.WellFormed) (made : low ∈ session.states)
  (otherMade : high ∈ other.states) (below : low.Below high) {tight loose : Int}
  (looser : Looser tight loose)

include wellFormed otherWellFormed made otherMade below looser

/-- One batch on states in order leads to states in order. -/
theorem below_after {effects : List Effect} (valid : ∀ effect ∈ effects, effect.Valid)
    (unchecked : ∀ effect ∈ effects, effect.checks = false) :
    ∃ next twin, low.after session.fresh (effects.map (Effect.rebound tight)) = .ok (some next) ∧
      high.after other.fresh (effects.map (Effect.rebound loose)) = .ok (some twin) ∧
      next.Below twin := by
  have leads (state : State) (fresh : Nat) (bound : Int) :
      state.after fresh (effects.map (Effect.rebound bound)) = .ok (some
        (((Draft.ofState state).meetAll (effects.map (Effect.rebound bound))).successor
          fresh)) := by
    rw [state.after_of_valid, Draft.outcome_meetAll_ofState]
    · exact List.forall_mem_map.mpr fun effect member =>
        (effect.checks_rebound bound).trans (unchecked effect member)
    · exact List.forall_mem_map.mpr fun effect member => (valid effect member).rebound bound
  refine ⟨_, _, leads low _ tight, leads high _ loose, ?_⟩
  have drafts := (Draft.Below.ofState below).meetAll looser effects
  rw [State.Below, wellFormed.levels_successor
      (wellFormed.grounds_meetAll (wellFormed.grounds_ofState made) _),
    otherWellFormed.levels_successor
      (otherWellFormed.grounds_meetAll (otherWellFormed.grounds_ofState otherMade) _)]
  exact .cons drafts.holdings drafts.remaining

/-- One trace on states in order leads through states in order. The states are recorded, each in
its session, before the next step is taken. -/
theorem below_replay {steps : List Trace.Step}
    (valid : ∀ step ∈ steps, ∀ effect ∈ step.effects, effect.Valid)
    (unchecked : ∀ step ∈ steps, ∀ effect ∈ step.effects, effect.checks = false) :
    ∃ states twins,
      Trace.replay session.fresh low (steps.map (Trace.Step.rebound tight)) =
        .ok (states.map some) ∧
      Trace.replay other.fresh high (steps.map (Trace.Step.rebound loose)) =
        .ok (twins.map some) ∧
      states.length = steps.length ∧ List.Forall₂ State.Below states twins := by
  induction steps generalizing session other low high with
  | nil => exact ⟨[], [], rfl, rfl, rfl, .nil⟩
  | cons step rest inductionHypothesis =>
    obtain ⟨stepValid, restValid⟩ := List.forall_mem_cons.mp valid
    obtain ⟨stepUnchecked, restUnchecked⟩ := List.forall_mem_cons.mp unchecked
    obtain ⟨next, twin, ran, otherRan, nexts⟩ := below_after wellFormed otherWellFormed made
      otherMade below looser stepValid stepUnchecked
    obtain ⟨nextWellFormed, nextMade, nextFresh⟩ := wellFormed.record_after made _ ran
    obtain ⟨twinWellFormed, twinMade, twinFresh⟩ :=
      otherWellFormed.record_after otherMade _ otherRan
    obtain ⟨states, twins, later, otherLater, sameLength, ordered⟩ :=
      inductionHypothesis nextWellFormed twinWellFormed nextMade twinMade nexts restValid
        restUnchecked
    rw [nextFresh] at later
    rw [twinFresh] at otherLater
    refine ⟨next :: states, twin :: twins, ?_, ?_, congrArg (· + 1) sameLength,
      .cons nexts ordered⟩
    · simp only [List.map_cons, Trace.replay, Trace.Step.rebound, ran, later, Except.map]
    · simp only [List.map_cons, Trace.replay, Trace.Step.rebound, otherRan, otherLater,
        Except.map]

/-- One trace on states in order leaves the range of counters below only if it does above. The
states are recorded, each in its session, before the next step is taken. -/
theorem overflows_of_below (fits : high.Fits) {steps : List Trace.Step}
    (valid : ∀ step ∈ steps, ∀ effect ∈ step.effects, effect.Valid)
    (effectsFit : ∀ step ∈ steps, ∀ effect ∈ step.effects, effect.Fits)
    (unchecked : ∀ step ∈ steps, ∀ effect ∈ step.effects, effect.checks = false)
    (overflows : Trace.Overflows session.fresh low (steps.map (Trace.Step.rebound tight))) :
    Trace.Overflows other.fresh high (steps.map (Trace.Step.rebound loose)) := by
  refine overflows.transfer (fun fresh state others twin =>
    ∃ session other : Session, session.WellFormed ∧ other.WellFormed ∧ session.fresh = fresh ∧
      other.fresh = others ∧ state ∈ session.states ∧ twin ∈ other.states ∧ state.Below twin ∧
      twin.Fits) ?_ ?_
    ⟨session, other, wellFormed, otherWellFormed, rfl, rfl, made, otherMade, below, fits⟩
  · rintro step member _ state _ twin ⟨_, _, _, _, _, _, _, _, below, fits⟩
    exact Draft.overflows_of_rebound (.ofState below) (.ofState fits) looser
      (effectsFit step member)
  · rintro step member _ state _ twin next ⟨session, other, wellFormed, otherWellFormed, rfl, rfl,
      made, otherMade, below, fits⟩ fitting stepped
    obtain ⟨reached, twinNext, ran, otherRan, nexts⟩ := below_after wellFormed otherWellFormed made
      otherMade below looser (valid step member) (unchecked step member)
    obtain rfl := Option.some.inj (Except.ok.inj (ran.symm.trans stepped))
    obtain ⟨nextWellFormed, nextMade, nextFresh⟩ := wellFormed.record_after made _ ran
    obtain ⟨twinWellFormed, twinMade, twinFresh⟩ :=
      otherWellFormed.record_after otherMade _ otherRan
    have reboundFit : ∀ effect ∈ (step.rebound loose).effects, effect.Fits :=
      List.forall_mem_map.mpr fun effect listed =>
        (effectsFit step member effect listed).rebound loose
    have twinFits := ((fits.afterOnWords?_eq reboundFit otherRan).2 fitting).2 twinNext rfl
    exact ⟨twinNext, otherRan, _, _, nextWellFormed, twinWellFormed, nextFresh, twinFresh,
      nextMade, twinMade, nexts, twinFits⟩

end Ordered

/-- Replays are monotone in the bound and in the state they start from. Let a text without checks
be read with two bounds of which the second is looser, and let a state be below another, both
recorded, be it in one session or in two. The counts of the other are in the range of 32 bits, as
they are in a program (`Session.ReachableOnWords.reachable_and_fits`).

* On counters of 32 bits the second replay leaves the range exactly if it reaches an acquisition
  that no bound stops and that meets its lock at the largest counter. With a positive bound in
  range it does not. And the first replay leaves the range only if the second does.
* Otherwise neither replay rules the path out, both take all steps of the text, and after every
  step the state of the first is below that of the second: their chains have one length, and no
  lock is counted more often at any level.

Proof: the two readings differ in the bounds only. An effect with the first bound and the same
effect with the second keep drafts in order, and so do batches; and what a draft is built into
holds at every level what the draft says, whether it is new or shared. -/
theorem replay_monotone {session other : Session} (reachable : session.Reachable)
    (otherReachable : other.Reachable) {low high : State} (made : low ∈ session.states)
    (otherMade : high ∈ other.states) (below : low.Below high) (fits : high.Fits)
    {tight loose : Int} (looser : Looser tight loose) {text : String} {steps : List Trace.Step}
    (read : Trace.parse tight text = .ok steps)
    (unchecked : ∀ lock count expected,
      ¬ Trace.Asks tight text (.effect (.check lock count expected)))
    {fresh otherFresh : Nat} (unused : session.fresh ≤ fresh)
    (otherUnused : other.fresh ≤ otherFresh) :
    ∃ others, Trace.parse loose text = .ok others ∧
      (Trace.Overflows otherFresh high others →
        Trace.replayOnWords? otherFresh high others = none) ∧
      (0 < loose → loose ≤ Trace.maxCounter → ¬ Trace.Overflows otherFresh high others) ∧
      (¬ Trace.Overflows otherFresh high others →
        ∃ states twins,
          Trace.replayOnWords? fresh low steps = some (states.map some) ∧
          Trace.replayOnWords? otherFresh high others = some (twins.map some) ∧
          Trace.replay fresh low steps = .ok (states.map some) ∧
          Trace.replay otherFresh high others = .ok (twins.map some) ∧
          states.length = steps.length ∧ List.Forall₂ State.Below states twins) := by
  obtain ⟨later, laterWellFormed, grown, rfl⟩ := reachable.wellFormed.exists_later unused
  obtain ⟨otherLater, otherLaterWellFormed, otherGrown, rfl⟩ :=
    otherReachable.wellFormed.exists_later otherUnused
  have readAgain (bound : Int) :
      Trace.parse bound text = .ok (steps.map (Trace.Step.rebound bound)) := by
    rw [Trace.parse_rebound tight bound, read]
    rfl
  have carried : steps.map (Trace.Step.rebound tight) = steps :=
    Except.ok.inj ((readAgain tight).symm.trans read)
  have noChecks : ∀ step ∈ steps, ∀ effect ∈ step.effects, effect.checks = false := by
    intro step formed effect member
    cases effect with
    | check lock count expected =>
      have asked := (Trace.asks_iff_of_parse read _).mpr ⟨step, formed, member⟩
      exact absurd asked (unchecked lock count expected)
    | _ => rfl
  have valid := Trace.valid_of_parse read
  have effectsFit := Trace.fits_of_parse read
  obtain ⟨states, twins, ran, otherRan, sameLength, ordered⟩ :=
    below_replay laterWellFormed otherLaterWellFormed (grown made) (otherGrown otherMade) below
      looser valid noChecks
  have overflowsAbove := overflows_of_below laterWellFormed otherLaterWellFormed (grown made)
    (otherGrown otherMade) below looser fits valid effectsFit noChecks
  rw [carried] at ran overflowsAbove
  have lowFits := below.fits (reachable.wellFormed.canonical_chain made) fits
  obtain ⟨_, stays⟩ := Trace.replayOnWords?_eq lowFits effectsFit ran
  obtain ⟨otherLeaves, otherStays⟩ :=
    Trace.replayOnWords?_eq fits (Trace.fits_of_parse (readAgain loose)) otherRan
  refine ⟨_, readAgain loose, otherLeaves, fun positive inRange =>
    Trace.not_overflows_of_bounded positive inRange (readAgain loose) _ high, fun fitting => ?_⟩
  exact ⟨states, twins, (stays fun overflows => fitting (overflowsAbove overflows)).1,
    (otherStays fitting).1, ran, otherRan, sameLength, ordered⟩

/-- A lock is held once below and twice above, and so in the states that the calls return to. Two
acquisitions reach the bound below and then the bound above, an assignment passes both, and the
lock is restored to what it was. In the end it is not held below and held once above. -/
theorem saturated_call_stays_below :
    ∃ others states twins,
      Trace.parse 3 "acquire a\nacquire a\ncommit\nset a 4\ncommit\nrestore a\nrelease a" =
        .ok others ∧
      Trace.replayOnWords? 5 ⟨⟨3, ⟨[(.ofName "a", 1)]⟩⟩, [⟨1, ⟨[(.ofName "a", 1)]⟩⟩]⟩
          [⟨3, [.acquire (.ofName "a") 2, .acquire (.ofName "a") 2]⟩,
            ⟨5, [.assign (.ofName "a") 4]⟩,
            ⟨7, [.restore (.ofName "a"), .release (.ofName "a")]⟩] =
        some (states.map some) ∧
      Trace.replayOnWords? 9 ⟨⟨4, ⟨[(.ofName "a", 2)]⟩⟩, [⟨2, ⟨[(.ofName "a", 2)]⟩⟩]⟩ others =
        some (twins.map some) ∧
      states.map State.levels = [[⟨[(.ofName "a", 2)]⟩, ⟨[(.ofName "a", 1)]⟩],
        [⟨[(.ofName "a", 4)]⟩, ⟨[(.ofName "a", 1)]⟩], [.empty]] ∧
      List.Forall₂ State.Below states twins := by
  obtain ⟨session, reachable, unused, made, otherMade⟩ : ∃ session : Session,
      session.Reachable ∧ session.fresh = 5 ∧
        ⟨⟨3, ⟨[(.ofName "a", 1)]⟩⟩, [⟨1, ⟨[(.ofName "a", 1)]⟩⟩]⟩ ∈ session.states ∧
        ⟨⟨4, ⟨[(.ofName "a", 2)]⟩⟩, [⟨2, ⟨[(.ofName "a", 2)]⟩⟩]⟩ ∈ session.states :=
    ⟨(start.run [.effects 0 [.acquire (.ofName "a") 0], .effects 1 [.acquire (.ofName "a") 0],
      .effects 1 [.save], .effects 2 [.save]]).2, ⟨_, rfl⟩, rfl,
      List.mem_of_getElem? (i := 3) rfl, List.mem_of_getElem? (i := 4) rfl⟩
  have fewer : Holdings.Below ⟨[(.ofName "a", 1)]⟩ ⟨[(.ofName "a", 2)]⟩ := by
    intro lock
    simp only [Holdings.count, Holdings.countIn]
    split <;> omega
  have read : Trace.parse 2
      "acquire a\nacquire a\ncommit\nset a 4\ncommit\nrestore a\nrelease a" =
        .ok [⟨3, [.acquire (.ofName "a") 2, .acquire (.ofName "a") 2]⟩,
          ⟨5, [.assign (.ofName "a") 4]⟩,
          ⟨7, [.restore (.ofName "a"), .release (.ofName "a")]⟩] := rfl
  have unchecked (lock count expected) := (Trace.asks_iff_of_parse read
    (.check lock count expected)).not.mpr (by simp)
  have fits : State.Fits ⟨⟨4, ⟨[(.ofName "a", 2)]⟩⟩, [⟨2, ⟨[(.ofName "a", 2)]⟩⟩]⟩ :=
    State.fits_of_entries (reachable.wellFormed.canonical_chain otherMade) (by decide)
  obtain ⟨others, otherRead, _, bounded, stays⟩ :=
    replay_monotone reachable reachable made otherMade (.cons fewer (.cons fewer .nil)) fits
      (Or.inr ⟨by decide, by decide⟩ : Looser 2 3) read unchecked (Nat.le_of_eq unused)
      (Nat.le_trans (Nat.le_of_eq unused) (by decide : 5 ≤ 9))
  obtain ⟨states, twins, same, otherSame, ran, _, _, ordered⟩ :=
    stays (bounded (by decide) (by decide))
  refine ⟨others, states, twins, otherRead, same, otherSame, ?_, ordered⟩
  have reached : states = [⟨⟨5, ⟨[(.ofName "a", 2)]⟩⟩, [⟨1, ⟨[(.ofName "a", 1)]⟩⟩]⟩,
      ⟨⟨6, ⟨[(.ofName "a", 4)]⟩⟩, [⟨1, ⟨[(.ofName "a", 1)]⟩⟩]⟩, ⟨⟨7, .empty⟩, []⟩] :=
    List.map_injective_iff.mpr (fun _ _ => Option.some.inj) (Except.ok.inj (ran.symm.trans rfl))
  rw [reached]
  rfl

end Session

end HeldLocks
