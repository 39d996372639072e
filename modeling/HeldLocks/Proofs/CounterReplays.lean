import HeldLocks.Proofs.Counters

/-!
# Replays on counters of 32 bits

Effects ask for edits, so what `HeldLocks.Proofs.Counters` says of edits carries over to effects,
to batches of them and to replays. Only an acquisition computes a counter that can leave the
range, and only if no bound stops it at the largest counter (`Draft.OverflowsAt`). A batch
overflows if one of its effects does at the draft that those before it lead to
(`Draft.Overflows`), and a trace if one of its steps does (`Trace.Overflows`).

From states whose counts are in range, a batch or a replay on counters leaves the range exactly if
it overflows, and otherwise comes to what it comes to, with all counts still in range
(`State.Fits.afterOnWords?_eq`, `Trace.replayOnWords?_eq`).

Two runs can be compared in this too. If runs are related, and wherever the one overflows the other
does, then so it is for whole batches and traces, as long as the other run stays in range
(`Draft.Overflows.transfer`, `Trace.Overflows.transfer`).
-/

namespace HeldLocks

/-! ## Effects -/

/-- Whether an effect assigns a count in range, if it assigns one. -/
def Effect.Fits : Effect → Prop
  | assign _ count => count.toNat ≤ Trace.maxCounter
  | _ => True

/-- The edit that an effect asks for fits if the effect does. -/
theorem Effect.Fits.asked {effect : Effect} (fits : effect.Fits) : effect.asked.Fits where
  assigned := by
    rintro lock count asks
    cases effect with
    | assign target value =>
      obtain ⟨_, rfl⟩ := Edit.assign.inj asks
      exact fits
    | _ => cases asks
  root := by
    rw [effect.root?_asked]
    exact fun root looked => by cases looked

/-- An effect that can be written fits. -/
theorem Effect.Representable.fits {bound : Int} {effect : Effect}
    (representable : effect.Representable bound) : effect.Fits := by
  cases effect with
  | assign lock count => exact Int.toNat_le.mpr representable.2.2
  | _ => trivial

namespace Draft

/-- The holdings that an effect leaves, on counters of 32 bits. Those that compute no counter
forget or copy some. -/
def holdingsOnWords? (draft : Draft) : Effect → Option Holdings
  | .acquire lock bound =>
    if 0 < bound ∧ bound ≤ draft.holdings.count lock then some draft.holdings
    else draft.holdings.acquireOnWords? lock 1
  | .release lock => draft.holdings.releaseOnWords? lock 1
  | .assign lock count => draft.holdings.assignOnWords? lock count.toNat
  | effect => some (draft.meet effect).holdings

/-- What an effect does to a draft that does not refuse it, on counters of 32 bits. -/
def meetOnWords? (draft : Draft) (effect : Effect) : Option Draft :=
  (draft.holdingsOnWords? effect).map fun holdings => { draft.meet effect with holdings }

/-- What a batch does to a draft that refuses none of its effects, on counters of 32 bits. -/
def meetAllOnWords? (draft : Draft) (effects : List Effect) : Option Draft :=
  effects.foldlM meetOnWords? draft

/-- Whether an effect is an acquisition that no bound stops and that meets its lock at the largest
counter. -/
def OverflowsAt (draft : Draft) : Effect → Prop
  | .acquire lock bound =>
    draft.holdings.count lock = Trace.maxCounter ∧ ¬ (0 < bound ∧ bound ≤ Trace.maxCounter)
  | _ => False

/-- Whether one of some effects is such an acquisition at the draft that those before it lead to. -/
def Overflows (draft : Draft) (effects : List Effect) : Prop :=
  ∃ earlier effect later, effects = earlier ++ effect :: later ∧
    (draft.meetAll earlier).OverflowsAt effect

/-- An effect that asks for no edit leaves the holdings as they are. -/
theorem meetOnWords?_of_none (draft : Draft) {effect : Effect}
    (asksNothing : effect.edit? draft.holdings = none) :
    draft.meetOnWords? effect = some (draft.meet effect) ∧ ¬ draft.OverflowsAt effect := by
  have untouched : draft.meet effect = draft := by
    rw [meet, asksNothing]
  have holdings (same : draft.holdingsOnWords? effect = some draft.holdings) :
      draft.meetOnWords? effect = some (draft.meet effect) := by
    rw [meetOnWords?, same, untouched]
    rfl
  cases effect with
  | acquire lock bound =>
    have saturated : 0 < bound ∧ bound ≤ draft.holdings.count lock := by
      simpa [Effect.edit?] using asksNothing
    refine ⟨holdings (if_pos saturated), ?_⟩
    rintro ⟨atMost, unstopped⟩
    exact unstopped (atMost ▸ saturated)
  | check lock count expected =>
    have copied : some (draft.meet (.check lock count expected)).holdings =
        some draft.holdings := by
      rw [untouched]
    exact ⟨holdings copied, id⟩
  | _ => cases asksNothing

/-- An effect that asks for an edit does what the edit does, and overflows if the edit does. -/
theorem meetOnWords?_of_some (draft : Draft) {effect : Effect} {edit : Edit State}
    (asks : effect.edit? draft.holdings = some edit) :
    draft.meetOnWords? effect = draft.changeOnWords? edit ∧ draft.meet effect = draft.change edit ∧
      (draft.OverflowsAt effect ↔ draft.OverflowsUnder edit) := by
  have changed : draft.meet effect = draft.change edit := by
    rw [meet, asks]
  have holdings (same : draft.holdingsOnWords? effect = draft.changedOnWords? edit) :
      draft.meetOnWords? effect = draft.changeOnWords? edit := by
    rw [meetOnWords?, changeOnWords?, same, changed]
  have copied : some (draft.meet effect).holdings = some (draft.change edit).holdings := by
    rw [changed]
  obtain rfl := effect.asked_of_edit? draft.holdings edit asks
  cases effect with
  | acquire lock bound =>
    have unsaturated : ¬ (0 < bound ∧ bound ≤ draft.holdings.count lock) := by
      intro saturated
      rw [Effect.edit?, if_pos saturated] at asks
      cases asks
    refine ⟨holdings (if_neg unsaturated), changed, And.left, fun atMost => ⟨atMost, ?_⟩⟩
    have largest : draft.holdings.count lock = Trace.maxCounter := atMost
    exact largest ▸ unsaturated
  | release lock | assign lock count => exact ⟨holdings rfl, changed, Iff.rfl⟩
  | forget lock | restore lock | check lock count expected | restoreAll | forgetAll | save =>
    exact ⟨holdings copied, changed, Iff.rfl⟩

namespace Fits

variable {draft : Draft} (fits : draft.Fits)

include fits

/-- On counters of 32 bits an effect leaves the range exactly if it overflows, and otherwise does
what it does and keeps all in range. -/
theorem meetOnWords?_eq {effect : Effect} (effectFits : effect.Fits) :
    (draft.OverflowsAt effect → draft.meetOnWords? effect = none) ∧
      (¬ draft.OverflowsAt effect →
        draft.meetOnWords? effect = some (draft.meet effect) ∧ (draft.meet effect).Fits) := by
  cases asks : effect.edit? draft.holdings with
  | none =>
    obtain ⟨same, never⟩ := draft.meetOnWords?_of_none asks
    refine ⟨fun overflows => absurd overflows never, fun _ => ⟨same, ?_⟩⟩
    rw [meet, asks]
    exact fits
  | some edit =>
    obtain ⟨same, changed, overflowsIff⟩ := draft.meetOnWords?_of_some asks
    have editFits : edit.Fits := effect.asked_of_edit? draft.holdings edit asks ▸ effectFits.asked
    rw [overflowsIff, same, changed]
    exact fits.changeOnWords?_eq editFits

/-- An effect that does not overflow keeps all in range. -/
protected theorem meet {effect : Effect} (effectFits : effect.Fits)
    (fitting : ¬ draft.OverflowsAt effect) : (draft.meet effect).Fits :=
  ((fits.meetOnWords?_eq effectFits).2 fitting).2

end Fits

/-! ## Batches -/

variable {draft : Draft}

/-- Nothing overflows in an empty batch. -/
theorem not_overflows_nil (draft : Draft) : ¬ draft.Overflows [] := by
  rintro ⟨earlier, effect, later, split, _⟩
  exact List.append_ne_nil_of_right_ne_nil earlier (List.cons_ne_nil _ later) split.symm

/-- The first effect of a batch overflows, or leaves it to the others. -/
theorem overflows_cons (draft : Draft) (effect : Effect) (rest : List Effect) :
    draft.Overflows (effect :: rest) ↔
      draft.OverflowsAt effect ∨ (draft.meet effect).Overflows rest := by
  constructor
  · rintro ⟨earlier, decisive, later, split, overflows⟩
    cases earlier with
    | nil =>
      obtain ⟨rfl, rfl⟩ := List.cons.inj split
      exact Or.inl overflows
    | cons first others =>
      obtain ⟨rfl, rfl⟩ := List.cons.inj split
      exact Or.inr ⟨others, decisive, later, rfl, overflows⟩
  · rintro (overflows | ⟨earlier, decisive, later, rfl, overflows⟩)
    · exact ⟨[], effect, rest, rfl, overflows⟩
    · exact ⟨effect :: earlier, decisive, later, rfl, overflows⟩

/-- If drafts are related, and wherever an effect overflows at the one its counterpart does at the
other, then so it is for batches. The relation has to be kept only while the other stays in
range. -/
theorem Overflows.transfer (Related : Draft → Draft → Prop) {here there : Effect → Effect}
    {effects : List Effect}
    (leaves : ∀ effect ∈ effects, ∀ left right, Related left right →
      left.OverflowsAt (here effect) → right.OverflowsAt (there effect))
    (keeps : ∀ effect ∈ effects, ∀ left right, Related left right →
      ¬ right.OverflowsAt (there effect) →
        Related (left.meet (here effect)) (right.meet (there effect)))
    {left right : Draft} (related : Related left right)
    (overflows : left.Overflows (effects.map here)) : right.Overflows (effects.map there) := by
  induction effects generalizing left right with
  | nil => exact absurd overflows left.not_overflows_nil
  | cons effect rest inductionHypothesis =>
    obtain ⟨leavesFirst, leavesLater⟩ := List.forall_mem_cons.mp leaves
    obtain ⟨keepsFirst, keepsLater⟩ := List.forall_mem_cons.mp keeps
    rw [List.map_cons, overflows_cons] at overflows ⊢
    by_cases first : right.OverflowsAt (there effect)
    · exact Or.inl first
    · rcases overflows with now | later
      · exact Or.inl (leavesFirst left right related now)
      · exact Or.inr (inductionHypothesis leavesLater keepsLater
          (keepsFirst left right related first) later)

/-- On counters of 32 bits a batch leaves the range exactly if it overflows, and otherwise does
what it does and keeps all in range. -/
theorem Fits.meetAllOnWords?_eq (fits : draft.Fits) {effects : List Effect}
    (effectsFit : ∀ effect ∈ effects, effect.Fits) :
    (draft.Overflows effects → draft.meetAllOnWords? effects = none) ∧
      (¬ draft.Overflows effects →
        draft.meetAllOnWords? effects = some (draft.meetAll effects) ∧
          (draft.meetAll effects).Fits) := by
  induction effects generalizing draft with
  | nil => exact ⟨fun overflows => (not_overflows_nil draft overflows).elim, fun _ => ⟨rfl, fits⟩⟩
  | cons effect rest inductionHypothesis =>
    obtain ⟨first, others⟩ := List.forall_mem_cons.mp effectsFit
    obtain ⟨leaves, stays⟩ := fits.meetOnWords?_eq first
    rw [overflows_cons, meetAllOnWords?, List.foldlM_cons]
    by_cases here : draft.OverflowsAt effect
    · rw [leaves here]
      exact ⟨fun _ => rfl, fun fitting => absurd (Or.inl here) fitting⟩
    · obtain ⟨reached, reachedFits⟩ := stays here
      obtain ⟨leavesLater, staysOn⟩ := inductionHypothesis reachedFits others
      rw [reached, or_iff_right here]
      exact ⟨leavesLater, staysOn⟩

end Draft

/-- The successor of a state under a batch that is not refused, on counters of 32 bits. -/
def State.afterOnWords? (state : State) (fresh : Nat) (effects : List Effect) :
    Option (Option State) :=
  ((Draft.ofState state).meetAllOnWords? effects).map fun draft => draft.outcome fresh

/-- On counters of 32 bits a batch leaves the range exactly if it overflows, and otherwise has the
same outcome, which is in range. -/
theorem State.Fits.afterOnWords?_eq {state : State} (fits : state.Fits) {fresh : Nat}
    {effects : List Effect} (effectsFit : ∀ effect ∈ effects, effect.Fits)
    {outcome : Option State} (ran : state.after fresh effects = .ok outcome) :
    ((Draft.ofState state).Overflows effects → state.afterOnWords? fresh effects = none) ∧
      (¬ (Draft.ofState state).Overflows effects →
        state.afterOnWords? fresh effects = some outcome ∧ ∀ next ∈ outcome, next.Fits) := by
  obtain ⟨leaves, stays⟩ := (Draft.Fits.ofState fits).meetAllOnWords?_eq effectsFit
  obtain rfl := State.outcome_of_after state fresh effects outcome ran
  constructor
  · intro overflows
    rw [afterOnWords?, leaves overflows]
    rfl
  · intro fitting
    obtain ⟨reached, reachedFits⟩ := stays fitting
    refine ⟨by rw [afterOnWords?, reached]; rfl, fun next built => ?_⟩
    obtain ⟨_, rfl⟩ := (Draft.outcome_eq_some_iff _ fresh next).mp built
    exact reachedFits.successor fresh

/-! ## Replays -/

namespace Trace

/-- The outcome of every step of a replay that is not refused, on counters of 32 bits. -/
def replayOnWords? (fresh : Nat) (start : State) : List Step → Option (List (Option State))
  | [] => some []
  | step :: rest =>
    match start.afterOnWords? fresh step.effects with
    | none => none
    | some none => some [none]
    | some (some next) =>
      (replayOnWords? (next.nextFresh fresh) next rest).map (some next :: ·)

/-- Whether a step, taken from the state that those before it lead to, overflows. -/
def Overflows (fresh : Nat) (start : State) (steps : List Step) : Prop :=
  ∃ earlier step later outcomes state, steps = earlier ++ step :: later ∧
    replay fresh start earlier = .ok outcomes ∧ exit? start outcomes = some state ∧
    (Draft.ofState state).Overflows step.effects

/-- Nothing overflows in a trace without steps. -/
theorem not_overflows_nil (fresh : Nat) (start : State) : ¬ Overflows fresh start [] := by
  rintro ⟨earlier, step, later, _, _, split, _⟩
  exact List.append_ne_nil_of_right_ne_nil earlier (List.cons_ne_nil _ later) split.symm

/-- The first step of a trace overflows, or leaves it to the others. -/
theorem overflows_cons (fresh : Nat) (start : State) (step : Step) (rest : List Step) :
    Overflows fresh start (step :: rest) ↔
      (Draft.ofState start).Overflows step.effects ∨
        ∃ next, start.after fresh step.effects = .ok (some next) ∧
          Overflows (next.nextFresh fresh) next rest := by
  constructor
  · rintro ⟨earlier, decisive, later, outcomes, state, split, ran, ends, overflows⟩
    cases earlier with
    | nil =>
      obtain ⟨rfl, rfl⟩ := List.cons.inj split
      obtain rfl := Except.ok.inj ran
      obtain rfl := Option.some.inj ends
      exact Or.inl overflows
    | cons first others =>
      obtain ⟨rfl, rfl⟩ := List.cons.inj split
      obtain ⟨next, reached, stepped, othersRan, _, othersEnd⟩ :=
        replay_cons fresh start state step others outcomes ran ends
      exact Or.inr ⟨next, stepped, others, decisive, later, reached, state, rfl, othersRan,
        othersEnd, overflows⟩
  · rintro (overflows | ⟨next, stepped, earlier, decisive, later, outcomes, state, rfl, ran, ends,
      overflows⟩)
    · exact ⟨[], step, rest, [], start, rfl, rfl, rfl, overflows⟩
    · refine ⟨step :: earlier, decisive, later, some next :: outcomes, state, rfl, ?_, ?_,
        overflows⟩
      · rw [replay, stepped]
        simp only [ran, Except.map]
      · rw [exit?_cons]
        exact ends

/-- If states are related, and wherever a step overflows at the one its counterpart does at the
other, then so it is for traces. The relation has to be kept only while the other stays in
range. -/
theorem Overflows.transfer (Related : Nat → State → Nat → State → Prop)
    {here there : Step → Step} {steps : List Step}
    (leaves : ∀ step ∈ steps, ∀ fresh state other twin, Related fresh state other twin →
      (Draft.ofState state).Overflows (here step).effects →
        (Draft.ofState twin).Overflows (there step).effects)
    (keeps : ∀ step ∈ steps, ∀ fresh state other twin next, Related fresh state other twin →
      ¬ (Draft.ofState twin).Overflows (there step).effects →
      state.after fresh (here step).effects = .ok (some next) →
        ∃ twinNext, twin.after other (there step).effects = .ok (some twinNext) ∧
          Related (next.nextFresh fresh) next (twinNext.nextFresh other) twinNext)
    {fresh other : Nat} {state twin : State} (related : Related fresh state other twin)
    (overflows : Overflows fresh state (steps.map here)) :
    Overflows other twin (steps.map there) := by
  induction steps generalizing fresh state other twin with
  | nil => exact absurd overflows (not_overflows_nil fresh state)
  | cons step rest inductionHypothesis =>
    obtain ⟨leavesFirst, leavesLater⟩ := List.forall_mem_cons.mp leaves
    obtain ⟨keepsFirst, keepsLater⟩ := List.forall_mem_cons.mp keeps
    rw [List.map_cons, overflows_cons] at overflows ⊢
    by_cases first : (Draft.ofState twin).Overflows (there step).effects
    · exact Or.inl first
    · rcases overflows with now | ⟨next, stepped, later⟩
      · exact Or.inl (leavesFirst fresh state other twin related now)
      · obtain ⟨twinNext, twinStepped, nextRelated⟩ :=
          keepsFirst fresh state other twin next related first stepped
        exact Or.inr ⟨twinNext, twinStepped,
          inductionHypothesis leavesLater keepsLater nextRelated later⟩

/-- On counters of 32 bits a replay leaves the range exactly if it overflows, and otherwise has the
same outcomes, which are in range. -/
theorem replayOnWords?_eq {start : State} (fits : start.Fits) {fresh : Nat} {steps : List Step}
    (effectsFit : ∀ step ∈ steps, ∀ effect ∈ step.effects, effect.Fits)
    {outcomes : List (Option State)} (ran : replay fresh start steps = .ok outcomes) :
    (Overflows fresh start steps → replayOnWords? fresh start steps = none) ∧
      (¬ Overflows fresh start steps →
        replayOnWords? fresh start steps = some outcomes ∧
          ∀ state, some state ∈ outcomes → state.Fits) := by
  induction steps generalizing fresh start outcomes with
  | nil =>
    obtain rfl := Except.ok.inj ran
    refine ⟨fun overflows => (not_overflows_nil fresh start overflows).elim, fun _ => ⟨rfl, ?_⟩⟩
    exact fun state reached => absurd reached List.not_mem_nil
  | cons step rest inductionHypothesis =>
    obtain ⟨first, others⟩ := List.forall_mem_cons.mp effectsFit
    rw [overflows_cons, replayOnWords?]
    rcases replay_cons_cases ran with ⟨stepped, rfl⟩ | ⟨next, later, stepped, othersRan, rfl⟩
    · obtain ⟨leaves, stays⟩ := fits.afterOnWords?_eq first stepped
      constructor
      · rintro (here | ⟨next, led, _⟩)
        · rw [leaves here]
        · cases stepped.symm.trans led
      · intro fitting
        rw [(stays fun here => fitting (Or.inl here)).1]
        refine ⟨rfl, fun state reached => ?_⟩
        cases List.mem_singleton.mp reached
    · obtain ⟨leaves, stays⟩ := fits.afterOnWords?_eq first stepped
      by_cases here : (Draft.ofState start).Overflows step.effects
      · rw [leaves here]
        exact ⟨fun _ => rfl, fun fitting => absurd (Or.inl here) fitting⟩
      · obtain ⟨reached, nextFits⟩ := stays here
        obtain ⟨leavesLater, staysOn⟩ :=
          inductionHypothesis (nextFits next rfl) others othersRan
        have further : (∃ other, start.after fresh step.effects = .ok (some other) ∧
            Overflows (other.nextFresh fresh) other rest) ↔
              Overflows (next.nextFresh fresh) next rest := by
          simp only [stepped, Except.ok.injEq, Option.some.injEq, exists_eq_left']
        rw [reached, or_iff_right here, further]
        constructor
        · intro overflows
          simp only [leavesLater overflows, Option.map_none]
        · intro fitting
          obtain ⟨same, allFit⟩ := staysOn fitting
          simp only [same, Option.map_some, List.mem_cons, Option.some.injEq]
          refine ⟨trivial, ?_⟩
          rintro state (rfl | member)
          · exact nextFits state rfl
          · exact allFit state member

/-! ## Texts -/

/-- What a text makes a program do fits. -/
theorem fits_of_parse {bound : Int} {text : String} {steps : List Step}
    (read : parse bound text = .ok steps) :
    ∀ step ∈ steps, ∀ effect ∈ step.effects, effect.Fits :=
  fun step member effect listed => (representable_of_parse bound text steps read step.effects
    (List.mem_map_of_mem member) effect listed).fits

/-- A positive bound stops every acquisition of a text in time. -/
theorem not_overflows_of_bounded {bound : Int} (positive : 0 < bound)
    (inRange : bound ≤ maxCounter) {text : String} {steps : List Step}
    (read : parse bound text = .ok steps) (fresh : Nat) (start : State) :
    ¬ Overflows fresh start steps := by
  rintro ⟨earlier, step, later, _, _, rfl, _, _, front, effect, behind, split, overflows⟩
  have carried := representable_of_parse bound text _ read step.effects
    (List.mem_map_of_mem (List.mem_append_right _ List.mem_cons_self)) effect
    (split ▸ List.mem_append_right _ List.mem_cons_self)
  cases effect with
  | acquire lock carries =>
    obtain rfl := carried.2
    exact overflows.2 ⟨positive, inRange⟩
  | _ => exact overflows

end Trace

end HeldLocks
