import HeldLocks.Proofs.Replays

/-!
# Calls and returns

A step opens a call if it saves the state and restores no lock, and returns from a call if
it restores a lock and does not save. In a balanced trace every call that is opened is
returned from, calls lying within calls to any depth; a step that does neither may stand
anywhere. `Trace.Balanced.keepsChain` is the law behind the main results: a feasible
balanced trace ends with the very chain it started with.

So a call whose last step does nothing but restore locks comes to this: the restored locks
have the counts they had at the call, the others keep theirs, and the state returns to the
very state that the caller returns to.

A single batch may both restore and save. There the order does not count. The state is
remembered exactly if no lock is restored while a call is open, be it before the saving or
after it.
-/

namespace HeldLocks

namespace Trace

/-! ## Balanced traces -/

/-- A step that neither saves the state nor restores a single lock. -/
def Step.Plain (step : Step) : Prop :=
  .save ∉ step.effects ∧ ∀ lock, .restore lock ∉ step.effects

/-- A step that opens a call: it saves the state and restores no single lock. -/
def Step.Opens (step : Step) : Prop :=
  .save ∈ step.effects ∧ ∀ lock, .restore lock ∉ step.effects

/-- A step that returns from a call: it restores some lock and does not save. -/
def Step.Closes (step : Step) : Prop :=
  (∃ lock, .restore lock ∈ step.effects) ∧ .save ∉ step.effects

/-- The step that opens a call leads to a state that returns to the very caller. -/
theorem Step.Opens.saved_after {step : Step} (opens : step.Opens) (caller next : State)
    (fresh : Nat) (descending : Descending caller.chain)
    (ran : caller.after fresh step.effects = .ok (some next)) : next.saved = caller.chain := by
  refine State.saved_after_of_save caller next fresh _ descending opens.1 ?_ ran
  rintro ⟨earlier, lock, later, split, _⟩
  exact opens.2 lock (split ▸ List.mem_append_right _ List.mem_cons_self)

/-- A trace keeps the chain if it ends with the very chain that it starts with, from
whatever recorded state it is replayed, unless some step rules the path out. -/
def KeepsChain (steps : List Step) : Prop :=
  ∀ (session : Session) (state last : State) (outcomes : List (Option State)),
    session.WellFormed → state ∈ session.states →
      replay session.fresh state steps = .ok outcomes →
        exit? state outcomes = some last → last.saved = state.saved

/-- A call up to the point before the step that returns from it. If the body keeps the
chain, the state there returns to the very caller. -/
theorem KeepsChain.before_return {body : List Step} (keeps : KeepsChain body)
    {session : Session} (wellFormed : session.WellFormed) {caller last : State}
    (made : caller ∈ session.states) {entry : Step} (opens : entry.Opens)
    {rest : List Step} {outcomes : List (Option State)}
    (ran : replay session.fresh caller (entry :: (body ++ rest)) = .ok outcomes)
    (ends : exit? caller outcomes = some last) :
    ∃ earlier before later, outcomes = earlier ++ later ∧ earlier ≠ [] ∧
      exit? caller earlier = some before ∧ before.saved = caller.chain ∧
      (session.recordAll earlier).WellFormed ∧ before ∈ (session.recordAll earlier).states ∧
      replay (session.recordAll earlier).fresh before rest = .ok later ∧
      exit? before later = some last := by
  obtain ⟨entered, inner, stepped, enteredWellFormed, enteredMade, enteredRan, rfl,
      enteredEnds⟩ := wellFormed.replay_cons made ran ends
  have pushed : entered.saved = caller.chain :=
    opens.saved_after caller entered _ (wellFormed.descending made) stepped
  obtain ⟨inside, before, later, bodyRan, bodyEnds, beforeWellFormed, beforeMade,
      laterRan, rfl, laterEnds⟩ :=
    enteredWellFormed.replay_append enteredMade enteredRan enteredEnds
  have handedOn : before.saved = caller.chain :=
    (keeps _ _ _ _ enteredWellFormed enteredMade bodyRan bodyEnds).trans pushed
  exact ⟨some entered :: inside, before, later, rfl, List.cons_ne_nil _ _,
    (exit?_cons caller entered inside).trans bodyEnds, handedOn, beforeWellFormed,
    beforeMade, laterRan, laterEnds⟩

/-- Plain steps and complete calls in any order, calls within calls included. -/
inductive Balanced : List Step → Prop
  /-- Nothing is done. -/
  | done : Balanced []
  /-- A plain step comes first. -/
  | plain {step : Step} {rest : List Step} :
      step.Plain → Balanced rest → Balanced (step :: rest)
  /-- A call comes first: a step that opens it, its body, a step that returns. -/
  | call {entry exit : Step} {body rest : List Step} :
      entry.Opens → Balanced body → exit.Closes → Balanced rest →
      Balanced (entry :: (body ++ exit :: rest))

/-- Balanced traces keep the chain.

The induction follows the nesting. A call pushes its caller; its body, by the induction
hypothesis, hands that chain on; and the step that returns pops the caller, so that the
rest of the trace starts from the chain that the call started from. -/
theorem Balanced.keepsChain {steps : List Step} (balanced : Balanced steps) :
    KeepsChain steps := by
  induction balanced with
  | done =>
    intro session state last outcomes wellFormed made ran ends
    obtain rfl := Except.ok.inj ran
    obtain rfl := Option.some.inj ends
    rfl
  | plain isPlain _ restKeeps =>
    intro session state last outcomes wellFormed made ran ends
    obtain ⟨next, later, stepped, nextWellFormed, nextMade, nextRan, rfl, nextEnds⟩ :=
      wellFormed.replay_cons made ran ends
    rw [restKeeps _ _ _ _ nextWellFormed nextMade nextRan nextEnds]
    exact State.saved_after_of_plain state next _ _ isPlain.1 isPlain.2 stepped
  | call opens _ closes _ bodyKeeps restKeeps =>
    intro session caller last outcomes wellFormed made ran ends
    obtain ⟨earlier, before, later, rfl, _, _, handedOn, beforeWellFormed, beforeMade,
        laterRan, laterEnds⟩ := bodyKeeps.before_return wellFormed made opens ran ends
    obtain ⟨returned, others, exited, returnedWellFormed, returnedMade, returnedRan, rfl,
        returnedEnds⟩ := beforeWellFormed.replay_cons beforeMade laterRan laterEnds
    obtain ⟨⟨lock, restores⟩, unsaved⟩ := closes
    have popped : returned.saved = caller.saved :=
      State.saved_after_of_return before returned caller _ _ (wellFormed.descending made)
        handedOn unsaved restores exited
    rw [restKeeps _ _ _ _ returnedWellFormed returnedMade returnedRan returnedEnds]
    exact popped

end Trace

/-! ## Returning from a call -/

/-- A batch that does nothing but restore locks gives them the counts of the state to
return to, however often each is named, and leaves all other counts alone. -/
theorem Draft.count_meetAll_restore (draft : Draft) (locks : List Lock) (caller : Snapshot)
    (below : List Snapshot) (called : draft.saved = caller :: below) (tested : Lock) :
    (draft.meetAll (locks.map Effect.restore)).holdings.count tested =
      if tested ∈ locks then caller.holdings.count tested else draft.holdings.count tested := by
  induction locks generalizing draft with
  | nil => simp [meetAll]
  | cons lock rest inductionHypothesis =>
    have restored : draft.meet (.restore lock) = draft.restore lock := rfl
    have stillCalled : (draft.restore lock).saved = caller :: below := by
      simp [restore, called]
    have here : (draft.restore lock).holdings.count tested =
        if tested = lock then caller.holdings.count lock else draft.holdings.count tested := by
      rw [draft.count_restore, called]
    rw [List.map_cons, meetAll_cons, restored, inductionHypothesis _ stillCalled, here]
    by_cases later : tested ∈ rest
    · simp [later]
    · by_cases same : tested = lock
      · simp [same]
      · simp [later, same]

/-- The last step of a call, if it only restores locks, seen from the state before it. -/
theorem State.after_restores (caller before final : State) (fresh : Nat) (locks : List Lock)
    (descending : Descending caller.chain) (called : before.saved = caller.chain)
    (nonempty : locks ≠ [])
    (ran : before.after fresh (locks.map Effect.restore) = .ok (some final)) :
    final.saved = caller.saved ∧
      ∀ lock, final.holdings.count lock =
        if lock ∈ locks then caller.holdings.count lock else before.holdings.count lock := by
  constructor
  · obtain ⟨lock, member⟩ := List.exists_mem_of_ne_nil locks nonempty
    refine saved_after_of_return before final caller fresh _ descending called ?_
      (List.mem_map_of_mem member) ran
    simp
  · intro lock
    obtain rfl := successor_of_after before final fresh _ ran
    rw [Draft.holdings_successor]
    exact (Draft.ofState before).count_meetAll_restore locks caller.toSnapshot caller.saved
      called lock

namespace Session

/-- Calls nest like a stack. A feasible call, its body balanced to any depth, whose last
step only restores locks leads to a state that returns to the very state that the caller
returns to. Each restored lock has its count at the call and every other lock the count
it had before the last step. So a call that restores all that is held at its two ends
leads to the same state as the caller's.

Proof: the first step makes the caller the state to return to, and the balanced body hands
that chain on. Restoring therefore reads the caller's counts, and building pops the
caller. Canonical holdings with equal counts are equal. -/
theorem call_returns_to_caller {session : Session} (reachable : session.Reachable)
    {caller : State} (made : caller ∈ session.states) {entry : Trace.Step}
    (opens : entry.Opens) {body : List Trace.Step} (balanced : Trace.Balanced body)
    (line : Nat) {locks : List Lock} (nonempty : locks ≠ [])
    {outcomes : List (Option State)}
    (ran : Trace.replay session.fresh caller
      (entry :: (body ++ [⟨line, locks.map Effect.restore⟩])) = .ok outcomes)
    (feasible : none ∉ outcomes) :
    ∃ earlier before final, outcomes = earlier ++ [some before, some final] ∧
      final.restore? = caller.restore? ∧
      (∀ lock ∈ locks, final.holdings.count lock = caller.holdings.count lock) ∧
      (∀ lock, lock ∉ locks → final.holdings.count lock = before.holdings.count lock) ∧
      ((∀ lock, lock ∈ caller.holdings ∨ lock ∈ before.holdings → lock ∈ locks) →
        final.same caller = true) := by
  have wellFormed := reachable.wellFormed
  obtain ⟨last, ends⟩ := Trace.exit?_of_feasible caller outcomes feasible
  obtain ⟨upToReturn, before, later, rfl, someStep, beforeEnds, handedOn, beforeWellFormed,
      beforeMade, laterRan, laterEnds⟩ :=
    balanced.keepsChain.before_return wellFormed made opens ran ends
  obtain ⟨final, others, exited, finalWellFormed, finalMade, finalRan, rfl, finalEnds⟩ :=
    beforeWellFormed.replay_cons beforeMade laterRan laterEnds
  obtain rfl : others = [] := (Except.ok.inj finalRan).symm
  obtain ⟨popped, counted⟩ := State.after_restores caller before final _ locks
    (wellFormed.descending made) handedOn nonempty exited
  obtain ⟨earlier, rfl⟩ := Trace.eq_append_of_exit? caller before upToReturn someStep beforeEnds
  refine ⟨earlier, before, final, ?_, ?_, ?_, ?_, ?_⟩
  · rw [List.append_assoc]
    rfl
  · simp only [State.restore?, popped]
  · intro lock member
    rw [counted, if_pos member]
  · intro lock absent
    rw [counted, if_neg absent]
  · intro covers
    refine State.same_of_holdings final caller ?_ popped
    refine (finalWellFormed.canonical final finalMade).ext (wellFormed.canonical caller made) ?_
    intro lock
    rw [counted]
    split
    next => rfl
    next absent =>
      have outside : lock ∉ caller.holdings ∧ lock ∉ before.holdings :=
        not_or.mp fun held => absent (covers lock held)
      rw [Holdings.count_of_not_mem _ _ outside.1, Holdings.count_of_not_mem _ _ outside.2]

/-- A call within a call. The caller holds `a` once; the inner call and a plain step lie
between the opening of the outer call and the return that restores both locks. -/
theorem nested_call_returns :
    ∃ outcomes, Trace.replay 2 ⟨⟨1, ⟨[(.ofName "a", 1)]⟩⟩, []⟩
      [⟨1, [.acquire (.ofName "a") 0, .save]⟩, ⟨2, [.save, .acquire (.ofName "b") 0]⟩,
        ⟨3, [.restore (.ofName "a"), .restoreAll]⟩, ⟨4, [.assign (.ofName "b") 3]⟩,
        ⟨5, [.restore (.ofName "b"), .restore (.ofName "a")]⟩] = .ok outcomes ∧
    ∃ earlier before final, outcomes = earlier ++ [some before, some final] ∧
      final.restore? = none ∧ final.holdings.count (.ofName "a") = 1 := by
  have reachable : (start.run [.effects 0 [.acquire (.ofName "a") 0]]).2.Reachable := ⟨_, rfl⟩
  have opens : Trace.Step.Opens ⟨1, [.acquire (.ofName "a") 0, .save]⟩ :=
    ⟨by decide, by simp⟩
  have body : Trace.Balanced (⟨2, [.save, .acquire (.ofName "b") 0]⟩ :: ([] ++
      ⟨3, [.restore (.ofName "a"), .restoreAll]⟩ :: [⟨4, [.assign (.ofName "b") 3]⟩])) :=
    .call ⟨by decide, by simp⟩ .done ⟨⟨.ofName "a", by simp⟩, by decide⟩
      (.plain ⟨by decide, by simp⟩ .done)
  have nonempty : [Lock.ofName "b", Lock.ofName "a"] ≠ [] := List.cons_ne_nil _ _
  obtain ⟨earlier, before, final, shape, returned, restored, _, _⟩ :=
    call_returns_to_caller reachable (List.mem_cons_of_mem _ List.mem_cons_self) opens body 5
      nonempty rfl (by decide)
  exact ⟨_, rfl, earlier, before, final, shape, returned, restored _ (by simp)⟩

/-! ## Saving and restoring in one batch -/

/-- What becomes of a save. In a batch that saves, the state it leads to returns to the
very state it started from exactly if the batch restores no lock while a call is open,
whatever else it does and in whatever order. If it does restore one, the successor returns
to where the state itself returns to, and what was saved is lost.

Proof: the saved chain is set at once, but the mark of a restored lock is heeded only when
the draft is built, and then takes the top off whatever chain is there by then. -/
theorem save_kept_iff {session : Session} (reachable : session.Reachable)
    {state next : State} (made : state ∈ session.states) {effects : List Effect}
    (saves : .save ∈ effects)
    (ran : state.after session.fresh effects = .ok (some next)) :
    (next.restore? = some state ↔ ¬ (Draft.ofState state).Returns effects) ∧
      ((Draft.ofState state).Returns effects → next.restore? = state.restore?) := by
  have descending := reachable.wellFormed.descending made
  have lost : (Draft.ofState state).Returns effects → next.restore? = state.restore? := by
    intro returns
    have saved := State.saved_after_of_lost_save state next _ effects saves returns ran
    simp only [State.restore?, saved]
  refine ⟨⟨?_, ?_⟩, lost⟩
  · intro remembered returns
    exact state.restore?_ne_self ((lost returns).symm.trans remembered)
  · intro unreturned
    have saved := State.saved_after_of_save state next _ effects descending saves unreturned ran
    simp only [State.restore?, saved]
    exact state.ofChain?_chain

/-- Restoring a lock before saving, where no call is open, does not harm the save. -/
theorem save_kept_without_call :
    (State.empty 0).after start.fresh [.restore (.ofName "a"), .save] =
        .ok (some ⟨⟨1, .empty⟩, [⟨0, .empty⟩]⟩) ∧
      State.restore? ⟨⟨1, .empty⟩, [⟨0, .empty⟩]⟩ = some (State.empty 0) := by
  have ran : (State.empty 0).after start.fresh [.restore (.ofName "a"), .save] =
      .ok (some ⟨⟨1, .empty⟩, [⟨0, .empty⟩]⟩) := rfl
  refine ⟨ran, (save_kept_iff ⟨[], rfl⟩ List.mem_cons_self (by decide) ran).1.mpr ?_⟩
  rw [Draft.returns_cons, Draft.returns_cons]
  rintro (⟨_, opened⟩ | ⟨isRestore, _⟩ | nothing)
  · exact opened rfl
  · exact nomatch isRestore
  · exact Draft.not_returns_nil _ nothing

/-- It is not so that a save wins whenever no lock is restored after it. Where a call is
open, restoring a lock and then saving leads back to the state itself. -/
theorem save_lost_after_restore :
    ¬ ∀ (session : Session) (state next : State) (earlier later : List Effect),
      session.Reachable → state ∈ session.states → (∀ lock, .restore lock ∉ later) →
        state.after session.fresh (earlier ++ .save :: later) = .ok (some next) →
          next.restore? = some state := by
  intro always
  have opened : (start.run [.effects 0 [.save]]).2.Reachable := ⟨_, rfl⟩
  have itself := always _ ⟨⟨1, .empty⟩, [⟨0, .empty⟩]⟩ ⟨⟨1, .empty⟩, [⟨0, .empty⟩]⟩
    [.restore (.ofName "a")] [] opened (List.mem_cons_of_mem _ List.mem_cons_self)
    (fun _ => List.not_mem_nil) rfl
  exact State.restore?_ne_self _ itself

end Session

end HeldLocks
