import HeldLocks.Proofs.Edits
import HeldLocks.Proofs.Levels
import HeldLocks.Proofs.Replays
import Mathlib.Data.List.Forall2

/-!
# Equal states are interchangeable

Of two states that are the same, one may be thrown away only if nothing that is done
afterwards can tell which one was kept. The two may have different numbers, and so may all
that they return to.

Drafts of such states are alike: they have the same holdings, and the same at every level of
the chains (`Draft.Alike`). Every edit keeps this, and so does every effect, since neither
reads a number. Only building compares numbers, and in a session that comparison comes out
as one of levels. So the successors of alike drafts agree at every level
(`Session.agree_successor`), and one is its origin exactly if the other is
(`Session.identical_successor_congr`).

The two continuations hand out numbers of their own. They are therefore followed in two
sessions, each of which records what one of them makes (`Session.parallel_replay`).
-/

namespace HeldLocks

/-- Two states agree if they hold the same at every level, however they are numbered. Where
their numbers come from one session this is being the same; `same` is what it then gives. -/
structure State.Agree (left right : State) : Prop where
  /-- The holdings at every level. -/
  levels : left.levels = right.levels
  /-- What the comparison of states says. -/
  same : left.same right = true

/-- Two computations run parallel if both are refused for one reason or both have results,
and these are related. -/
inductive Parallel {Left Right : Type} (related : Left → Right → Prop) :
    Except Misuse Left → Except Misuse Right → Prop where
  | refused (misuse : Misuse) : Parallel related (.error misuse) (.error misuse)
  | done {left : Left} {right : Right} (results : related left right) :
    Parallel related (.ok left) (.ok right)

/-- Results that are parallel stay so under functions that keep the relation. -/
theorem Parallel.map {Left Right Left' Right' : Type} {related : Left → Right → Prop}
    {related' : Left' → Right' → Prop} {onLeft : Left → Left'} {onRight : Right → Right'}
    (kept : ∀ left right, related left right → related' (onLeft left) (onRight right))
    {left : Except Misuse Left} {right : Except Misuse Right}
    (parallel : Parallel related left right) :
    Parallel related' (left.map onLeft) (right.map onRight) := by
  cases parallel with
  | refused misuse => exact .refused misuse
  | done results => exact .done (kept _ _ results)

/-- Where one of two parallel computations has a result, the other has a related one. -/
theorem Parallel.result {Left Right : Type} {related : Left → Right → Prop}
    {one : Except Misuse Left} {other : Except Misuse Right} {left : Left}
    (parallel : Parallel related one other) (ran : one = .ok left) :
    ∃ right, other = .ok right ∧ related left right := by
  cases parallel with
  | refused misuse => exact nomatch ran
  | done results =>
    obtain rfl := Except.ok.inj ran
    exact ⟨_, rfl, results⟩

namespace State

variable {left right : State}

/-- States with the same levels agree. -/
theorem agree_of_levels (levels : left.levels = right.levels) : left.Agree right where
  levels := levels
  same := sameChain_of_holdings _ _ levels

/-- States that agree hold the same. -/
theorem Agree.holdings (agree : left.Agree right) : left.holdings = right.holdings :=
  (List.cons.inj agree.levels).1

/-- What they return to holds the same, level by level. -/
theorem Agree.saved (agree : left.Agree right) :
    left.saved.map Snapshot.holdings = right.saved.map Snapshot.holdings :=
  (List.cons.inj agree.levels).2

/-- A state agrees with itself. -/
theorem Agree.refl (state : State) : state.Agree state := agree_of_levels rfl

end State

/-- Two edits are alike if they differ at most in their roots, and these agree. -/
inductive Edit.Alike : Edit State → Edit State → Prop where
  | refl (edit : Edit State) : Alike edit edit
  | attach {root twin : State} (roots : root.Agree twin) : Alike (.attach root) (.attach twin)
  | reinstate {root twin : State} (roots : root.Agree twin) (used : LockSet) :
    Alike (.reinstate root used) (.reinstate twin used)
  | reapply {root twin : State} (roots : root.Agree twin) (used : LockSet) :
    Alike (.reapply root used) (.reapply twin used)

/-- Edits that are alike are both valid or both not. -/
theorem Edit.Alike.valid_iff {edit twin : Edit State} (alike : edit.Alike twin) :
    edit.Valid ↔ twin.Valid := by
  cases alike <;> exact Iff.rfl

/-- Of alike sequences of edits both are valid or neither is. -/
theorem Edit.Alike.all_valid_iff {edits twins : List (Edit State)}
    (alike : List.Forall₂ Edit.Alike edits twins) :
    (∀ edit ∈ edits, edit.Valid) ↔ ∀ twin ∈ twins, twin.Valid := by
  induction alike with
  | nil => exact Iff.rfl
  | cons first _ inductionHypothesis =>
    rw [List.forall_mem_cons, List.forall_mem_cons, first.valid_iff, inductionHypothesis]

namespace Draft

/-! ## Holdings after a change

The changes of a draft that do not read the chain make its holdings from its holdings
alone, and the two that read it need the holdings of the innermost caller only. -/

/-- What acquiring does to the holdings depends on the holdings alone. -/
theorem holdings_acquire (draft : Draft) (lock : Lock) (times : Nat) :
    (draft.acquire lock times).holdings =
      if times = 0 then draft.holdings else draft.holdings.acquire lock times := by
  rw [acquire]
  split <;> rfl

/-- So does what releasing does. -/
theorem holdings_release (draft : Draft) (lock : Lock) (times : Nat) :
    (draft.release lock times).holdings =
      if times = 0 then draft.holdings else draft.holdings.release lock times := by
  rw [release]
  split <;> rfl

/-- So does what flattening does. -/
theorem holdings_flatten (draft : Draft) (kept : LockSet) :
    (draft.flatten kept).holdings = (draft.holdings.locks.diff kept).elements.foldl
      (fun holdings lock => (holdings.erase lock).acquire lock 1) draft.holdings :=
  (List.foldl_hom holdings fun _ _ => rfl).symm

/-- What restoring a lock does depends on the holdings and on what the caller holds. -/
theorem holdings_restore (draft : Draft) (lock : Lock) :
    (draft.restore lock).holdings =
      match draft.saved.map Snapshot.holdings with
      | [] => draft.holdings
      | caller :: _ => draft.holdings.assign lock (caller.count lock) := by
  rw [restore]
  cases draft.saved <;> rfl

/-- So does what restoring all does. -/
theorem holdings_restoreAll (draft : Draft) :
    draft.restoreAll.holdings =
      match draft.saved.map Snapshot.holdings with
      | [] => draft.holdings
      | caller :: _ => caller := by
  rw [restoreAll]
  cases draft.saved <;> rfl

/-- So drafts with the same holdings, now and at every level of what they would return to,
have the same holdings after alike changes. -/
theorem holdings_change_congr {left right : Draft} (holdings : left.holdings = right.holdings)
    (saved : left.saved.map Snapshot.holdings = right.saved.map Snapshot.holdings)
    {edit twin : Edit State} (edits : edit.Alike twin) :
    (left.change edit).holdings = (right.change twin).holdings := by
  cases edits with
  | attach roots => exact holdings
  | reinstate roots used => simp only [change, Draft.reinstate, holdings, roots.holdings]
  | reapply roots used => simp only [change, Draft.reapply, holdings, roots.holdings]
  | refl =>
    cases edit with
    | acquire lock => simp only [change, holdings_acquire, holdings]
    | release lock => simp only [change, holdings_release, holdings]
    | assign lock count =>
      simp only [change, Draft.assign, holdings_release, holdings_acquire, holdings]
    | forget lock => simp only [change, Draft.forget, holdings]
    | restore lock => simp only [change, holdings_restore, holdings, saved]
    | restoreAll => simp only [change, holdings_restoreAll, holdings, saved]
    | drop locks => simp only [change, Draft.drop, holdings]
    | flatten kept => simp only [change, holdings_flatten, holdings]
    | reinstate root used => simp only [change, Draft.reinstate, holdings]
    | reapply root used => simp only [change, Draft.reapply, holdings]
    | forgetAll => rfl
    | save => exact holdings
    | abort => exact holdings
    | detach => exact holdings
    | attach root => exact holdings

/-! ## Drafts that are alike -/

/-- Two drafts are alike if all that the one holds, at any level of its chains, the other
holds too, and they are at one stage. -/
structure Alike (left right : Draft) : Prop where
  /-- The states that the work started from. -/
  origin : left.origin.Agree right.origin
  /-- The holdings so far. -/
  holdings : left.holdings = right.holdings
  /-- What the successors return to. -/
  saved : left.saved.map Snapshot.holdings = right.saved.map Snapshot.holdings
  /-- The marks. -/
  restored : left.restored = right.restored
  /-- The stages. -/
  status : left.status = right.status

namespace Alike

/-- Drafts of agreeing states are alike. -/
protected theorem ofState {left right : State} (agree : left.Agree right) :
    (Draft.ofState left).Alike (.ofState right) where
  origin := agree
  holdings := agree.holdings
  saved := agree.saved
  restored := rfl
  status := rfl

variable {left right : Draft}

/-- Alike edits keep drafts alike. Saving is where the states that the work started from
come in, with all they return to. -/
protected theorem change (alike : left.Alike right) {edit twin : Edit State}
    (edits : edit.Alike twin) : (left.change edit).Alike (right.change twin) where
  origin := by
    rw [origin_change, origin_change]
    exact alike.origin
  holdings := holdings_change_congr alike.holdings alike.saved edits
  saved := by
    rw [saved_change, saved_change]
    cases edits with
    | attach roots => exact roots.saved
    | reinstate roots used => exact alike.saved
    | reapply roots used => exact alike.saved
    | refl =>
      cases edit with
      | save => exact alike.origin.levels
      | detach => rfl
      | attach root => rfl
      | _ => exact alike.saved
  restored := by
    have closed : left.saved.isEmpty = right.saved.isEmpty := by
      simpa only [List.isEmpty_map] using congrArg List.isEmpty alike.saved
    rw [restored_change, restored_change, alike.restored, closed]
    cases edits <;> rfl
  status := by
    rw [status_change, status_change, alike.status]
    cases edits <;> rfl

/-- Edits that are alike, one by one, keep drafts alike. -/
theorem changeAll (alike : left.Alike right) {edits twins : List (Edit State)}
    (changes : List.Forall₂ Edit.Alike edits twins) :
    (left.changeAll edits).Alike (right.changeAll twins) := by
  induction changes generalizing left right with
  | nil => exact alike
  | cons first _ inductionHypothesis => exact inductionHypothesis (alike.change first)

/-- Whether an effect asks for an edit is up to the holdings, so one effect asks for one edit
of both drafts or of neither. -/
protected theorem meet (alike : left.Alike right) (effect : Effect) :
    (left.meet effect).Alike (right.meet effect) := by
  rw [Draft.meet, Draft.meet, alike.holdings]
  cases effect.edit? right.holdings with
  | none => exact alike
  | some edit => exact alike.change (.refl edit)

/-- One batch keeps drafts alike. -/
theorem meetAll (alike : left.Alike right) (effects : List Effect) :
    (left.meetAll effects).Alike (right.meetAll effects) := by
  induction effects generalizing left right with
  | nil => exact alike
  | cons effect rest inductionHypothesis => exact inductionHypothesis (alike.meet effect)

/-- What is left to return to holds the same on both sides. -/
theorem remaining (alike : left.Alike right) :
    left.remaining.map Snapshot.holdings = right.remaining.map Snapshot.holdings := by
  rw [Draft.remaining, Draft.remaining, alike.restored]
  split
  · rw [List.map_tail, List.map_tail, alike.saved]
  · exact alike.saved

/-- If the successors of alike drafts are related, so are the outcomes. -/
protected theorem outcome (alike : left.Alike right) {fresh otherFresh : Nat}
    {related : State → State → Prop}
    (successors : related (left.successor fresh) (right.successor otherFresh)) :
    Option.Rel related (left.outcome fresh) (right.outcome otherFresh) := by
  rw [Draft.outcome, Draft.outcome, alike.status]
  split
  · exact .none
  · exact .some successors

/-- The work behind the reductions of agreeing states. -/
theorem reducing (reduction : Reduction) {caller twin : State} (agree : caller.Agree twin)
    (block : LockSet) :
    (reduction.reducing caller block).Alike (reduction.reducing twin block) := by
  have detached := (Alike.ofState agree).change (.refl .detach)
  rw [Reduction.reducing, Reduction.reducing, agree.holdings]
  split
  · exact detached.change (.refl (.drop _))
  · split
    · exact detached.change (.refl (.flatten block))
    · exact detached

/-- The work behind the expansions of agreeing states around agreeing states. -/
theorem expanding (reduction : Reduction) {caller callerTwin final finalTwin : State}
    (callers : caller.Agree callerTwin) (finals : final.Agree finalTwin) (block : LockSet) :
    (reduction.expanding caller block final).Alike
      (reduction.expanding callerTwin block finalTwin) := by
  have attached := (Alike.ofState finals).change (.attach callers)
  rw [Reduction.expanding, Reduction.expanding]
  split
  · exact attached.change (.reinstate callers block)
  · split
    · exact attached.change (.reapply callers block)
    · exact attached

end Alike

/-! ## Refused batches -/

/-- An open draft refuses an effect that asks for a negative count. -/
theorem undergo_of_invalid (draft : Draft) (effect : Effect) (unbuilt : draft.status ≠ .built)
    (invalid : ¬ effect.Valid) : draft.undergo effect = .error .negativeCount := by
  cases effect with
  | assign lock count => exact draft.edit_of_invalid (.assign lock count) unbuilt invalid
  | _ => exact absurd trivial invalid

/-- An open draft refuses a batch with such an effect, and always for one reason. -/
theorem undergoAll_of_invalid (draft : Draft) {effects : List Effect}
    (unbuilt : draft.status ≠ .built) (invalid : ¬ ∀ effect ∈ effects, effect.Valid) :
    draft.undergoAll effects = .error .negativeCount :=
  foldlM_of_invalid status_meet_ne_built undergo_of_valid undergo_of_invalid draft unbuilt
    invalid

end Draft

/-- Effects that are not all valid are refused for the negative count. -/
theorem State.after_of_invalid (state : State) (fresh : Nat) {effects : List Effect}
    (invalid : ¬ ∀ effect ∈ effects, effect.Valid) :
    state.after fresh effects = .error .negativeCount := by
  have refused := (Draft.ofState state).undergoAll_of_invalid state.status_ofState invalid
  simp only [after, refused, bind, Except.bind]

namespace Session

/-! ## Successors of alike drafts -/

section Successors

variable {session other : Session} {left right : Draft} (wellFormed : session.WellFormed)
  (otherWellFormed : other.WellFormed) (grounds : session.Grounds left)
  (otherGrounds : other.Grounds right) (alike : left.Alike right)

include wellFormed otherWellFormed grounds otherGrounds alike

/-- The successors of alike drafts agree. -/
theorem agree_successor (fresh otherFresh : Nat) :
    (left.successor fresh).Agree (right.successor otherFresh) := by
  apply State.agree_of_levels
  rw [wellFormed.levels_successor grounds, otherWellFormed.levels_successor otherGrounds,
    alike.holdings, alike.remaining]

/-- Of the successors of alike drafts both are the origins of their drafts or neither is. -/
theorem identical_successor_congr {fresh otherFresh : Nat} (unused : session.fresh ≤ fresh)
    (otherUnused : other.fresh ≤ otherFresh) :
    (left.successor fresh).identical left.origin = true ↔
      (right.successor otherFresh).identical right.origin = true := by
  have older : left.origin.serial < fresh :=
    Nat.lt_of_lt_of_le (wellFormed.serial_lt_fresh grounds.origin) unused
  have otherOlder : right.origin.serial < otherFresh :=
    Nat.lt_of_lt_of_le (otherWellFormed.serial_lt_fresh otherGrounds.origin) otherUnused
  rw [left.identical_successor_iff older, right.identical_successor_iff otherOlder,
    wellFormed.unchanged_iff grounds, otherWellFormed.unchanged_iff otherGrounds,
    alike.holdings, alike.remaining, alike.origin.holdings, alike.origin.saved]

end Successors

/-! ## Continuations of agreeing states -/

section Continuations

variable {session other : Session} {left right : State} (wellFormed : session.WellFormed)
  (otherWellFormed : other.WellFormed) (made : left ∈ session.states)
  (otherMade : right ∈ other.states) (agree : left.Agree right)

include wellFormed otherWellFormed made otherMade agree

/-- Alike edits of agreeing states are refused for one reason, rule the path out together, or
lead to agreeing states, of which the one is its origin exactly if the other is. -/
theorem parallel_edited {fresh otherFresh : Nat} (unused : session.fresh ≤ fresh)
    (otherUnused : other.fresh ≤ otherFresh) {edits twins : List (Edit State)}
    (alike : List.Forall₂ Edit.Alike edits twins)
    (roots : ∀ edit ∈ edits, ∀ root ∈ edit.root?, root ∈ session.states)
    (otherRoots : ∀ twin ∈ twins, ∀ root ∈ twin.root?, root ∈ other.states) :
    Parallel (Option.Rel fun next twin => next.Agree twin ∧
        (next.identical left = true ↔ twin.identical right = true))
      (left.edited fresh edits) (right.edited otherFresh twins) := by
  have both := Edit.Alike.all_valid_iff alike
  by_cases valid : ∀ edit ∈ edits, edit.Valid
  · rw [left.edited_of_valid fresh valid, right.edited_of_valid otherFresh (both.mp valid)]
    have drafts := (Draft.Alike.ofState agree).changeAll alike
    have grounds := wellFormed.grounds_changeAll (wellFormed.grounds_ofState made) roots
    have otherGrounds := otherWellFormed.grounds_changeAll
      (otherWellFormed.grounds_ofState otherMade) otherRoots
    have shared := identical_successor_congr wellFormed otherWellFormed grounds otherGrounds
      drafts unused otherUnused
    rw [Draft.origin_changeAll, Draft.origin_changeAll] at shared
    refine .done (drafts.outcome ⟨?_, shared⟩)
    exact agree_successor wellFormed otherWellFormed grounds otherGrounds drafts _ _
  · rw [left.edited_of_invalid fresh valid,
      right.edited_of_invalid otherFresh fun otherValid => valid (both.mpr otherValid)]
    exact .refused _

/-- One batch on agreeing states. -/
theorem parallel_after (fresh otherFresh : Nat) (effects : List Effect) :
    Parallel (Option.Rel State.Agree) (left.after fresh effects)
      (right.after otherFresh effects) := by
  by_cases valid : ∀ effect ∈ effects, effect.Valid
  · rw [left.after_of_valid fresh effects valid, right.after_of_valid otherFresh effects valid]
    have drafts := (Draft.Alike.ofState agree).meetAll effects
    refine .done (drafts.outcome ?_)
    exact agree_successor wellFormed otherWellFormed
      (wellFormed.grounds_meetAll (wellFormed.grounds_ofState made) effects)
      (otherWellFormed.grounds_meetAll (otherWellFormed.grounds_ofState otherMade) effects)
      drafts fresh otherFresh
  · rw [left.after_of_invalid fresh valid, right.after_of_invalid otherFresh valid]
    exact .refused _

/-- One trace on agreeing states. Each step leads to agreeing states, which are recorded, each
in its session, before the next step is taken. -/
theorem parallel_replay (steps : List Trace.Step) :
    Parallel (List.Forall₂ (Option.Rel State.Agree)) (Trace.replay session.fresh left steps)
      (Trace.replay other.fresh right steps) := by
  induction steps generalizing session other left right with
  | nil => exact .done .nil
  | cons step rest inductionHypothesis =>
    have first := parallel_after wellFormed otherWellFormed made otherMade agree session.fresh
      other.fresh step.effects
    rw [Trace.replay, Trace.replay]
    -- Both outcomes get a name, so that the two replays take the same branch by one case split.
    generalize ran : left.after session.fresh step.effects = outcome at first ⊢
    generalize otherRan : right.after other.fresh step.effects = otherOutcome at first ⊢
    cases first with
    | refused misuse => exact .refused misuse
    | done results =>
      cases results with
      | none => exact .done (.cons .none .nil)
      | some nexts =>
        obtain ⟨nextWellFormed, nextMade, nextFresh⟩ :=
          wellFormed.record_after made step.effects ran
        obtain ⟨twinWellFormed, twinMade, twinFresh⟩ :=
          otherWellFormed.record_after otherMade step.effects otherRan
        simp only [← nextFresh, ← twinFresh]
        refine Parallel.map ?_
          (inductionHypothesis nextWellFormed twinWellFormed nextMade twinMade nexts)
        exact fun _ _ later => .cons (.some nexts) later

end Continuations

/-- Agreeing states compare equally with agreeing states. -/
theorem WellFormed.comparison_congr {session : Session} (wellFormed : session.WellFormed)
    {left right third twin : State} (leftMade : left ∈ session.states)
    (rightMade : right ∈ session.states) (thirdMade : third ∈ session.states)
    (twinMade : twin ∈ session.states) (agree : left.Agree right) (thirds : third.Agree twin) :
    left.comparison third = right.comparison twin := by
  have same : left.same third = right.same twin := by
    rw [Bool.eq_iff_iff, wellFormed.same_iff leftMade thirdMade,
      wellFormed.same_iff rightMade twinMade, agree.levels, thirds.levels]
  have sameSaved : left.sameSaved third = right.sameSaved twin := by
    rw [Bool.eq_iff_iff, wellFormed.sameSaved_iff leftMade thirdMade,
      wellFormed.sameSaved_iff rightMade twinMade, agree.saved, thirds.saved]
  have hashes : hash left = hash right := congrArg (hash : Holdings → UInt64) agree.holdings
  have thirdHashes : hash third = hash twin :=
    congrArg (hash : Holdings → UInt64) thirds.holdings
  simp only [State.comparison, agree.holdings, thirds.holdings, same, sameSaved, hashes,
    thirdHashes]

/-- A session can go on, so that any later number becomes the number of the next new state. -/
theorem WellFormed.exists_later {session : Session} (wellFormed : session.WellFormed)
    {fresh : Nat} (unused : session.fresh ≤ fresh) :
    ∃ later : Session, later.WellFormed ∧ session.states ⊆ later.states ∧
      later.fresh = fresh := by
  induction unused with
  | refl => exact ⟨session, wellFormed, List.Subset.refl _, rfl⟩
  | step _ inductionHypothesis =>
    obtain ⟨later, laterWellFormed, grown, rfl⟩ := inductionHypothesis
    -- States without locks fill the numbers in between.
    let next := State.empty later.fresh
    refine ⟨later.record next, ?_, List.Subset.trans grown (subset_record later next), ?_⟩
    · refine laterWellFormed.record next rfl ?_ Holdings.Canonical.empty
      exact fun caller returns => nomatch returns
    · rw [record_of_new later next rfl]
      exact List.length_append

/-- Of two recorded states that are the same, either can stand for the other. Whatever numbers
the continuations hand out, as long as these are not in use:

* Edits whose roots are the same are refused for one reason, or lead to no state from either,
  or lead to states that agree; and the one leads back to its origin exactly if the other does.
* A trace is refused for one reason, or its outcomes agree one by one.
* Reductions agree, and so do expansions, with either state as the caller or at the end of
  the block, and with the same states in the other place.
* Against any third state, and in both directions, the two have equal comparisons and equal
  differences.

Proof: alike drafts stay alike under alike changes and have agreeing successors. A trace is
followed step by step, in two sessions that record what it makes of either state. -/
theorem same_states_interchangeable {session : Session} (reachable : session.Reachable)
    {left right : State} (leftMade : left ∈ session.states) (rightMade : right ∈ session.states)
    (same : left.same right = true) {fresh otherFresh : Nat} (unused : session.fresh ≤ fresh)
    (otherUnused : session.fresh ≤ otherFresh) :
    (∀ edits twins, List.Forall₂ Edit.Alike edits twins →
      (∀ edit ∈ edits, ∀ root ∈ edit.root?, root ∈ session.states) →
      (∀ twin ∈ twins, ∀ root ∈ twin.root?, root ∈ session.states) →
      Parallel (Option.Rel fun next twin => next.Agree twin ∧
          (next.identical left = true ↔ twin.identical right = true))
        (left.edited fresh edits) (right.edited otherFresh twins)) ∧
    (∀ steps, Parallel (List.Forall₂ (Option.Rel State.Agree)) (Trace.replay fresh left steps)
      (Trace.replay otherFresh right steps)) ∧
    (∀ (reduction : Reduction) block, (reduction.reduce fresh left block).Agree
      (reduction.reduce otherFresh right block)) ∧
    (∀ (reduction : Reduction) block, ∀ partner ∈ session.states, ∀ twin ∈ session.states,
      partner.same twin = true →
      (reduction.expand fresh left block partner).Agree
          (reduction.expand otherFresh right block twin) ∧
        (reduction.expand fresh partner block left).Agree
          (reduction.expand otherFresh twin block right)) ∧
    (∀ third ∈ session.states,
      left.comparison third = right.comparison third ∧
        third.comparison left = third.comparison right ∧
        left.holdings.difference third.holdings = right.holdings.difference third.holdings ∧
        third.holdings.difference left.holdings = third.holdings.difference right.holdings) := by
  have wellFormed := reachable.wellFormed
  have agreeing : ∀ {state twin : State}, state ∈ session.states → twin ∈ session.states →
      state.same twin = true → state.Agree twin := fun made twinMade areSame =>
    State.agree_of_levels ((wellFormed.same_iff made twinMade).mp areSame)
  have agree := agreeing leftMade rightMade same
  refine ⟨?_, ?_, ?_, ?_, ?_⟩
  · intro edits twins alike roots otherRoots
    exact parallel_edited wellFormed wellFormed leftMade rightMade agree unused otherUnused
      alike roots otherRoots
  · intro steps
    obtain ⟨later, laterWellFormed, grown, rfl⟩ := wellFormed.exists_later unused
    obtain ⟨other, otherWellFormed, otherGrown, rfl⟩ := wellFormed.exists_later otherUnused
    exact parallel_replay laterWellFormed otherWellFormed (grown leftMade)
      (otherGrown rightMade) agree steps
  · intro reduction block
    exact agree_successor wellFormed wellFormed
      (wellFormed.grounds_reducing leftMade block reduction)
      (wellFormed.grounds_reducing rightMade block reduction)
      (.reducing reduction agree block) fresh otherFresh
  · intro reduction block partner partnerMade twin twinMade partnersSame
    have partners := agreeing partnerMade twinMade partnersSame
    constructor
    · exact agree_successor wellFormed wellFormed
        (wellFormed.grounds_expanding leftMade partnerMade block reduction)
        (wellFormed.grounds_expanding rightMade twinMade block reduction)
        (.expanding reduction agree partners block) fresh otherFresh
    · exact agree_successor wellFormed wellFormed
        (wellFormed.grounds_expanding partnerMade leftMade block reduction)
        (wellFormed.grounds_expanding twinMade rightMade block reduction)
        (.expanding reduction partners agree block) fresh otherFresh
  · intro third thirdMade
    have itself := State.Agree.refl third
    refine ⟨?_, ?_, ?_, ?_⟩
    · exact wellFormed.comparison_congr leftMade rightMade thirdMade thirdMade agree itself
    · exact wellFormed.comparison_congr thirdMade thirdMade leftMade rightMade itself agree
    · rw [agree.holdings]
    · rw [agree.holdings]

/-- Two states were made alike, and a call was opened from each. The states inside the calls
share neither their numbers nor what they return to, and still a trace that opens a further
call and returns from it leads through agreeing states from either. Edits that lead back to
the one, past itself as a root, lead back to the other, past the other. -/
theorem twin_calls_agree :
    ∃ (left right twin : State) (outcomes others : List (Option State)),
      left.serial = 3 ∧ right.serial = 4 ∧ left.saved ≠ right.saved ∧
      Trace.replay 5 left
          [⟨1, [.acquire (.ofName "b") 0, .save]⟩, ⟨2, [.restore (.ofName "b")]⟩] =
        .ok outcomes ∧
      Trace.replay 9 right
          [⟨1, [.acquire (.ofName "b") 0, .save]⟩, ⟨2, [.restore (.ofName "b")]⟩] =
        .ok others ∧
      outcomes.length = 2 ∧ List.Forall₂ (Option.Rel State.Agree) outcomes others ∧
      left.edited 5 [.acquire (.ofName "b"), .attach left, .release (.ofName "b")] =
        .ok (some left) ∧
      right.edited 9 [.acquire (.ofName "b"), .attach right, .release (.ofName "b")] =
        .ok (some twin) ∧
      left.Agree twin ∧ twin.serial = 4 := by
  obtain ⟨session, reachable, unused, leftMade, rightMade⟩ : ∃ session : Session,
      session.Reachable ∧ session.fresh = 5 ∧
        ⟨⟨3, ⟨[(.ofName "a", 1)]⟩⟩, [⟨1, ⟨[(.ofName "a", 1)]⟩⟩]⟩ ∈ session.states ∧
        ⟨⟨4, ⟨[(.ofName "a", 1)]⟩⟩, [⟨2, ⟨[(.ofName "a", 1)]⟩⟩]⟩ ∈ session.states :=
    ⟨(start.run [.effects 0 [.acquire (.ofName "a") 0], .effects 0 [.acquire (.ofName "a") 0],
      .effects 1 [.save], .effects 2 [.save]]).2, ⟨_, rfl⟩, rfl,
      List.mem_of_getElem? (i := 3) rfl, List.mem_of_getElem? (i := 4) rfl⟩
  obtain ⟨edits, replays, _⟩ := same_states_interchangeable reachable leftMade rightMade
    (by decide) (Nat.le_of_eq unused) (Nat.le_trans (Nat.le_of_eq unused) (by decide : 5 ≤ 9))
  obtain ⟨others, otherRan, outcomesAgree⟩ := (replays [⟨1, [.acquire (.ofName "b") 0, .save]⟩,
    ⟨2, [.restore (.ofName "b")]⟩]).result rfl
  have alike : List.Forall₂ Edit.Alike
      [.acquire (.ofName "b"),
        .attach ⟨⟨3, ⟨[(.ofName "a", 1)]⟩⟩, [⟨1, ⟨[(.ofName "a", 1)]⟩⟩]⟩, .release (.ofName "b")]
      [.acquire (.ofName "b"),
        .attach ⟨⟨4, ⟨[(.ofName "a", 1)]⟩⟩, [⟨2, ⟨[(.ofName "a", 1)]⟩⟩]⟩,
        .release (.ofName "b")] :=
    .cons (.refl _) (.cons (.attach (State.agree_of_levels rfl)) (.cons (.refl _) .nil))
  obtain ⟨outcome, edited, related⟩ := (edits _ _ alike (by simpa [Edit.root?] using leftMade)
    (by simpa [Edit.root?] using rightMade)).result rfl
  cases related with
  | some twins =>
    refine ⟨_, _, _, _, others, rfl, rfl, by decide, rfl, otherRan, rfl, outcomesAgree, rfl,
      edited, twins.1, ?_⟩
    simpa [State.identical] using twins.2.mp rfl

end Session

end HeldLocks
