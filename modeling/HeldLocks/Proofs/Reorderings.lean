import HeldLocks.Proofs.Counts
import HeldLocks.Proofs.Interchange
import Mathlib.Logic.Relation

/-!
# The order of effects

An effect about one lock changes no other count, and what it does to that lock depends on its
count and, if it restores the lock, on the state to return to. It may also set the mark of a
restored lock, or rule the path out; but neither does later work heed the mark, nor does an
effect ever take one of the two back. So neighbours that are about different locks can be
swapped (`Draft.InStep.swap`), and with them any number of such neighbours, one after the
other. Effects on all locks are about no single one and stay in their places.

Drafts that are in step hold the same, would return to the very same chain, and are marked
and at a stage alike. They need not have started from one state: only saving looks at that.
-/

namespace HeldLocks

namespace Effect

/-- One swap of neighbours that are about different locks. -/
inductive Swap : List Effect → List Effect → Prop where
  | neighbours (earlier later : List Effect) {first second : Effect} {lock other : Lock}
    (about : first.lock? = some lock) (aboutOther : second.lock? = some other)
    (different : lock ≠ other) :
    Swap (earlier ++ first :: second :: later) (earlier ++ second :: first :: later)

/-- The second list comes from the first by any number of swaps. -/
def Reordered : List Effect → List Effect → Prop := Relation.ReflTransGen Swap

/-- Reordering neither adds effects nor takes any away. -/
theorem Reordered.perm {first second : List Effect} (reordered : Reordered first second) :
    first.Perm second := by
  induction reordered with
  | refl => exact .refl _
  | tail _ swap inductionHypothesis =>
    cases swap with
    | neighbours earlier later _ _ _ =>
      exact inductionHypothesis.trans ((List.Perm.swap _ _ later).append_left earlier)

/-- An effect about one lock is local or restores that lock. -/
theorem local_or_restores {effect : Effect} {lock : Lock} (about : effect.lock? = some lock) :
    effect.Local ∨ effect = .restore lock := by
  cases effect with
  | restore target =>
    obtain rfl : target = lock := Option.some.inj about
    exact Or.inr rfl
  | acquire _ _ | release _ | forget _ | assign _ _ | check _ _ _ => exact Or.inl trivial
  | restoreAll | forgetAll | save => exact nomatch about

end Effect

namespace Draft

/-! ## One lock at a time -/

section About

variable {effect : Effect} {lock : Lock} (about : effect.lock? = some lock)

include about

/-- An effect about a lock leaves alone what the successor will return to. -/
theorem saved_meet_of_about (draft : Draft) : (draft.meet effect).saved = draft.saved := by
  rw [saved_meet, if_neg]
  rintro rfl
  exact nomatch about

/-- An effect about one lock leaves the count of any other alone. -/
theorem count_meet_of_other (draft : Draft) {tested : Lock} (other : tested ≠ lock) :
    (draft.meet effect).holdings.count tested = draft.holdings.count tested := by
  rcases Effect.local_or_restores about with isLocal | rfl
  · rw [count_meet draft isLocal, Effect.recountAt_of_about about, if_neg other]
  · exact (draft.count_restore lock tested).trans (if_neg other)

/-- The count that an effect leaves its lock with depends on that count and on what the draft
would return to. -/
theorem count_meet_congr {left right : Draft} (saved : left.saved = right.saved)
    (count : left.holdings.count lock = right.holdings.count lock) :
    (left.meet effect).holdings.count lock = (right.meet effect).holdings.count lock := by
  rcases Effect.local_or_restores about with isLocal | rfl
  · rw [count_meet left isLocal, count_meet right isLocal, count]
  · change (left.restore lock).holdings.count lock = (right.restore lock).holdings.count lock
    rw [count_restore, count_restore, saved, count]

end About

/-- Two batches in a row are met one after the other. -/
theorem meetAll_append (draft : Draft) (earlier later : List Effect) :
    draft.meetAll (earlier ++ later) = (draft.meetAll earlier).meetAll later :=
  List.foldl_append

/-! ## Drafts in step -/

/-- Two drafts are in step if they differ at most in the states that they started from and in
the acquisitions and releases that led to what they hold. -/
structure InStep (left right : Draft) : Prop where
  /-- The holdings so far. -/
  holdings : left.holdings = right.holdings
  /-- What the successors return to. -/
  saved : left.saved = right.saved
  /-- The marks. -/
  restored : left.restored = right.restored
  /-- The stages. -/
  status : left.status = right.status

namespace InStep

/-- A draft is in step with itself. -/
protected theorem refl (draft : Draft) : draft.InStep draft := ⟨rfl, rfl, rfl, rfl⟩

variable {left right : Draft}

/-- Drafts in step with a third by way of a second are in step with it. -/
protected theorem trans {last : Draft} (first : left.InStep right) (second : right.InStep last) :
    left.InStep last where
  holdings := first.holdings.trans second.holdings
  saved := first.saved.trans second.saved
  restored := first.restored.trans second.restored
  status := first.status.trans second.status

/-- An edit keeps drafts in step. If it saves, they must have started from one state. -/
protected theorem change (inStep : left.InStep right) (edit : Edit State)
    (origins : edit = .save → left.origin = right.origin) :
    (left.change edit).InStep (right.change edit) where
  holdings :=
    holdings_change_congr inStep.holdings (congrArg (List.map _) inStep.saved) (.refl edit)
  saved := by
    rw [saved_change, saved_change]
    cases edit with
    | save => exact congrArg State.chain (origins rfl)
    | detach => rfl
    | attach root => rfl
    | _ => exact inStep.saved
  restored := by rw [restored_change, restored_change, inStep.restored, inStep.saved]
  status := by rw [status_change, status_change, inStep.status]

/-- An effect keeps drafts in step. Only a call looks at the origins. -/
protected theorem meet (inStep : left.InStep right) (effect : Effect)
    (origins : effect = .save → left.origin = right.origin) :
    (left.meet effect).InStep (right.meet effect) := by
  rw [Draft.meet, Draft.meet, inStep.holdings]
  cases asks : effect.edit? right.holdings with
  | none => exact inStep
  | some edit =>
    apply inStep.change
    rintro rfl
    apply origins
    have asked := effect.asked_of_edit? _ _ asks
    cases effect with
    | save => rfl
    | _ => cases asked

/-- So does a batch. -/
protected theorem meetAll (inStep : left.InStep right) (effects : List Effect)
    (origins : .save ∈ effects → left.origin = right.origin) :
    (left.meetAll effects).InStep (right.meetAll effects) := by
  induction effects generalizing left right with
  | nil => exact inStep
  | cons effect rest inductionHypothesis =>
    apply inductionHypothesis
    · apply inStep.meet
      rintro rfl
      exact origins List.mem_cons_self
    · intro later
      rw [origin_meet, origin_meet]
      exact origins (List.mem_cons_of_mem _ later)

/-- Drafts in step have the same left to return to. -/
theorem remaining (inStep : left.InStep right) : left.remaining = right.remaining := by
  rw [Draft.remaining, Draft.remaining, inStep.restored, inStep.saved]

/-- Neighbours that are about different locks can be swapped. -/
theorem swap {draft : Draft} (canonical : draft.Canonical) {first second : Effect}
    {lock other : Lock} (about : first.lock? = some lock) (aboutOther : second.lock? = some other)
    (different : lock ≠ other) :
    ((draft.meet first).meet second).InStep ((draft.meet second).meet first) where
  holdings := by
    have canonicalOther := canonical.meetAll [second, first]
    apply (canonical.meetAll [first, second]).holdings.ext canonicalOther.holdings
    intro tested
    -- The count of either lock comes from the effect about it, at the count that it has in
    -- the draft; the other effect passes it by.
    by_cases isFirst : tested = lock
    · subst isFirst
      calc ((draft.meet first).meet second).holdings.count tested
        _ = (draft.meet first).holdings.count tested := count_meet_of_other aboutOther _ different
        _ = ((draft.meet second).meet first).holdings.count tested := by
          apply count_meet_congr about
          · exact (saved_meet_of_about aboutOther draft).symm
          · exact (count_meet_of_other aboutOther draft different).symm
    · by_cases isSecond : tested = other
      · subst isSecond
        calc ((draft.meet first).meet second).holdings.count tested
          _ = (draft.meet second).holdings.count tested := by
            apply count_meet_congr aboutOther
            · exact saved_meet_of_about about draft
            · exact count_meet_of_other about draft isFirst
          _ = ((draft.meet second).meet first).holdings.count tested :=
            (count_meet_of_other about _ isFirst).symm
      · calc ((draft.meet first).meet second).holdings.count tested
          _ = draft.holdings.count tested := by
            rw [count_meet_of_other aboutOther _ isSecond, count_meet_of_other about _ isFirst]
          _ = ((draft.meet second).meet first).holdings.count tested := by
            rw [count_meet_of_other about _ isFirst, count_meet_of_other aboutOther _ isSecond]
  saved := by
    rw [saved_meet_of_about aboutOther, saved_meet_of_about about, saved_meet_of_about about,
      saved_meet_of_about aboutOther]
  restored := by
    rw [restored_meet, restored_meet, restored_meet, restored_meet, saved_meet_of_about about,
      saved_meet_of_about aboutOther]
    exact Bool.or_right_comm _ _ _
  status := by
    rw [status_meet _ aboutOther, status_meet _ about, status_meet _ about,
      status_meet _ aboutOther, count_meet_of_other about _ (Ne.symm different),
      count_meet_of_other aboutOther _ different]
    split <;> split <;> rfl

/-- Reordered effects lead to drafts in step. -/
theorem ofReordered {draft : Draft} (canonical : draft.Canonical) {first second : List Effect}
    (reordered : Effect.Reordered first second) :
    (draft.meetAll first).InStep (draft.meetAll second) := by
  induction reordered with
  | refl => exact .refl _
  | tail _ swapped inductionHypothesis =>
    refine inductionHypothesis.trans ?_
    cases swapped with
    | neighbours earlier later about aboutOther different =>
      rw [meetAll_append, meetAll_append]
      apply InStep.meetAll (swap (canonical.meetAll earlier) about aboutOther different)
      intro _
      rw [origin_meet, origin_meet, origin_meet, origin_meet]

end InStep

end Draft

namespace Session

/-- The order of effects on different locks does not matter. Let one batch come from another
by swapping, any number of times, neighbours that are about different locks. Then neither is
refused, and from every state either both rule the path out, or both lead to states that
agree at every level and return to the very same state; and the one is the state it started
from exactly if the other is.

Proof: swapped neighbours lead to drafts in step. These started from one state, so both or
neither have led back to it. -/
theorem reordered_effects_agree {session : Session} (reachable : session.Reachable)
    {state : State} (made : state ∈ session.states) {first second : List Effect}
    (reordered : Effect.Reordered first second) (valid : ∀ effect ∈ first, effect.Valid)
    {fresh otherFresh : Nat} (unused : session.fresh ≤ fresh)
    (otherUnused : session.fresh ≤ otherFresh) :
    ∃ outcome otherOutcome,
      state.after fresh first = .ok outcome ∧
      state.after otherFresh second = .ok otherOutcome ∧
      Option.Rel (fun next other => next.Agree other ∧ next.restore? = other.restore? ∧
        (next.identical state = true ↔ other.identical state = true)) outcome otherOutcome := by
  have wellFormed := reachable.wellFormed
  have older := wellFormed.serial_lt_fresh made
  have otherValid : ∀ effect ∈ second, effect.Valid := fun effect member =>
    valid effect (reordered.perm.mem_iff.mpr member)
  have canonical := Draft.Canonical.ofState (wellFormed.canonical_chain made)
  have inStep := Draft.InStep.ofReordered canonical reordered
  have origin := (Draft.ofState state).origin_meetAll first
  have otherOrigin := (Draft.ofState state).origin_meetAll second
  refine ⟨_, _, state.after_of_valid fresh first valid,
    state.after_of_valid otherFresh second otherValid, ?_⟩
  generalize (Draft.ofState state).meetAll first = left at *
  generalize (Draft.ofState state).meetAll second = right at *
  have unchanged : left.unchanged = right.unchanged := by
    rw [Draft.unchanged, Draft.unchanged, inStep.holdings, inStep.remaining, origin, otherOrigin]
  rw [Draft.outcome, Draft.outcome, inStep.status]
  split
  · exact .none
  · refine .some ?_
    by_cases shared : left.unchanged = true
    · rw [left.successor_of_unchanged fresh shared, origin,
        right.successor_of_unchanged otherFresh (unchanged ▸ shared), otherOrigin]
      exact ⟨.refl _, rfl, Iff.rfl⟩
    · rw [left.successor_of_changed fresh shared,
        right.successor_of_changed otherFresh (unchanged ▸ shared), inStep.holdings,
        inStep.remaining]
      refine ⟨State.agree_of_levels rfl, rfl, ?_⟩
      simp only [State.identical, beq_iff_eq]
      omega

/-- A call is returned from before or after work on another lock, with a check in between,
and behind the barrier two more neighbours are swapped. Both orders lead out of the call. -/
theorem restore_moves_past_check :
    ∃ next other,
      State.after ⟨⟨2, ⟨[(.ofName "a", 1), (.ofName "b", 1)]⟩⟩, [⟨1, ⟨[(.ofName "a", 1)]⟩⟩]⟩ 3
        [.restore (.ofName "b"), .acquire (.ofName "a") 0, .check (.ofName "a") 2 true,
          .restoreAll, .assign (.ofName "b") 2, .release (.ofName "a")] = .ok (some next) ∧
      State.after ⟨⟨2, ⟨[(.ofName "a", 1), (.ofName "b", 1)]⟩⟩, [⟨1, ⟨[(.ofName "a", 1)]⟩⟩]⟩ 4
        [.acquire (.ofName "a") 0, .check (.ofName "a") 2 true, .restore (.ofName "b"),
          .restoreAll, .release (.ofName "a"), .assign (.ofName "b") 2] = .ok (some other) ∧
      next.Agree other ∧ next.restore? = other.restore? ∧ next.serial = 3 ∧ other.serial = 4 := by
  obtain ⟨session, reachable, unused, made⟩ : ∃ session : Session,
      session.Reachable ∧ session.fresh = 3 ∧
        ⟨⟨2, ⟨[(.ofName "a", 1), (.ofName "b", 1)]⟩⟩, [⟨1, ⟨[(.ofName "a", 1)]⟩⟩]⟩ ∈
          session.states :=
    ⟨(start.run [.effects 0 [.acquire (.ofName "a") 0],
      .effects 1 [.save, .acquire (.ofName "b") 0]]).2, ⟨_, rfl⟩, rfl,
      List.mem_of_getElem? (i := 2) rfl⟩
  have apart : Lock.ofName "b" ≠ Lock.ofName "a" := by decide
  have first : Effect.Swap
      [.restore (.ofName "b"), .acquire (.ofName "a") 0, .check (.ofName "a") 2 true,
        .restoreAll, .assign (.ofName "b") 2, .release (.ofName "a")]
      [.acquire (.ofName "a") 0, .restore (.ofName "b"), .check (.ofName "a") 2 true,
        .restoreAll, .assign (.ofName "b") 2, .release (.ofName "a")] :=
    .neighbours [] _ rfl rfl apart
  have second : Effect.Swap
      [.acquire (.ofName "a") 0, .restore (.ofName "b"), .check (.ofName "a") 2 true,
        .restoreAll, .assign (.ofName "b") 2, .release (.ofName "a")]
      [.acquire (.ofName "a") 0, .check (.ofName "a") 2 true, .restore (.ofName "b"),
        .restoreAll, .assign (.ofName "b") 2, .release (.ofName "a")] :=
    .neighbours [.acquire (.ofName "a") 0] _ rfl rfl apart
  have third : Effect.Swap
      [.acquire (.ofName "a") 0, .check (.ofName "a") 2 true, .restore (.ofName "b"),
        .restoreAll, .assign (.ofName "b") 2, .release (.ofName "a")]
      [.acquire (.ofName "a") 0, .check (.ofName "a") 2 true, .restore (.ofName "b"),
        .restoreAll, .release (.ofName "a"), .assign (.ofName "b") 2] :=
    .neighbours [.acquire (.ofName "a") 0, .check (.ofName "a") 2 true, .restore (.ofName "b"),
      .restoreAll] [] rfl rfl apart
  have reordered : Effect.Reordered _ _ := ((Relation.ReflTransGen.single first).tail second).tail
    third
  obtain ⟨outcome, otherOutcome, ran, otherRan, related⟩ := reordered_effects_agree reachable
    made reordered (by simp [Effect.Valid]) (by omega : session.fresh ≤ 3)
    (by omega : session.fresh ≤ 4)
  obtain rfl := Except.ok.inj ran
  obtain rfl := Except.ok.inj otherRan
  cases related with
  | some both => exact ⟨_, _, rfl, rfl, both.1, both.2.1, rfl, rfl⟩

end Session

end HeldLocks
