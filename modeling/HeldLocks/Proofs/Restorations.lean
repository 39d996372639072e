import HeldLocks.Proofs.Ancestors
import HeldLocks.Proofs.Calls
import HeldLocks.Proofs.Sharing

/-!
# Restoring lock by lock and all at once

There are two ways to take over what the state to return to holds. Restoring locks one by one
gives each its count there, in place of the count that the draft has for it. Restoring all takes
over the holdings as a whole. If the locks restored one by one are all that either side holds, the
two come to the same holdings, in any order and however often a lock is named
(`Draft.Canonical.holdings_restores`).

They differ in what they mean. A restored lock says that the call has returned, so that what is
built is the same as the state returned to, and is the origin itself if that is what the draft
returned to (`Session.WellFormed.build_restores`). Restoring all says nothing about the call. What
is built then holds what the state returned to holds, but still returns to it
(`Session.WellFormed.build_restoreAll`).
-/

namespace HeldLocks

namespace Draft

/-! ## One by one -/

/-- Restoring locks one by one, as edits, is the batch that restores them. -/
theorem changeAll_restores (draft : Draft) (locks : List Lock) :
    draft.changeAll (locks.map .restore) = draft.meetAll (locks.map .restore) := by
  rw [changeAll, meetAll, List.foldl_map, List.foldl_map]
  rfl

/-- An open draft accepts the restoring of any locks. -/
theorem editAll_restores (draft : Draft) (locks : List Lock) (unbuilt : draft.status ≠ .built) :
    draft.editAll (locks.map .restore) = .ok (draft.meetAll (locks.map .restore)) := by
  rw [← changeAll_restores]
  refine draft.editAll_of_valid unbuilt ?_
  intro edit member
  obtain ⟨lock, _, rfl⟩ := List.mem_map.mp member
  trivial

/-- Restored one by one, all locks of the two sides come to the holdings returned to. -/
theorem Canonical.holdings_restores {draft : Draft} (canonical : draft.Canonical)
    {caller : State} (called : draft.saved = caller.chain) {locks : List Lock}
    (covers : ∀ lock, lock ∈ draft.holdings ∨ lock ∈ caller.holdings → lock ∈ locks) :
    (draft.meetAll (locks.map .restore)).holdings = caller.holdings := by
  have callerCanonical : caller.holdings.Canonical :=
    canonical.saved caller.toSnapshot (called ▸ List.mem_cons_self)
  have kept : (draft.meetAll (locks.map .restore)).holdings.Canonical := by
    rw [← changeAll_restores]
    refine (changeAll_keeps Draft.Canonical ?_ draft canonical).holdings
    intro reached reachedCanonical edit member
    obtain ⟨lock, _, rfl⟩ := List.mem_map.mp member
    refine reachedCanonical.change _ fun root looked => ?_
    cases looked
  refine kept.ext callerCanonical fun lock => ?_
  rw [draft.count_meetAll_restore locks caller.toSnapshot caller.saved called]
  split
  next => rfl
  next absent =>
    have outside : lock ∉ draft.holdings ∧ lock ∉ caller.holdings :=
      not_or.mp fun held => absent (covers lock held)
    rw [Holdings.count_of_not_mem _ _ outside.1, Holdings.count_of_not_mem _ _ outside.2]

/-- Restoring a lock takes the top off what the draft would return to. -/
theorem remaining_restores (draft : Draft) {locks : List Lock} (nonempty : locks ≠ [])
    (called : draft.saved ≠ []) :
    (draft.meetAll (locks.map .restore)).remaining = draft.saved.tail := by
  have marked : (draft.meetAll (locks.map .restore)).restored = true := by
    obtain ⟨lock, rest, rfl⟩ := List.exists_cons_of_ne_nil nonempty
    exact (draft.restored_meetAll_iff _).mpr (Or.inr ⟨[], lock, _, rfl, Or.inl called⟩)
  have unsaved : .save ∉ locks.map Effect.restore := by simp
  rw [remaining, if_pos marked, saved_meetAll, if_neg unsaved]

/-- Restorations leave the status alone. -/
theorem status_restores (draft : Draft) (locks : List Lock) :
    (draft.meetAll (locks.map .restore)).status = draft.status := by
  rw [← changeAll_restores]
  exact draft.status_changeAll (by simp)

/-! ## All at once -/

/-- In a call, restoring all takes over what the caller holds. -/
theorem restoreAll_of_called {draft : Draft} {caller : State}
    (called : draft.saved = caller.chain) :
    draft.restoreAll = { draft with holdings := caller.holdings } := by
  rw [restoreAll, called]
  rfl

/-- An open draft accepts the restoring of all locks. -/
theorem edit_restoreAll (draft : Draft) (unbuilt : draft.status ≠ .built) :
    draft.edit .restoreAll = .ok draft.restoreAll :=
  draft.edit_of_valid .restoreAll unbuilt trivial

end Draft

namespace Session

namespace WellFormed

variable {session : Session} {draft : Draft}

/-- What is built from a grounded draft that holds and returns to what a state does is the same
as that state. -/
theorem same_successor (wellFormed : session.WellFormed) (grounds : session.Grounds draft)
    {caller : State} (holdings : draft.holdings = caller.holdings)
    (returned : draft.remaining = caller.saved) (fresh : Nat) :
    (draft.successor fresh).same caller = true := by
  refine sameChain_of_holdings _ _ ?_
  have levels := wellFormed.levels_successor grounds fresh
  rw [holdings, returned] at levels
  exact levels

/-- A grounded draft that was given all counts of the state it returned to, lock by lock, is
built into the same state. -/
theorem build_restores (wellFormed : session.WellFormed) (grounds : session.Grounds draft)
    {caller : State} (called : draft.saved = caller.chain) {locks : List Lock}
    (nonempty : locks ≠ [])
    (covers : ∀ lock, lock ∈ draft.holdings ∨ lock ∈ caller.holdings → lock ∈ locks)
    (fresh : Nat) :
    ((draft.meetAll (locks.map .restore)).successor fresh).same caller = true := by
  have someCall : draft.saved ≠ [] := by
    rw [called]
    exact List.cons_ne_nil _ _
  refine wellFormed.same_successor (wellFormed.grounds_meetAll grounds _) ?_ ?_ fresh
  · exact (wellFormed.canonical_draft grounds).holdings_restores called covers
  · rw [draft.remaining_restores nonempty someCall, called]
    rfl

/-- A grounded draft that took over all that the state to return to holds is built into a state
that holds the same. It returns to that state, or, if a lock was restored before, is the same as
that state. -/
theorem build_restoreAll (wellFormed : session.WellFormed) (grounds : session.Grounds draft)
    {caller : State} (called : draft.saved = caller.chain) (fresh : Nat) :
    (draft.restoreAll.successor fresh).holdings = caller.holdings ∧
      (draft.restored = false → ∃ link, (draft.restoreAll.successor fresh).restore? = some link ∧
        link.same caller = true) ∧
      (draft.restored = true → (draft.restoreAll.successor fresh).same caller = true) := by
  have stillGrounds : session.Grounds draft.restoreAll := by
    refine wellFormed.grounds_change grounds .restoreAll fun root looked => ?_
    cases looked
  have holdings : draft.restoreAll.holdings = caller.holdings := by
    rw [Draft.restoreAll_of_called called]
  refine ⟨(draft.restoreAll.holdings_successor fresh).trans holdings, ?_, ?_⟩
  · intro unmarked
    have returns : draft.restoreAll.remaining = caller.chain := by
      rw [Draft.restoreAll_of_called called, Draft.remaining, unmarked, ← called]
      rfl
    have levels := wellFormed.levels_successor stillGrounds fresh
    rw [returns, State.levels_def, List.cons.injEq] at levels
    obtain ⟨_, below⟩ := levels
    cases saved : (draft.restoreAll.successor fresh).saved with
    | nil =>
      rw [saved] at below
      cases below
    | cons top rest =>
      rw [saved] at below
      refine ⟨⟨top, rest⟩, ?_, sameChain_of_holdings _ _ below⟩
      rw [State.restore?, saved]
      rfl
  · intro marked
    refine wellFormed.same_successor stillGrounds holdings ?_ fresh
    rw [Draft.restoreAll_of_called called, Draft.remaining, marked, called]
    rfl

end WellFormed

/-- Restoring lock by lock comes to the same as restoring all. Take any work on a recorded state
that has come to a draft with a state to return to, and any nonempty row of locks that names all
that the draft or that state holds. Then the draft lets the locks be restored one by one, and lets
all be restored at once, and both ways it holds what that state holds.

If the path was not ruled out, what is built after the one is the same as that state. What is
built after the other holds the same and returns to a state that is the same as that state, as
long as the work has restored no lock; and if it has restored one while there was a state to
return to, then this way too what is built is the same as that state.

Proof: the counts agree lock by lock, for a lock outside the row counts zero on both sides; and
canonical holdings with equal counts are equal. The mark of a restored lock takes the top off the
chain when the draft is built, and what is built has the levels of the draft even where it is the
origin. -/
theorem restored_one_by_one_as_at_once {session : Session} (reachable : session.Reachable)
    {origin : State} (made : origin ∈ session.states) {edits : List (Edit State)}
    (roots : ∀ edit ∈ edits, ∀ root ∈ edit.root?, root ∈ session.states) {draft : Draft}
    (edited : (Draft.ofState origin).editAll edits = .ok draft) {caller : State}
    (called : State.ofChain? draft.saved = some caller) {locks : List Lock}
    (nonempty : locks ≠ [])
    (covers : ∀ lock, lock ∈ draft.holdings ∨ lock ∈ caller.holdings → lock ∈ locks) :
    ∃ oneByOne atOnce,
      draft.editAll (locks.map .restore) = .ok oneByOne ∧
      draft.edit .restoreAll = .ok atOnce ∧
      oneByOne.holdings = caller.holdings ∧ atOnce.holdings = caller.holdings ∧
      (.abort ∉ edits → ∃ result finished,
        oneByOne.build session.fresh = .ok (some result, finished) ∧
          result.same caller = true) ∧
      (.abort ∉ edits → ∃ result finished,
        atOnce.build session.fresh = .ok (some result, finished) ∧
          result.holdings = caller.holdings ∧
          ((∀ lock, .restore lock ∉ edits) → ∃ link, result.restore? = some link ∧
            link.same caller = true) ∧
          ((Draft.ofState origin).Unwinds edits → result.same caller = true)) := by
  have wellFormed := reachable.wellFormed
  have unbuilt := origin.status_ofState
  have valid : ∀ edit ∈ edits, edit.Valid := by
    apply Classical.byContradiction
    intro invalid
    rw [(Draft.ofState origin).editAll_of_invalid unbuilt invalid] at edited
    cases edited
  rw [(Draft.ofState origin).editAll_of_valid unbuilt valid] at edited
  have grounds := wellFormed.grounds_changeAll (wellFormed.grounds_ofState made) roots
  have stillOpen := (Draft.ofState origin).status_changeAll_ne_built edits unbuilt
  have marked := (Draft.ofState origin).restored_changeAll_iff unbuilt valid
  have stage : .abort ∉ edits → ((Draft.ofState origin).changeAll edits).status = .editing :=
    (Draft.ofState origin).status_changeAll
  rw [Except.ok.inj edited] at grounds stillOpen marked stage
  have returns : draft.saved = caller.chain := (State.chain_of_ofChain? called).symm
  have canonical := wellFormed.canonical_draft grounds
  refine ⟨_, _, draft.editAll_restores locks stillOpen, draft.edit_restoreAll stillOpen,
    canonical.holdings_restores returns covers, ?_, ?_, ?_⟩
  · rw [Draft.restoreAll_of_called returns]
  · intro feasible
    refine ⟨_, _, Draft.build_of_feasible _ _ ?_,
      wellFormed.build_restores grounds returns nonempty covers session.fresh⟩
    rw [draft.status_restores, stage feasible]
  · intro feasible
    obtain ⟨holdings, linked, popped⟩ :=
      wellFormed.build_restoreAll grounds returns session.fresh
    refine ⟨_, _, Draft.build_of_feasible _ _ ?_, holdings, ?_, ?_⟩
    · rw [Draft.restoreAll_of_called returns, stage feasible]
    · intro unrestored
      refine linked (Bool.eq_false_iff.mpr fun isMarked => ?_)
      rcases marked.mp isMarked with before | ⟨_, lock, _, _, rfl, _⟩
      · cases before
      · exact unrestored lock (List.mem_append_right _ List.mem_cons_self)
    · exact fun unwinds => popped (marked.mpr (Or.inr unwinds))

/-- A state holds `a`. Work on it acquires `b` and saves, so that it would return to that very
state. Restoring both locks, and one of them twice, leads back to the state itself; restoring all
leads to a new state that returns to it. -/
theorem restored_to_origin :
    ∃ draft oneByOne atOnce finished,
      (Draft.ofState ⟨⟨1, ⟨[(.ofName "a", 1)]⟩⟩, []⟩).editAll
          [.acquire (.ofName "b"), .save] = .ok draft ∧
        draft.editAll [.restore (.ofName "b"), .restore (.ofName "a"), .restore (.ofName "b")] =
          .ok oneByOne ∧
        oneByOne.build 2 = .ok (some ⟨⟨1, ⟨[(.ofName "a", 1)]⟩⟩, []⟩, finished) ∧
        draft.edit .restoreAll = .ok atOnce ∧ atOnce.holdings = ⟨[(.ofName "a", 1)]⟩ := by
  have reachable : (start.run [.effects 0 [.acquire (.ofName "a") 0]]).2.Reachable := ⟨_, rfl⟩
  have rootless : ∀ edit ∈ [Edit.acquire (.ofName "b"), .save], ∀ root ∈ edit.root?,
      root ∈ (start.run [.effects 0 [.acquire (.ofName "a") 0]]).2.states := by
    simp [Edit.root?]
  have covers : ∀ lock, lock ∈ (⟨[(.ofName "a", 1), (.ofName "b", 1)]⟩ : Holdings) ∨
      lock ∈ (⟨[(.ofName "a", 1)]⟩ : Holdings) →
        lock ∈ [Lock.ofName "b", Lock.ofName "a", Lock.ofName "b"] := by
    intro lock held
    have listed : lock ∈ [Lock.ofName "a", Lock.ofName "b"] ∨ lock ∈ [Lock.ofName "a"] := held
    simp only [List.mem_cons, List.not_mem_nil, or_false] at listed
    rcases listed with (rfl | rfl) | rfl <;> simp
  obtain ⟨oneByOne, atOnce, restored, restoredAll, _, copied, _⟩ :=
    restored_one_by_one_as_at_once reachable
      (List.mem_cons_of_mem _ List.mem_cons_self) rootless rfl rfl (List.cons_ne_nil _ _) covers
  obtain rfl := Except.ok.inj restored
  exact ⟨_, _, atOnce, _, rfl, rfl, rfl, restoredAll, copied⟩

end Session

end HeldLocks
