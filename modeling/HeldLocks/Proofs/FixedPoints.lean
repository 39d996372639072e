import HeldLocks.Proofs.Levels

/-!
# What a reduction leaves alone

A reduction that finds nothing to leave out gives the caller itself, and no copy of it.
`Reduction.Spares` says when there is nothing to leave out in what a caller holds. Besides that the
caller must return to nothing, since a reduction leaves out what a caller returns to under all
options (`Reduction.unchanged_reducing_iff`).

A reduced state meets both conditions. So it is left alone when it is reduced once more, although
each option takes its way through the holdings again: locks are forgotten that are not held, and
counts of one are forgotten and acquired anew (`Reduction.reduce_reduce`).
-/

namespace HeldLocks

namespace Reduction

/-- Whether a reduction for a block finds nothing to leave out in some holdings. If unused locks are
left out, all held locks are locks of the block. If only counts are, no other lock is held more than
once. If nothing is, holdings are spared whatever they are. -/
def Spares (reduction : Reduction) (block : LockSet) (holdings : Holdings) : Prop :=
  if reduction.dropUnused then ∀ lock ∈ holdings, lock ∈ block
  else if reduction.flattenCounts then ∀ lock, lock ∉ block → holdings.count lock ≤ 1
  else True

/-- What the block sees of a count that it has seen before is that count. -/
theorem seen_seen (reduction : Reduction) (held : Nat) :
    reduction.seen (reduction.seen held) = reduction.seen held := by
  obtain ⟨dropUnused, flattenCounts⟩ := reduction
  cases dropUnused <;> cases flattenCounts <;> simp [seen]

/-- Holdings are spared exactly if the block sees every other lock as often held as it is. -/
theorem spares_iff (reduction : Reduction) (block : LockSet) {holdings : Holdings}
    (canonical : holdings.Canonical) :
    reduction.Spares block holdings ↔
      ∀ lock, lock ∉ block → reduction.seen (holdings.count lock) = holdings.count lock := by
  obtain ⟨dropUnused, flattenCounts⟩ := reduction
  cases dropUnused with
  | true =>
    have unheld (lock : Lock) : 0 = holdings.count lock ↔ lock ∉ holdings := by
      rw [canonical.mem_iff_count_pos]
      omega
    simp only [Spares, seen, if_true, unheld]
    exact ⟨fun inside lock outside held => outside (inside lock held),
      fun outside lock held => Decidable.of_not_not fun notInside => outside lock notInside held⟩
  | false =>
    cases flattenCounts with
    | true =>
      have once (lock : Lock) :
          holdings.count lock ≤ 1 ↔ min (holdings.count lock) 1 = holdings.count lock := by
        omega
      simp only [Spares, seen, Bool.false_eq_true, if_false, if_true, once]
    | false => simp only [Spares, seen, Bool.false_eq_true, if_false, implies_true]

/-- The work of a reduction leads back to the caller exactly if the caller returns to nothing and
what it holds is spared. -/
theorem unchanged_reducing_iff (reduction : Reduction) (block : LockSet) {caller : State}
    (canonical : caller.Canonical) :
    (reduction.reducing caller block).unchanged = true ↔
      caller.saved = [] ∧ reduction.Spares block caller.holdings := by
  have context := reduction.context_reducing caller block
  have origin : (reduction.reducing caller block).origin = caller := congrArg (·.1) context
  have holdings := (reduction.reducing caller block).holdings_successor 0
  have held : caller.holdings.Canonical := canonical _ List.mem_cons_self
  have reduced := reduction.canonical_reduce 0 canonical block _ List.mem_cons_self
  have counts := reduction.count_reduce 0 held block
  rw [← reduce_eq] at holdings
  have sameHoldings : (reduction.reducing caller block).holdings = caller.holdings ↔
      reduction.Spares block caller.holdings := by
    rw [← holdings, reduction.spares_iff block held]
    constructor
    · intro same lock outside
      have here := counts lock
      rwa [same, if_neg outside, eq_comm] at here
    · intro spared
      refine reduced.ext held fun lock => (counts lock).trans ?_
      split
      next => rfl
      next outside => exact spared lock outside
  have sameSaved : sameChain [] caller.saved = true ↔ caller.saved = [] :=
    ⟨eq_nil_of_sameChain, fun closed => closed ▸ sameChain_self []⟩
  rw [Draft.unchanged, origin, Draft.remaining_of_context context, Bool.and_eq_true, beq_iff_eq,
    sameHoldings, sameSaved, and_comm]

/-- A reduced state is spared by the reduction that it comes from. -/
theorem spares_reduce (reduction : Reduction) (fresh : Nat) {caller : State}
    (canonical : caller.Canonical) (block : LockSet) :
    reduction.Spares block (reduction.reduce fresh caller block).holdings := by
  have reduced := reduction.canonical_reduce fresh canonical block _ List.mem_cons_self
  rw [reduction.spares_iff block reduced]
  intro lock outside
  rw [reduction.count_reduce fresh (canonical _ List.mem_cons_self) block lock, if_neg outside,
    seen_seen]

/-- A reduced state reduces to itself. -/
theorem reduce_reduce (reduction : Reduction) (fresh next : Nat) {caller : State}
    (canonical : caller.Canonical) (block : LockSet) :
    reduction.reduce next (reduction.reduce fresh caller block) block =
      reduction.reduce fresh caller block := by
  have reduced := reduction.canonical_reduce fresh canonical block
  have unchanged := (reduction.unchanged_reducing_iff block reduced).mpr
    ⟨reduction.saved_reduce fresh caller block, reduction.spares_reduce fresh canonical block⟩
  rw [reduction.reduce_eq next, Draft.successor_of_unchanged _ _ unchanged]
  exact congrArg (·.1) (reduction.context_reducing _ block)

end Reduction

namespace Session

/-- A reduction does its work once. A state of a session that was reduced for a block and is reduced
for it again, under any number, comes out as itself, and nothing is recorded for it.

The reduced state is the caller itself exactly if the caller returns to nothing and holds nothing
that the options of the reduction would leave out. Otherwise it is new.

Proof: a reduction leads back to where it started exactly if it changes neither the chain nor any
count, and it changes no count that it has made itself. -/
theorem reduced_state_left_alone {session : Session} (reachable : session.Reachable)
    {caller : State} (made : caller ∈ session.states) (reduction : Reduction) (block : LockSet) :
    ∃ reduced, reduction.reduce session.fresh caller block = reduced ∧
      (∀ next, reduction.reduce next reduced block = reduced) ∧
      (session.record reduced).record
        (reduction.reduce (session.record reduced).fresh reduced block) = session.record reduced ∧
      (reduced.identical caller = true ↔ reduced = caller) ∧
      (reduced = caller ↔ caller.restore? = none ∧ reduction.Spares block caller.holdings) ∧
      (reduced = caller ∨ reduced.serial = session.fresh) := by
  have wellFormed := reachable.wellFormed
  have canonical := wellFormed.canonical_chain made
  have origin : (reduction.reducing caller block).origin = caller :=
    congrArg (·.1) (reduction.context_reducing caller block)
  have older : (reduction.reducing caller block).origin.serial < session.fresh :=
    origin.symm ▸ wellFormed.serial_lt_fresh made
  have again (next : Nat) := reduction.reduce_reduce session.fresh next canonical block
  have identical := Draft.identical_successor_iff _ older
  have itself := Draft.successor_eq_origin_iff _ older
  have leftAlone := reduction.unchanged_reducing_iff block canonical
  have place := Draft.successor_eq_or_serial (reduction.reducing caller block) session.fresh
  obtain ⟨laterWellFormed, recorded, _⟩ :=
    wellFormed.record_successor (wellFormed.grounds_reducing made block reduction)
  rw [origin, ← reduction.reduce_eq] at identical itself place
  rw [← reduction.reduce_eq] at laterWellFormed recorded
  refine ⟨_, rfl, again, ?_, identical.trans itself.symm, ?_, place⟩
  · rw [again]
    exact record_of_old _ _ (laterWellFormed.serial_lt_fresh recorded)
  · rw [itself, leftAlone, State.restore?_eq_none_iff]

/-- A caller holds a lock outside the block once, and a call is opened from it. Where only counts
are left out, the caller is its own reduced state, and where unused locks are, it is not. In the
call the same holdings are reduced to a new state, for the sake of the chain, and that one is left
alone. -/
theorem open_call_reduced_once :
    ∃ outer inner : State,
      outer.holdings.entries = [(.ofName "a", 2), (.ofName "b", 1)] ∧
      inner.holdings = outer.holdings ∧ inner.saved = [outer.toSnapshot] ∧
      Reduction.reduce ⟨false, true⟩ 3 outer (.ofList [.ofName "a"]) = outer ∧
      Reduction.reduce ⟨true, true⟩ 3 outer (.ofList [.ofName "a"]) ≠ outer ∧
      ∃ reduced, Reduction.reduce ⟨false, true⟩ 3 inner (.ofList [.ofName "a"]) = reduced ∧
        reduced.serial = 3 ∧
        Reduction.reduce ⟨false, true⟩ 4 reduced (.ofList [.ofName "a"]) = reduced := by
  obtain ⟨session, reachable, unused, outerMade, innerMade⟩ : ∃ session : Session,
      session.Reachable ∧ session.fresh = 3 ∧
        ⟨⟨1, ⟨[(.ofName "a", 2), (.ofName "b", 1)]⟩⟩, []⟩ ∈ session.states ∧
        ⟨⟨2, ⟨[(.ofName "a", 2), (.ofName "b", 1)]⟩⟩,
          [⟨1, ⟨[(.ofName "a", 2), (.ofName "b", 1)]⟩⟩]⟩ ∈ session.states :=
    ⟨(start.run [.effects 0 [.assign (.ofName "a") 2, .acquire (.ofName "b") 0],
      .effects 1 [.save]]).2, ⟨_, rfl⟩, rfl,
      List.mem_of_getElem? (i := 1) rfl, List.mem_of_getElem? (i := 2) rfl⟩
  have block := LockSet.mem_ofList [.ofName "a"]
  obtain ⟨_, rfl, _, _, _, flattened, _⟩ :=
    reduced_state_left_alone reachable outerMade ⟨false, true⟩ (.ofList [.ofName "a"])
  obtain ⟨_, rfl, _, _, _, dropped, _⟩ :=
    reduced_state_left_alone reachable outerMade ⟨true, true⟩ (.ofList [.ofName "a"])
  obtain ⟨_, rfl, again, _, _, detached, place⟩ :=
    reduced_state_left_alone reachable innerMade ⟨false, true⟩ (.ofList [.ofName "a"])
  rw [unused] at flattened dropped again detached place
  refine ⟨⟨⟨1, _⟩, _⟩, ⟨⟨2, _⟩, _⟩, rfl, rfl, rfl, flattened.mpr ⟨rfl, ?_⟩, ?_, _, rfl, ?_, again 4⟩
  · intro lock outside
    have other : lock ≠ .ofName "a" := fun same =>
      outside ((block lock).mpr (List.mem_singleton.mpr same))
    simp only [Holdings.count, Holdings.countIn, Ne.symm other, if_false]
    split <;> decide
  · rw [ne_eq, dropped]
    rintro ⟨_, inside⟩
    have listed := (block _).mp (inside (.ofName "b") (by decide))
    exact absurd (List.mem_singleton.mp listed) (by decide)
  · refine place.resolve_left fun same => ?_
    cases (detached.mp same).1

end Session

end HeldLocks
