import HeldLocks.Proofs.Counts
import HeldLocks.Proofs.Levels

/-!
# What a key tells apart

Callers whose reduced states have one key share a summary. A key that tells too little apart makes
summaries wrong, and one that tells too much makes them useless, so this module says exactly what
it tells apart. `Reduction.Alike` puts it in terms of what the callers hold: always the counts of
the locks of the block, and of the other locks nothing, or which of them are held, or their counts,
as the options have it.

A key counts a lock of the block as the caller does, and any other as the block sees it. So two keys
are equal if the callers agree on the block and the block sees the same of them outside
(`Reduction.key_eq_iff`), and what is left is to say when it does (`Reduction.alike_iff`). What a
caller returns to has no part in any of this, since a reduced state returns to nothing.
-/

namespace HeldLocks

namespace Reduction

/-- Whether what two callers hold makes no difference to a reduction for a block. Inside the block
they hold the same. Outside it they hold anything, if unused locks are left out; or the same locks,
if only the counts are; or the same locks as often, if nothing is. -/
def Alike (reduction : Reduction) (block : LockSet) (left right : Holdings) : Prop :=
  if reduction.dropUnused then left.AgreeOn block right
  else if reduction.flattenCounts then
    left.AgreeOn block right ∧ ∀ lock, lock ∉ block → (lock ∈ left ↔ lock ∈ right)
  else ∀ lock, left.count lock = right.count lock

/-- Two keys are equal exactly if the callers agree on the block and the block sees the same of
them outside. -/
theorem key_eq_iff (reduction : Reduction) (block : LockSet) {left right : State}
    (leftCanonical : left.Canonical) (rightCanonical : right.Canonical)
    (leftFresh rightFresh : Nat) :
    key (reduction.reduce leftFresh left block) = key (reduction.reduce rightFresh right block) ↔
      left.holdings.AgreeOn block right.holdings ∧ ∀ lock, lock ∉ block →
        reduction.seen (left.holdings.count lock) = reduction.seen (right.holdings.count lock) := by
  have counted {caller : State} (canonical : caller.Canonical) (fresh : Nat) (lock : Lock) :
      (key (reduction.reduce fresh caller block)).count lock =
        if lock ∈ block then caller.holdings.count lock
        else reduction.seen (caller.holdings.count lock) :=
    reduction.count_reduce fresh (canonical _ List.mem_cons_self) block lock
  constructor
  · intro sameKey
    have agree (lock : Lock) := congrArg (fun held => held.count lock) sameKey
    simp only [counted leftCanonical, counted rightCanonical] at agree
    constructor
    · intro lock inside
      simpa only [inside, if_true] using agree lock
    · intro lock outside
      simpa only [outside, if_false] using agree lock
  · rintro ⟨inside, outside⟩
    have leftReduced := reduction.canonical_reduce leftFresh leftCanonical block
    have rightReduced := reduction.canonical_reduce rightFresh rightCanonical block
    apply (leftReduced _ List.mem_cons_self).ext (rightReduced _ List.mem_cons_self)
    intro lock
    have leftCount := counted leftCanonical leftFresh lock
    have rightCount := counted rightCanonical rightFresh lock
    by_cases member : lock ∈ block
    · rw [if_pos member] at leftCount rightCount
      exact leftCount.trans ((inside lock member).trans rightCount.symm)
    · rw [if_neg member] at leftCount rightCount
      exact leftCount.trans ((outside lock member).trans rightCount.symm)

/-- Holdings are alike for a reduction exactly if they agree on the block and the block sees the
same of them outside. Of a lock whose count is flattened it sees whether it is held. -/
theorem alike_iff (reduction : Reduction) (block : LockSet) {left right : Holdings}
    (leftCanonical : left.Canonical) (rightCanonical : right.Canonical) :
    reduction.Alike block left right ↔
      left.AgreeOn block right ∧ ∀ lock, lock ∉ block →
        reduction.seen (left.count lock) = reduction.seen (right.count lock) := by
  obtain ⟨dropUnused, flattenCounts⟩ := reduction
  cases dropUnused with
  | true => simp [Alike, seen]
  | false =>
    cases flattenCounts with
    | true =>
      have sameSeen (lock : Lock) : (lock ∈ left ↔ lock ∈ right) ↔
          min (left.count lock) 1 = min (right.count lock) 1 := by
        rw [leftCanonical.mem_iff_count_pos, rightCanonical.mem_iff_count_pos]
        omega
      simp [Alike, seen, sameSeen]
    | false =>
      simp only [Alike, seen, Bool.false_eq_true, if_false, Holdings.AgreeOn]
      constructor
      · exact fun same => ⟨fun lock _ => same lock, fun lock _ => same lock⟩
      · rintro ⟨inside, outside⟩ lock
        by_cases member : lock ∈ block
        · exact inside lock member
        · exact outside lock member

end Reduction

namespace Session

/-- A key tells apart what the options of the reduction say, and nothing else. Two states of a
session have reduced states with one key exactly if what they hold is alike for the reduction,
whatever they return to, since no reduced state returns to anything. And where the keys are equal
the reduced states are the same, at every level.

The numbers given to the reduced states do not matter.

Proof: lock by lock, with what the block sees of a count. A reduced state has one level only, and
that is its key. -/
theorem key_tells_apart_exactly {session : Session} (reachable : session.Reachable)
    {left right : State} (leftMade : left ∈ session.states) (rightMade : right ∈ session.states)
    (reduction : Reduction) (block : LockSet) (leftFresh rightFresh : Nat) :
    (Reduction.key (reduction.reduce leftFresh left block) =
        Reduction.key (reduction.reduce rightFresh right block) ↔
      reduction.Alike block left.holdings right.holdings) ∧
    (reduction.reduce leftFresh left block).restore? = none ∧
    (reduction.reduce rightFresh right block).restore? = none ∧
    (Reduction.key (reduction.reduce leftFresh left block) =
        Reduction.key (reduction.reduce rightFresh right block) →
      (reduction.reduce leftFresh left block).levels =
          (reduction.reduce rightFresh right block).levels ∧
        (reduction.reduce leftFresh left block).same
          (reduction.reduce rightFresh right block) = true) := by
  have wellFormed := reachable.wellFormed
  have leftSaved := reduction.saved_reduce leftFresh left block
  have rightSaved := reduction.saved_reduce rightFresh right block
  refine ⟨?_, ?_, ?_, ?_⟩
  · rw [reduction.key_eq_iff block (wellFormed.canonical_chain leftMade)
      (wellFormed.canonical_chain rightMade), reduction.alike_iff block
      (wellFormed.canonical left leftMade) (wellFormed.canonical right rightMade)]
  · exact (State.restore?_eq_none_iff _).mpr leftSaved
  · exact (State.restore?_eq_none_iff _).mpr rightSaved
  · intro sameKey
    have saved := leftSaved.trans rightSaved.symm
    constructor
    · rw [State.levels_def, State.levels_def, saved]
      exact congrArg (· :: _) sameKey
    · exact State.same_of_holdings _ _ sameKey saved

/-- Two callers hold a lock outside the block, one of them in a call and more often. With flattened
counts they share a summary. Without, the count of that lock tells them apart. -/
theorem flattened_count_not_told_apart :
    ∃ outer inner : State,
      outer.holdings.entries = [(.ofName "a", 1), (.ofName "b", 2)] ∧
      inner.holdings.entries = [(.ofName "a", 1), (.ofName "b", 3)] ∧
      inner.saved = [outer.toSnapshot] ∧
      (Reduction.reduce ⟨false, true⟩ 3 outer (.ofList [.ofName "a"])).same
        (Reduction.reduce ⟨false, true⟩ 4 inner (.ofList [.ofName "a"])) = true ∧
      Reduction.key (Reduction.reduce ⟨false, false⟩ 3 outer (.ofList [.ofName "a"])) ≠
        Reduction.key (Reduction.reduce ⟨false, false⟩ 3 inner (.ofList [.ofName "a"])) := by
  obtain ⟨session, reachable, outerMade, innerMade⟩ : ∃ session : Session,
      session.Reachable ∧
        ⟨⟨1, ⟨[(.ofName "a", 1), (.ofName "b", 2)]⟩⟩, []⟩ ∈ session.states ∧
        ⟨⟨2, ⟨[(.ofName "a", 1), (.ofName "b", 3)]⟩⟩,
          [⟨1, ⟨[(.ofName "a", 1), (.ofName "b", 2)]⟩⟩]⟩ ∈ session.states :=
    ⟨(start.run [.effects 0 [.acquire (.ofName "a") 0, .assign (.ofName "b") 2],
      .effects 1 [.save, .acquire (.ofName "b") 0]]).2, ⟨_, rfl⟩,
      List.mem_of_getElem? (i := 1) rfl, List.mem_of_getElem? (i := 2) rfl⟩
  have exactly := key_tells_apart_exactly reachable outerMade innerMade
  refine ⟨⟨⟨1, ⟨[(.ofName "a", 1), (.ofName "b", 2)]⟩⟩, []⟩, ⟨⟨2, ⟨[(.ofName "a", 1),
    (.ofName "b", 3)]⟩⟩, [⟨1, ⟨[(.ofName "a", 1), (.ofName "b", 2)]⟩⟩]⟩, rfl, rfl, rfl, ?_, ?_⟩
  · obtain ⟨told, _, _, same⟩ := exactly ⟨false, true⟩ (.ofList [.ofName "a"]) 3 4
    refine (same (told.mpr ⟨?_, ?_⟩)).2
    · intro lock inside
      obtain rfl := List.mem_singleton.mp ((LockSet.mem_ofList _ _).mp inside)
      rfl
    · exact fun _ _ => Iff.rfl
  · obtain ⟨told, _⟩ := exactly ⟨false, false⟩ (.ofList [.ofName "a"]) 3 3
    rw [ne_eq, told]
    intro alike
    exact absurd (alike (.ofName "b")) (by decide)

end Session

end HeldLocks
