import HeldLocks.Proofs.Workshops
import Mathlib.Data.Set.Card

/-!
# Representation

Holdings are shown as a list of entries, and the list answers three questions: whether a lock
is held, how many locks are, and which. The counts give answers of their own, since a lock is
held if its count is positive. `Holdings.Faithful` says that the two agree. An entry with the
count zero would be enough to break it, and so would a lock that is listed twice or out of
its place.

Canonical holdings are faithful (`Holdings.Canonical.faithful`). In a workshop all holdings
are canonical: those of the states made, down their chains, and those of the drafts, after
every edit, effect and build, with what they would return to.
-/

namespace HeldLocks

namespace Holdings

/-- The list of entries answers as the counts do. -/
structure Faithful (holdings : Holdings) : Prop where
  /-- Every listed count is at least one. -/
  positive : ∀ entry ∈ holdings.entries, 1 ≤ entry.2
  /-- The listed locks ascend strictly. -/
  ascending : (holdings.entries.map Prod.fst).Pairwise (· < ·)
  /-- No lock is listed twice. -/
  distinct : (holdings.entries.map Prod.fst).Nodup
  /-- A lock is held exactly if its count is positive. -/
  mem_iff : ∀ lock, lock ∈ holdings ↔ 0 < holdings.count lock
  /-- The size is the number of locks with a positive count. -/
  encard : {lock | 0 < holdings.count lock}.encard = holdings.size
  /-- The held locks are listed in order. -/
  ordered : holdings.locks.Ascending
  /-- The held locks are those with a positive count. -/
  mem_locks_iff : ∀ lock, lock ∈ holdings.locks ↔ 0 < holdings.count lock

variable {holdings : Holdings}

/-- Canonical holdings have as many locks with a positive count as they have entries. -/
theorem Canonical.encard_positive (canonical : holdings.Canonical) :
    {lock | 0 < holdings.count lock}.encard = holdings.size := by
  have listed : {lock | 0 < holdings.count lock} =
      ((holdings.entries.map Prod.fst).toFinset : Set Lock) := by
    ext lock
    rw [Set.mem_ofPred_eq, ← canonical.mem_iff_count_pos, List.coe_toFinset, Set.mem_ofPred_eq]
    exact Iff.rfl
  rw [listed, Set.encard_coe_eq_coe_finsetCard,
    List.toFinset_card_of_nodup canonical.nodup_locks, List.length_map]
  rfl

/-- Canonical holdings are faithful. -/
theorem Canonical.faithful (canonical : holdings.Canonical) : holdings.Faithful where
  positive := canonical.positive
  ascending := canonical.ascending_locks
  distinct := canonical.nodup_locks
  mem_iff := canonical.mem_iff_count_pos
  encard := canonical.encard_positive
  ordered := canonical.ascending_locks
  mem_locks_iff := fun lock => (mem_locks holdings lock).trans (canonical.mem_iff_count_pos lock)

end Holdings

namespace Workshop

/-- In a workshop that steps lead to, whatever was done in it, all holdings are faithful:
those of every state, at every level of its chain, those that every draft has so far, and
those at every level of what a draft would return to.

Proof: the session is well formed and every draft is grounded in it. -/
theorem holdings_faithful {workshop : Workshop} (reachable : workshop.Reachable) :
    (∀ state ∈ workshop.session.states, ∀ snapshot ∈ state.chain,
      snapshot.holdings.Faithful) ∧
    (∀ draft ∈ workshop.drafts, draft.holdings.Faithful ∧
      ∀ snapshot ∈ draft.saved, snapshot.holdings.Faithful) := by
  obtain ⟨wellFormed, grounded⟩ := reachable.sound
  constructor
  · intro state made snapshot level
    exact (wellFormed.canonical_chain made snapshot level).faithful
  · intro draft opened
    have canonical := wellFormed.canonical_draft (grounded draft opened)
    exact ⟨canonical.holdings.faithful, fun snapshot level =>
      (canonical.saved snapshot level).faithful⟩

/-- A draft that acquires two locks, out of order and one of them twice, and releases a third
that it does not hold. The state it becomes holds two locks, and no count is left of the
third. -/
theorem built_state_holds_two :
    ∃ workshop : Workshop, workshop.Reachable ∧
      workshop.session.states =
        [.empty 0, ⟨⟨1, ⟨[(.ofName "a", 2), (.ofName "b", 1)]⟩⟩, []⟩] ∧
      {lock | 0 < Holdings.count ⟨[(.ofName "a", 2), (.ofName "b", 1)]⟩ lock}.encard = 2 ∧
      ∀ lock, lock ∈ Holdings.locks ⟨[(.ofName "a", 2), (.ofName "b", 1)]⟩ ↔
        0 < Holdings.count ⟨[(.ofName "a", 2), (.ofName "b", 1)]⟩ lock := by
  have rootless : ∀ root ∈ (none : Option State), root ∈ Session.start.states :=
    fun root looked => nomatch looked
  have opened := Reachable.start.next (.opening [] (List.mem_cons_self (a := State.empty 0)))
  have edited := (opened.next (.edit [] [] (.acquire (.ofName "b")) rootless rfl)).next
    (.edit [] [] (.assign (.ofName "a") 2) rootless rfl)
  have affected := edited.next (.effect [] [] (.release (.ofName "c")) rfl)
  have built := affected.next (.build [] [] rfl)
  obtain ⟨states, _⟩ := holdings_faithful built
  have faithful := states ⟨⟨1, ⟨[(.ofName "a", 2), (.ofName "b", 1)]⟩⟩, []⟩
    (List.mem_of_getElem? (i := 1) rfl) _ List.mem_cons_self
  exact ⟨_, built, rfl, faithful.encard, faithful.mem_locks_iff⟩

end Workshop

end HeldLocks
