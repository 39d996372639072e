import HeldLocks.Proofs.Levels
import HeldLocks.Proofs.Workshops

/-!
# Ancestors

The states that a state returns to, one call after the other, are its ancestors. A link is
set to the state that a draft started from, or to what a root returns to, or moves down a
chain that is there already. Each of these was made before the draft is built, so links lead
to smaller numbers only. No chain runs in a circle, and none is longer than the number of its
state.

Chains that are of different lengths do not hold the same at every level. Hence no state is
the same as one of its ancestors, whatever the two hold
(`Session.WellFormed.same_ancestor`), and a draft that would return to its own origin has
not led back to it.
-/

namespace HeldLocks

namespace State

/-- The state that is met after so many links, if the chain is that long. -/
def ancestor? (state : State) : Nat → Option State
  | 0 => some state
  | links + 1 => (state.ancestor? links).bind restore?

/-- The state on top of a chain is the only one with that chain. -/
theorem chain_of_ofChain? {chain : List Snapshot} {state : State}
    (top : ofChain? chain = some state) : state.chain = chain := by
  cases chain with
  | nil => exact nomatch top
  | cons upper below =>
    obtain rfl := Option.some.inj top
    rfl

/-- The chain of an ancestor is what lies so many levels down. -/
theorem chain_ancestor {state ancestor : State} {links : Nat}
    (met : state.ancestor? links = some ancestor) : ancestor.chain = state.chain.drop links := by
  induction links generalizing ancestor with
  | zero =>
    obtain rfl := Option.some.inj met
    rfl
  | succ links inductionHypothesis =>
    obtain ⟨upper, upperMet, returns⟩ := Option.bind_eq_some_iff.mp met
    calc ancestor.chain = upper.saved := chain_of_ofChain? returns
      _ = upper.chain.tail := rfl
      _ = (state.chain.drop links).tail := by rw [inductionHypothesis upperMet]
      _ = state.chain.drop (links + 1) := List.tail_drop

/-- So the levels of an ancestor are the lower levels of the state. -/
theorem levels_ancestor {state ancestor : State} {links : Nat}
    (met : state.ancestor? links = some ancestor) :
    ancestor.levels = state.levels.drop links := by
  rw [levels, chain_ancestor met, List.map_drop, levels]

end State

namespace Session.WellFormed

variable {session : Session}

/-- Every ancestor of a recorded state is recorded, and every link to it costs at least one
of the numbers. -/
theorem made_ancestor (wellFormed : session.WellFormed) {state ancestor : State}
    (made : state ∈ session.states) {links : Nat}
    (met : state.ancestor? links = some ancestor) :
    ancestor ∈ session.states ∧ ancestor.serial + links ≤ state.serial := by
  induction links generalizing ancestor with
  | zero =>
    obtain rfl := Option.some.inj met
    exact ⟨made, Nat.le_refl _⟩
  | succ links inductionHypothesis =>
    obtain ⟨upper, upperMet, returns⟩ := Option.bind_eq_some_iff.mp met
    obtain ⟨upperMade, bound⟩ := inductionHypothesis upperMet
    obtain ⟨ancestorMade, older⟩ := wellFormed.linked upper upperMade ancestor returns
    exact ⟨ancestorMade, by omega⟩

/-- The chain of a recorded state has no more links than the number of the state. -/
theorem ancestor_of_long (wellFormed : session.WellFormed) {state : State}
    (made : state ∈ session.states) {links : Nat} (long : state.serial < links) :
    state.ancestor? links = none := by
  cases met : state.ancestor? links with
  | none => rfl
  | some ancestor =>
    obtain ⟨_, bound⟩ := wellFormed.made_ancestor made met
    omega

/-- A recorded state is not the same as a state that it returns to, directly or through
others. -/
theorem same_ancestor (wellFormed : session.WellFormed) {state ancestor : State}
    (made : state ∈ session.states) {links : Nat}
    (met : state.ancestor? (links + 1) = some ancestor) : state.same ancestor = false := by
  apply Bool.eq_false_iff.mpr
  intro same
  obtain ⟨ancestorMade, _⟩ := wellFormed.made_ancestor made met
  have level : state.levels = state.levels.drop (links + 1) :=
    ((wellFormed.same_iff made ancestorMade).mp same).trans (State.levels_ancestor met)
  have length := congrArg List.length level
  have someLevel : 0 < state.levels.length := Nat.succ_pos _
  rw [List.length_drop] at length
  omega

/-- A draft that would return to its own origin is built into a new state. -/
theorem successor_of_opened (wellFormed : session.WellFormed) {draft : Draft}
    (grounds : session.Grounds draft)
    (opened : State.ofChain? draft.remaining = some draft.origin) (fresh : Nat) :
    draft.successor fresh = ⟨⟨fresh, draft.holdings⟩, draft.origin.chain⟩ := by
  have chain : draft.origin.chain = draft.remaining := State.chain_of_ofChain? opened
  rw [draft.successor_of_apart fresh, chain]
  rw [← chain]
  exact sameChain_below _ _ (wellFormed.descending grounds.origin)

end Session.WellFormed

namespace Workshop

/-- Chains of states are finite and lead to older states only. In a workshop that steps lead
to, states are numbered in the order in which they were made, and of every state:

* What it returns to is a recorded state with a smaller number.
* Its chain ends after no more links than its number says.
* It is not the same as any of its ancestors, in either direction, and all of them are older.

So a draft that would return to its own origin, once a restored lock has been taken into
account, is never built into that origin, but into a new state that returns to it.

Proof: steps keep the links of a workshop's session descending. Then a chain is longer than
those of its ancestors, while states that are the same have chains of one length. -/
theorem ancestors_strictly_older {workshop : Workshop} (reachable : workshop.Reachable) :
    (∀ (place : Nat) (state : State),
      workshop.session.states[place]? = some state → state.serial = place) ∧
    (∀ state ∈ workshop.session.states,
      (∀ caller, state.restore? = some caller →
        caller ∈ workshop.session.states ∧ caller.serial < state.serial) ∧
      (∀ links, state.serial < links → state.ancestor? links = none) ∧
      (∀ links ancestor, state.ancestor? (links + 1) = some ancestor →
        ancestor ∈ workshop.session.states ∧ ancestor.serial < state.serial ∧
          state.same ancestor = false ∧ ancestor.same state = false)) ∧
    (∀ draft ∈ workshop.drafts, State.ofChain? draft.remaining = some draft.origin →
      ∀ result finished,
        draft.build workshop.session.fresh = .ok (some result, finished) →
          result.identical draft.origin = false ∧ result.restore? = some draft.origin) := by
  obtain ⟨wellFormed, grounded⟩ := reachable.sound
  refine ⟨wellFormed.numbered, ?_, ?_⟩
  · intro state made
    refine ⟨wellFormed.linked state made, fun links => wellFormed.ancestor_of_long made, ?_⟩
    intro links ancestor met
    obtain ⟨ancestorMade, bound⟩ := wellFormed.made_ancestor made met
    have apart := wellFormed.same_ancestor made met
    refine ⟨ancestorMade, by omega, apart, ?_⟩
    rw [State.same, sameChain_comm]
    exact apart
  · intro draft isOpen opened result finished ran
    have grounds := grounded draft isOpen
    have unbuilt : draft.status ≠ .built := by
      intro built
      simp [Draft.build, built] at ran
    rw [draft.build_of_unbuilt _ unbuilt] at ran
    obtain ⟨outcome, _⟩ := Prod.mk.inj (Except.ok.inj ran)
    obtain ⟨_, rfl⟩ := (draft.outcome_eq_some_iff _ result).mp outcome
    have older := wellFormed.serial_lt_fresh grounds.origin
    rw [wellFormed.successor_of_opened grounds opened]
    refine ⟨?_, draft.origin.ofChain?_chain⟩
    simp only [State.identical, beq_eq_false_iff_ne]
    omega

/-- Two calls opened in a row without any lock held. All three states hold the same, and still
none is the same as another, and the draft that opens the second call is not built into the
state it started from. -/
theorem calls_without_locks_apart :
    ∃ workshop : Workshop, workshop.Reachable ∧
      workshop.session.states =
        [.empty 0, ⟨⟨1, .empty⟩, [⟨0, .empty⟩]⟩, ⟨⟨2, .empty⟩, [⟨1, .empty⟩, ⟨0, .empty⟩]⟩] ∧
      State.ancestor? ⟨⟨2, .empty⟩, [⟨1, .empty⟩, ⟨0, .empty⟩]⟩ 2 = some (.empty 0) ∧
      State.same ⟨⟨2, .empty⟩, [⟨1, .empty⟩, ⟨0, .empty⟩]⟩ (.empty 0) = false ∧
      ∃ draft ∈ workshop.drafts, ∃ result finished,
        draft.origin = ⟨⟨2, .empty⟩, [⟨1, .empty⟩, ⟨0, .empty⟩]⟩ ∧
        draft.build workshop.session.fresh = .ok (some result, finished) ∧
        result.holdings = draft.origin.holdings ∧ result.identical draft.origin = false := by
  have twice : (Session.start.run [.effects 0 [.save], .effects 1 [.save]]).2.Reachable := ⟨_, rfl⟩
  have opened := (reachable_of_session twice).next
    (.opening [] (List.mem_of_getElem? (i := 2) rfl))
  have saved := opened.next (.effect [] [] .save rfl)
  obtain ⟨_, states, drafts⟩ := ancestors_strictly_older saved
  obtain ⟨_, _, apart⟩ := states _ (List.mem_of_getElem? (i := 2) rfl)
  obtain ⟨isNew, _⟩ := drafts _ List.mem_cons_self rfl _ _ rfl
  exact ⟨_, saved, rfl, rfl, (apart 1 _ rfl).2.2.1, _, List.mem_cons_self, _, _, rfl, rfl, rfl,
    isNew⟩

end Workshop

end HeldLocks
