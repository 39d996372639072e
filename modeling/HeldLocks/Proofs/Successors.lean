import HeldLocks.Draft.Build
import HeldLocks.Proofs.Batches

/-!
# Chains and successors

Along the chain of a state the numbers descend, since a state is made after all that it
returns to. A descending chain never agrees with what lies below its own top, so a
successor that opens a call, or returns from one, cannot be taken for its origin:
`Draft.saved_successor_of_chain` and `Draft.saved_successor_of_caller` give the chain of
such a successor exactly. Where the chain is left alone the successor keeps it whether or
not it is shared.

With that, the chain after a batch is known from the batch (`State.saved_after_of_plain` and
those beside it): it is left alone by a batch that neither saves nor restores a lock, goes
up to the state itself with one that saves, and goes down to the caller's with one that
restores a lock. A batch that does both ends where it started.
-/

namespace HeldLocks

/-- The numbers along a chain descend. -/
def Descending (chain : List Snapshot) : Prop :=
  chain.Pairwise fun upper lower => lower.serial < upper.serial

/-- Which of two chains is compared with the other does not matter. -/
theorem sameChain_comm (left right : List Snapshot) :
    sameChain left right = sameChain right left := by
  induction left generalizing right with
  | nil => cases right <;> rfl
  | cons upper lefts inductionHypothesis =>
    cases right with
    | nil => rfl
    | cons other rights =>
      rw [sameChain, sameChain, inductionHypothesis, BEq.comm, BEq.comm (a := upper.holdings)]

/-- Chains with the same holdings at every level agree, whatever their numbers. -/
theorem sameChain_of_holdings (left right : List Snapshot)
    (level : left.map Snapshot.holdings = right.map Snapshot.holdings) :
    sameChain left right = true := by
  induction left generalizing right with
  | nil =>
    cases right with
    | nil => rfl
    | cons other rights => exact nomatch level
  | cons upper lefts inductionHypothesis =>
    cases right with
    | nil => exact nomatch level
    | cons other rights =>
      obtain ⟨here, below⟩ := List.cons.inj level
      simp [sameChain, here, inductionHypothesis rights below]

/-- Nothing but the empty chain agrees with the empty chain. -/
theorem eq_nil_of_sameChain {chain : List Snapshot} (agrees : sameChain [] chain = true) :
    chain = [] := by
  cases chain with
  | nil => rfl
  | cons upper below => exact nomatch agrees

/-- A descending chain does not agree with what lies below its top. Every level meets a
smaller number, so no shared number settles the comparison, and the lower chain ends
first. -/
theorem sameChain_below (top : Snapshot) (below : List Snapshot)
    (descending : Descending (top :: below)) : sameChain (top :: below) below = false := by
  induction below generalizing top with
  | nil => rfl
  | cons next rest inductionHypothesis =>
    obtain ⟨lower, further⟩ := List.pairwise_cons.mp descending
    have smaller : next.serial < top.serial := lower next List.mem_cons_self
    have apart : (top.serial == next.serial) = false := by
      simp only [beq_eq_false_iff_ne]
      omega
    rw [sameChain, apart, inductionHypothesis next further]
    simp

namespace State

/-- States with the same holdings that return to the very same chain are the same. -/
theorem same_of_holdings (left right : State) (holdings : left.holdings = right.holdings)
    (saved : left.saved = right.saved) : left.same right = true := by
  apply sameChain_of_holdings
  simp [chain, holdings, saved]

/-- A state does not return to itself. -/
theorem restore?_ne_self (state : State) : state.restore? ≠ some state := by
  intro itself
  cases returns : state.saved with
  | nil => simp [restore?, returns, ofChain?] at itself
  | cons top below =>
    simp only [restore?, returns, ofChain?, Option.some.injEq] at itself
    have shorter := congrArg (fun state => state.saved.length) itself
    simp [returns] at shorter

end State

namespace Draft

/-- The successor holds what the draft holds, shared or not. -/
theorem holdings_successor (draft : Draft) (fresh : Nat) :
    (draft.successor fresh).holdings = draft.holdings := by
  rw [successor]
  split
  next shared =>
    simp only [unchanged, Bool.and_eq_true, beq_iff_eq] at shared
    exact shared.1.symm
  next => rfl

/-- A successor that returns elsewhere than its origin is a new state. -/
theorem successor_of_apart (draft : Draft) (fresh : Nat)
    (apart : sameChain draft.remaining draft.origin.saved = false) :
    draft.successor fresh = ⟨⟨fresh, draft.holdings⟩, draft.remaining⟩ := by
  simp [successor, unchanged, apart]

/-- Without the mark the successor returns to what the draft says. -/
theorem remaining_of_context {draft : Draft} {origin : State} {chain : List Snapshot}
    {stage : Status} (context : draft.context = (origin, chain, false, stage)) :
    draft.remaining = chain := by
  have unmarked : draft.restored = false := congrArg (·.2.2.1) context
  rw [remaining, unmarked]
  exact congrArg (·.2.1) context

/-- Where the remaining chain agrees with that of the origin only if it is that chain, the
successor has the remaining chain, shared or not. -/
theorem saved_successor_of_exact (draft : Draft) (fresh : Nat)
    (faithful : sameChain draft.remaining draft.origin.saved = true →
      draft.remaining = draft.origin.saved) :
    (draft.successor fresh).saved = draft.remaining := by
  rw [successor]
  split
  next shared =>
    simp only [unchanged, Bool.and_eq_true] at shared
    exact (faithful shared.2).symm
  next => rfl

/-- A draft that leaves the chain alone has a successor with that chain. -/
theorem saved_successor_of_kept (draft : Draft) (fresh : Nat)
    (kept : draft.remaining = draft.origin.saved) :
    (draft.successor fresh).saved = draft.origin.saved := by
  rw [saved_successor_of_exact draft fresh fun _ => kept, kept]

/-- A draft that opens a call has a successor that returns to the very origin. -/
theorem saved_successor_of_chain (draft : Draft) (fresh : Nat)
    (descending : Descending draft.origin.chain)
    (opens : draft.remaining = draft.origin.chain) :
    (draft.successor fresh).saved = draft.origin.chain := by
  have apart : sameChain draft.remaining draft.origin.saved = false := by
    rw [opens]
    exact sameChain_below _ _ descending
  rw [successor_of_apart draft fresh apart]
  exact opens

/-- A draft whose origin returns to a caller, and that returns from that call, has a
successor with the caller's chain. -/
theorem saved_successor_of_caller (draft : Draft) (fresh : Nat) (caller : State)
    (descending : Descending caller.chain) (called : draft.origin.saved = caller.chain)
    (returns : draft.remaining = caller.saved) :
    (draft.successor fresh).saved = caller.saved := by
  have apart : sameChain draft.remaining draft.origin.saved = false := by
    rw [returns, called, sameChain_comm]
    exact sameChain_below _ _ descending
  rw [successor_of_apart draft fresh apart]
  exact returns

/-- Effects look at no state besides the one they act on, so they keep a draft canonical. -/
theorem Canonical.meetAll {draft : Draft} (canonical : draft.Canonical)
    (effects : List Effect) : (draft.meetAll effects).Canonical := by
  apply meetAll_keeps Draft.Canonical _ draft canonical
  intro reached reachedCanonical effect _
  rcases reached.meet_eq_or_eq effect with same | changed
  · rw [same]
    exact reachedCanonical
  · rw [changed]
    apply reachedCanonical.change
    rw [effect.root?_asked]
    exact fun root looked => nomatch looked

/-- What the successor of a draft returns to is part of what the draft has saved. -/
theorem mem_of_mem_remaining {draft : Draft} {snapshot : Snapshot}
    (member : snapshot ∈ draft.remaining) : snapshot ∈ draft.saved := by
  rw [remaining] at member
  split at member
  · exact List.mem_of_mem_tail member
  · exact member

/-- What holds of all that a draft has or can take up holds along the chain of its successor. -/
theorem forall_chain_successor (Good : Holdings → Prop) (draft : Draft) (fresh : Nat)
    (holdings : Good draft.holdings)
    (origin : ∀ snapshot ∈ draft.origin.chain, Good snapshot.holdings)
    (saved : ∀ snapshot ∈ draft.saved, Good snapshot.holdings) :
    ∀ snapshot ∈ (draft.successor fresh).chain, Good snapshot.holdings := by
  rw [Draft.successor]
  split
  · exact origin
  · intro snapshot member
    rcases List.mem_cons.mp member with rfl | member
    · exact holdings
    · exact saved snapshot (mem_of_mem_remaining member)

/-- The successor of a canonical draft is canonical along its chain. -/
theorem Canonical.successor {draft : Draft} (canonical : draft.Canonical) (fresh : Nat) :
    (draft.successor fresh).Canonical :=
  forall_chain_successor Holdings.Canonical draft fresh canonical.holdings canonical.origin
    canonical.saved

end Draft

namespace State

/-! ## What a batch makes of the chain -/

/-- A batch that neither saves nor restores a lock leaves the chain alone. -/
theorem saved_after_of_plain (state next : State) (fresh : Nat) (effects : List Effect)
    (unsaved : .save ∉ effects) (unrestored : ∀ lock, .restore lock ∉ effects)
    (ran : state.after fresh effects = .ok (some next)) : next.saved = state.saved := by
  obtain rfl := successor_of_after state next fresh effects ran
  have unmarked := (Draft.ofState state).restored_meetAll_of_none effects rfl unrestored
  have kept := (Draft.ofState state).saved_meetAll effects
  have origin := (Draft.ofState state).origin_meetAll effects
  rw [if_neg unsaved] at kept
  rw [Draft.saved_successor_of_kept, origin]
  · rfl
  · rw [Draft.remaining, unmarked, origin]
    exact kept

/-- What the draft of a batch that saves would return to. -/
theorem remaining_of_save (state : State) (effects : List Effect) (saves : .save ∈ effects) :
    ((Draft.ofState state).meetAll effects).remaining =
      if ((Draft.ofState state).meetAll effects).restored then state.saved
      else state.chain := by
  have saved := (Draft.ofState state).saved_meetAll effects
  rw [if_pos saves] at saved
  rw [Draft.remaining, saved]
  rfl

/-- A batch that saves and sets no mark leads to a state that returns to the very state it
started from. -/
theorem saved_after_of_save (state next : State) (fresh : Nat) (effects : List Effect)
    (descending : Descending state.chain) (saves : .save ∈ effects)
    (unreturned : ¬ (Draft.ofState state).Returns effects)
    (ran : state.after fresh effects = .ok (some next)) : next.saved = state.chain := by
  obtain rfl := successor_of_after state next fresh effects ran
  have origin := (Draft.ofState state).origin_meetAll effects
  have unmarked : ((Draft.ofState state).meetAll effects).restored = false := by
    apply Bool.eq_false_iff.mpr
    rw [ne_eq, Draft.restored_meetAll_iff]
    simpa [Draft.ofState] using unreturned
  have remaining := remaining_of_save state effects saves
  rw [unmarked] at remaining
  have opened := Draft.saved_successor_of_chain ((Draft.ofState state).meetAll effects) fresh
  rw [origin] at opened
  exact opened descending remaining

/-- A batch that saves and sets the mark drops what it saved: the state it leads to
returns to where the state it started from does. -/
theorem saved_after_of_lost_save (state next : State) (fresh : Nat) (effects : List Effect)
    (saves : .save ∈ effects) (returns : (Draft.ofState state).Returns effects)
    (ran : state.after fresh effects = .ok (some next)) : next.saved = state.saved := by
  obtain rfl := successor_of_after state next fresh effects ran
  have origin := (Draft.ofState state).origin_meetAll effects
  have marked : ((Draft.ofState state).meetAll effects).restored = true :=
    (Draft.restored_meetAll_iff _ effects).mpr (Or.inr returns)
  have remaining := remaining_of_save state effects saves
  rw [marked] at remaining
  have kept := Draft.saved_successor_of_kept ((Draft.ofState state).meetAll effects) fresh
  rw [origin] at kept
  exact kept remaining

/-- A batch that restores a lock and does not save returns from the call that is open. -/
theorem saved_after_of_return (state next caller : State) (fresh : Nat)
    (effects : List Effect) (descending : Descending caller.chain)
    (called : state.saved = caller.chain) (unsaved : .save ∉ effects) {lock : Lock}
    (restores : .restore lock ∈ effects)
    (ran : state.after fresh effects = .ok (some next)) : next.saved = caller.saved := by
  obtain rfl := successor_of_after state next fresh effects ran
  have origin := (Draft.ofState state).origin_meetAll effects
  have kept := (Draft.ofState state).saved_meetAll effects
  rw [if_neg unsaved] at kept
  have marked : ((Draft.ofState state).meetAll effects).restored = true := by
    obtain ⟨earlier, later, rfl⟩ := List.append_of_mem restores
    refine (Draft.restored_meetAll_iff _ _).mpr (Or.inr ⟨earlier, lock, later, rfl, Or.inl ?_⟩)
    simp [Draft.ofState, called, chain]
  refine Draft.saved_successor_of_caller _ fresh caller descending ?_ ?_
  · rw [origin]
    exact called
  · rw [Draft.remaining, marked, kept]
    simp [Draft.ofState, called, chain]

end State

end HeldLocks
