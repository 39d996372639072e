import HeldLocks.Proofs.Replays

/-!
# Effects on single counts

Acquiring, releasing, forgetting, assigning and checking are local: such an effect reads
the count of its own lock, leaves that lock with a count that depends on nothing else, and
lets the path go on or not, again by that count alone. `Effect.recount` and `Effect.admits`
are the two functions, and `Draft.count_meet` and `Draft.status_meet` tie them to drafts. So
the count of a lock after a batch of local effects can be told without a draft, by the tally
of the effects about that lock (`Draft.count_meetAll`).

An effect is confined to a block if it is local, valid, and about a lock of the block. Two
laws follow for confined batches and then for whole traces. What lies outside the block is
framed: its counts and the chain to return to stay as they are (`Trace.Confined.framed`).
And what happens inside depends on the counts inside only: two replays that start with the
same counts there are feasible up to the same step and end with the same counts
(`Trace.Confined.agreeing`).
-/

namespace HeldLocks

namespace Effect

/-- The effects that act on the count of one lock and look at nothing else. -/
def Local : Effect → Prop
  | acquire _ _ | release _ | forget _ | assign _ _ | check _ _ _ => True
  | restore _ | restoreAll | forgetAll | save => False

/-- The count that a local effect leaves its lock with. -/
def recount : Effect → Nat → Nat
  | acquire _ bound, held => if 0 < bound ∧ bound ≤ held then held else held + 1
  | release _, held => held - 1
  | forget _, _ => 0
  | assign _ count, _ => count.toNat
  | _, held => held

/-- Whether an effect about one lock lets the path go on at a count of that lock. -/
def admits : Effect → Nat → Bool
  | check _ count expected, held => decide ((held : Int) = count) == expected
  | _, _ => true

/-- The count that a local effect leaves any lock with. One about another lock does not
matter to it. -/
def recountAt (effect : Effect) (lock : Lock) (held : Nat) : Nat :=
  if effect.lock? = some lock then effect.recount held else held

/-- An effect about a lock recounts that lock and no other. -/
theorem recountAt_of_about {effect : Effect} {lock : Lock} (about : effect.lock? = some lock)
    (tested : Lock) (held : Nat) :
    effect.recountAt tested held = if tested = lock then effect.recount held else held := by
  simp only [recountAt, about, Option.some.injEq, eq_comm]

/-- The count that local effects, one after the other, leave a lock with. -/
def tally (lock : Lock) (held : Nat) (effects : List Effect) : Nat :=
  effects.foldl (fun held effect => effect.recountAt lock held) held

/-- A batch is tallied effect by effect. -/
theorem tally_cons (lock : Lock) (held : Nat) (effect : Effect) (rest : List Effect) :
    tally lock held (effect :: rest) = tally lock (effect.recountAt lock held) rest :=
  rfl

/-- Effects that are not about a lock leave it with the count it has. -/
theorem tally_of_unmentioned {lock : Lock} (held : Nat) {effects : List Effect}
    (unmentioned : ∀ effect ∈ effects, effect.lock? ≠ some lock) :
    tally lock held effects = held := by
  induction effects with
  | nil => rfl
  | cons effect rest inductionHypothesis =>
    obtain ⟨first, others⟩ := List.forall_mem_cons.mp unmentioned
    rw [tally_cons, recountAt, if_neg first]
    exact inductionHypothesis others

/-- A local effect is about a lock. -/
theorem Local.lock? {effect : Effect} (isLocal : effect.Local) :
    ∃ lock, effect.lock? = some lock := by
  cases effect with
  | acquire lock _ | release lock | forget lock | assign lock _ | check lock _ _ =>
    exact ⟨lock, rfl⟩
  | restore lock | restoreAll | forgetAll | save => exact isLocal.elim

/-- Whether an effect does nothing but acquire, release, forget, check, or bring to a count
that is not negative, one lock of a block. -/
def ConfinedTo (block : LockSet) : Effect → Prop
  | acquire lock _ | release lock | forget lock | check lock _ _ => lock ∈ block
  | assign lock count => lock ∈ block ∧ 0 ≤ count
  | restore _ | restoreAll | forgetAll | save => False

/-- An effect confined to a block assigns no negative count. -/
theorem ConfinedTo.valid {block : LockSet} {effect : Effect}
    (confined : effect.ConfinedTo block) : effect.Valid := by
  cases effect with
  | assign lock count => exact confined.2
  | _ => trivial

/-- An effect confined to a block is local. -/
theorem ConfinedTo.isLocal {block : LockSet} {effect : Effect}
    (confined : effect.ConfinedTo block) : effect.Local := by
  cases effect with
  | acquire lock _ | release lock | forget lock | assign lock _ | check lock _ _ => trivial
  | restore lock | restoreAll | forgetAll | save => exact confined.elim

/-- A confined effect is about a lock of the block. -/
theorem ConfinedTo.inside {block : LockSet} {effect : Effect}
    (confined : effect.ConfinedTo block) {lock : Lock} (about : effect.lock? = some lock) :
    lock ∈ block := by
  cases effect with
  | assign target count =>
    obtain rfl : target = lock := Option.some.inj about
    exact confined.1
  | acquire target _ | release target | forget target | check target _ _ =>
    obtain rfl : target = lock := Option.some.inj about
    exact confined
  | restore target | restoreAll | forgetAll | save => exact confined.elim

end Effect

namespace Draft

/-- A local effect recounts its lock and no other. -/
theorem count_meet (draft : Draft) {effect : Effect} (isLocal : effect.Local) (tested : Lock) :
    (draft.meet effect).holdings.count tested =
      effect.recountAt tested (draft.holdings.count tested) := by
  cases effect with
  | acquire lock bound =>
    rw [meet_acquire, Effect.recountAt_of_about rfl]
    by_cases here : tested = lock
    · by_cases saturated : 0 < bound ∧ bound ≤ draft.holdings.count lock
      · simp [Effect.recount, saturated, here]
      · simp only [saturated, if_false, change, count_acquire, Effect.recount, here, if_true]
    · have elsewhere : (draft.change (.acquire lock)).holdings.count tested =
          draft.holdings.count tested :=
        (draft.count_acquire lock 1 tested).trans (if_neg here)
      rw [if_neg here]
      split
      · rfl
      · exact elsewhere
  | release lock =>
    rw [Effect.recountAt_of_about rfl]
    refine (draft.count_release lock 1 tested).trans ?_
    by_cases here : tested = lock
    · simp only [here, if_true, Effect.recount]
    · simp only [here, if_false]
  | forget lock =>
    rw [Effect.recountAt_of_about rfl]
    exact draft.holdings.count_erase lock tested
  | assign lock count =>
    rw [Effect.recountAt_of_about rfl]
    exact draft.count_assign lock count.toNat tested
  | check lock count expected =>
    have untouched : (draft.meet (.check lock count expected)).holdings = draft.holdings := by
      rw [meet_check]
      split <;> rfl
    rw [untouched, Effect.recountAt_of_about rfl]
    simp only [Effect.recount, ite_self]
  | restore lock | restoreAll | forgetAll | save => exact isLocal.elim

/-- A batch of local effects recounts every lock by the effects about it. -/
theorem count_meetAll (draft : Draft) {effects : List Effect}
    (isLocal : ∀ effect ∈ effects, effect.Local) (tested : Lock) :
    (draft.meetAll effects).holdings.count tested =
      Effect.tally tested (draft.holdings.count tested) effects := by
  induction effects generalizing draft with
  | nil => rfl
  | cons effect rest inductionHypothesis =>
    obtain ⟨first, others⟩ := List.forall_mem_cons.mp isLocal
    rw [meetAll_cons, inductionHypothesis _ others, count_meet draft first, Effect.tally_cons]

/-- An effect about one lock rules the path out unless it admits the count of that lock. -/
theorem status_meet (draft : Draft) {effect : Effect} {lock : Lock}
    (about : effect.lock? = some lock) :
    (draft.meet effect).status =
      if effect.admits (draft.holdings.count lock) then draft.status else .infeasible := by
  cases effect with
  | acquire target bound =>
    rw [meet_acquire]
    split <;> simp [Effect.admits, status_change]
  | check target count expected =>
    obtain rfl : target = lock := Option.some.inj about
    rw [meet_check]
    by_cases passed : decide ((draft.holdings.count target : Int) = count) = expected
    · simp [Effect.admits, passed]
    · simp [Effect.admits, passed, status_change]
  | release target | forget target | assign target count | restore target =>
    simp [meet, Effect.edit?, Effect.admits, status_change]
  | restoreAll | forgetAll | save => cases about

end Draft

/-! ## Inside and outside a block -/

/-- Holdings that count every lock of a block alike. -/
def Holdings.AgreeOn (block : LockSet) (left right : Holdings) : Prop :=
  ∀ lock ∈ block, left.count lock = right.count lock

/-- What a state and a later one have in common if the work between was about a block only:
the chain to return to and the counts outside the block. -/
structure State.Framed (block : LockSet) (before after : State) : Prop where
  /-- Both return to the same chain. -/
  saved : after.saved = before.saved
  /-- Both count every lock outside the block alike. -/
  counts : ∀ lock, lock ∉ block → after.holdings.count lock = before.holdings.count lock

/-- A state differs from itself in nothing. -/
protected theorem State.Framed.refl (block : LockSet) (state : State) :
    State.Framed block state state where
  saved := rfl
  counts := fun _ _ => rfl

/-- What two steps leave alone, the two together leave alone. -/
protected theorem State.Framed.trans {block : LockSet} {before middle after : State}
    (first : State.Framed block before middle) (second : State.Framed block middle after) :
    State.Framed block before after where
  saved := second.saved.trans first.saved
  counts := fun lock outside => (second.counts lock outside).trans (first.counts lock outside)

/-! ## Confined batches -/

namespace Draft

section Confined

variable {block : LockSet} {effects : List Effect}
  (confined : ∀ effect ∈ effects, effect.ConfinedTo block)

include confined

/-- A confined batch leaves the counts outside its block alone. -/
theorem count_meetAll_outside (draft : Draft) {tested : Lock} (outside : tested ∉ block) :
    (draft.meetAll effects).holdings.count tested = draft.holdings.count tested := by
  rw [count_meetAll draft fun effect member => (confined effect member).isLocal]
  apply Effect.tally_of_unmentioned
  intro effect member about
  exact outside ((confined effect member).inside about)

/-- Drafts that agree on a block, in its counts and in their stage, still do after a batch
confined to it. -/
theorem agree_meetAll (left right : Draft)
    (agree : left.holdings.AgreeOn block right.holdings) (stage : left.status = right.status) :
    (left.meetAll effects).holdings.AgreeOn block (right.meetAll effects).holdings ∧
      (left.meetAll effects).status = (right.meetAll effects).status := by
  induction effects generalizing left right with
  | nil => exact ⟨agree, stage⟩
  | cons effect rest inductionHypothesis =>
    obtain ⟨first, others⟩ := List.forall_mem_cons.mp confined
    obtain ⟨lock, about⟩ := first.isLocal.lock?
    refine inductionHypothesis others (left.meet effect) (right.meet effect) ?_ ?_
    · intro tested member
      rw [count_meet left first.isLocal, count_meet right first.isLocal, agree tested member]
    · rw [status_meet left about, status_meet right about,
        agree lock (first.inside about), stage]

end Confined

end Draft

namespace State

/-- A state that comes out of a batch holds canonical holdings if the state before does. -/
theorem canonical_after {state next : State} (canonical : state.Canonical) (fresh : Nat)
    (effects : List Effect) (ran : state.after fresh effects = .ok (some next)) :
    next.Canonical := by
  obtain rfl := successor_of_after state next fresh effects ran
  exact (Draft.Canonical.ofState canonical).meetAll effects |>.successor fresh

/-- A confined batch leaves the chain alone, and the counts outside its block. -/
theorem framed_after {block : LockSet} {effects : List Effect}
    (confined : ∀ effect ∈ effects, effect.ConfinedTo block) {state next : State} (fresh : Nat)
    (ran : state.after fresh effects = .ok (some next)) : state.Framed block next := by
  constructor
  · refine saved_after_of_plain state next fresh effects ?_ ?_ ran
    · exact fun member => (confined .save member).elim
    · exact fun lock member => (confined (.restore lock) member).elim
  · intro lock outside
    obtain rfl := successor_of_after state next fresh effects ran
    rw [Draft.holdings_successor]
    exact Draft.count_meetAll_outside confined (Draft.ofState state) outside

/-- States that agree on a block have successors under a confined batch that do, or have
none both. -/
theorem agree_after {block : LockSet} {effects : List Effect}
    (confined : ∀ effect ∈ effects, effect.ConfinedTo block) (left right : State)
    (agree : left.holdings.AgreeOn block right.holdings) (fresh other : Nat) :
    (left.after fresh effects = .ok none ∧ right.after other effects = .ok none) ∨
      ∃ leftNext rightNext, left.after fresh effects = .ok (some leftNext) ∧
        right.after other effects = .ok (some rightNext) ∧
        leftNext.holdings.AgreeOn block rightNext.holdings := by
  have valid : ∀ effect ∈ effects, effect.Valid := fun effect member =>
    (confined effect member).valid
  obtain ⟨counts, stage⟩ := Draft.agree_meetAll confined (.ofState left) (.ofState right)
    agree rfl
  rw [after_of_valid left fresh effects valid, after_of_valid right other effects valid,
    Draft.outcome, Draft.outcome, ← stage]
  by_cases infeasible : ((Draft.ofState left).meetAll effects).status = .infeasible
  · simp only [infeasible, if_true, and_self, true_or]
  · simp only [infeasible, if_false]
    refine Or.inr ⟨_, _, rfl, rfl, ?_⟩
    rw [Draft.holdings_successor, Draft.holdings_successor]
    exact counts

end State

/-! ## Confined traces -/

namespace Trace

/-- A trace is confined to a block if all effects of its steps are. -/
def Confined (block : LockSet) (steps : List Step) : Prop :=
  ∀ step ∈ steps, ∀ effect ∈ step.effects, effect.ConfinedTo block

/-- A feasible confined replay leaves the chain and the counts outside its block alone, and
ends in canonical holdings if it starts in them. -/
theorem Confined.framed {block : LockSet} {steps : List Step} (confined : Confined block steps)
    (fresh : Nat) {start last : State} (canonical : start.Canonical)
    {outcomes : List (Option State)} (ran : replay fresh start steps = .ok outcomes)
    (ends : exit? start outcomes = some last) : last.Canonical ∧ start.Framed block last := by
  refine replay_keeps (fun state => state.Canonical ∧ start.Framed block state) steps ?_ fresh
    start ⟨canonical, .refl block start⟩ outcomes ran ends
  rintro step member state next number ⟨stateCanonical, soFar⟩ stepped
  have framed := State.framed_after (confined step member) number stepped
  exact ⟨State.canonical_after stateCanonical number _ stepped, soFar.trans framed⟩

/-- Two replays of a confined trace from states that agree on its block are feasible up to
the same step; and if they are feasible to the end, they end in states that agree there. -/
theorem Confined.agreeing {block : LockSet} {steps : List Step}
    (confined : Confined block steps) (fresh other : Nat) (left right : State)
    (agree : left.holdings.AgreeOn block right.holdings) :
    ∃ leftOutcomes rightOutcomes, replay fresh left steps = .ok leftOutcomes ∧
      replay other right steps = .ok rightOutcomes ∧
      leftOutcomes.map Option.isSome = rightOutcomes.map Option.isSome ∧
      ∀ leftLast, exit? left leftOutcomes = some leftLast →
        ∃ rightLast, exit? right rightOutcomes = some rightLast ∧
          leftLast.holdings.AgreeOn block rightLast.holdings := by
  induction steps generalizing fresh other left right with
  | nil =>
    refine ⟨[], [], rfl, rfl, rfl, ?_⟩
    rintro leftLast ⟨⟩
    exact ⟨right, rfl, agree⟩
  | cons step rest inductionHypothesis =>
    obtain ⟨first, others⟩ := List.forall_mem_cons.mp confined
    rcases State.agree_after first left right agree fresh other with
      ⟨leftNone, rightNone⟩ | ⟨leftNext, rightNext, leftRan, rightRan, nextAgree⟩
    · refine ⟨[none], [none], ?_, ?_, rfl, fun leftLast ends => nomatch ends⟩
      · simp only [replay, leftNone]
      · simp only [replay, rightNone]
    · obtain ⟨leftLater, rightLater, leftRest, rightRest, sameLength, sameEnd⟩ :=
        inductionHypothesis others (leftNext.nextFresh fresh) (rightNext.nextFresh other)
          leftNext rightNext nextAgree
      refine ⟨some leftNext :: leftLater, some rightNext :: rightLater, ?_, ?_, ?_, ?_⟩
      · simp only [replay, leftRan, leftRest, Except.map]
      · simp only [replay, rightRan, rightRest, Except.map]
      · simp only [List.map_cons, Option.isSome_some, sameLength]
      · simpa only [exit?_cons] using sameEnd

end Trace

end HeldLocks
