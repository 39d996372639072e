import HeldLocks.Proofs.CounterReductions
import HeldLocks.Proofs.CounterReplays

/-!
# Flattened counts

With counts flattened, a block sees one acquisition of each lock that it is not known to
use. If it uses such a lock all the same, the expansion can be off: a release of a lock
that is not held is ignored, and the reduced run, which starts with a lower count, may
ignore releases that count in the caller's own run.

How far it can be off is a matter of one lock and two starting counts. Starting higher by
an extra never ends higher by more than the extra (`Effect.tally_add_le`), and ends higher
by just the extra exactly if no release is ignored from the lower start
(`Effect.tally_add_eq_iff`). The expansion puts the extra back. So it never gives a lock
too few acquisitions, and it gives it too many exactly if the reduced run ignored a release
of it and there was an extra to lose.

On counters of 32 bits the reduced run leaves the range only if the caller's own run does, since
it counts every lock at most as often (`Draft.overflows_of_below`). The expansion can leave it by
itself, where the sum of the caller's count and what the reduced run ends with is too large.
-/

namespace HeldLocks

namespace Effect

/-- An acquisition without a bound, or a release. -/
def Unbounded : Effect → Prop
  | acquire _ bound => bound ≤ 0
  | release _ => True
  | _ => False

/-- Acquisitions without a bound and releases are local. -/
theorem Unbounded.isLocal {effect : Effect} (unbounded : effect.Unbounded) :
    effect.Local := by
  cases effect with
  | acquire lock bound | release lock => trivial
  | _ => exact unbounded.elim

/-- They assign no negative count. -/
theorem Unbounded.valid {effect : Effect} (unbounded : effect.Unbounded) : effect.Valid := by
  cases effect with
  | assign lock count => exact unbounded.elim
  | _ => trivial

/-- Acquiring and releasing never rule a path out. -/
theorem Unbounded.admits {effect : Effect} (unbounded : effect.Unbounded) (held : Nat) :
    effect.admits held = true := by
  cases effect with
  | acquire lock bound | release lock => rfl
  | _ => exact unbounded.elim

/-- Acquiring and releasing assign nothing. -/
theorem Unbounded.fits {effect : Effect} (unbounded : effect.Unbounded) : effect.Fits := by
  cases effect with
  | assign lock count => exact unbounded.elim
  | _ => trivial

/-- Acquiring and releasing recount every lock by a monotone function. -/
theorem Unbounded.recountAt_mono {effect : Effect} (unbounded : effect.Unbounded) (lock : Lock)
    {held more : Nat} (below : held ≤ more) :
    effect.recountAt lock held ≤ effect.recountAt lock more := by
  cases effect with
  | acquire target bound =>
    have noBound : ¬ 0 < bound := Int.not_lt.mpr unbounded
    rw [recountAt_of_about rfl, recountAt_of_about rfl]
    simp only [recount, noBound, false_and, if_false]
    split <;> omega
  | release target =>
    rw [recountAt_of_about rfl, recountAt_of_about rfl]
    simp only [recount]
    split <;> omega
  | _ => exact unbounded.elim

/-- Whether no release of a lock is ignored, if the lock is held so often before. -/
def NoneIgnored (lock : Lock) (held : Nat) (effects : List Effect) : Prop :=
  ∀ earlier later, effects = earlier ++ .release lock :: later → 0 < tally lock held earlier

/-- No release of a batch is ignored exactly if the first effect is not, and none of the others. -/
theorem noneIgnored_cons (lock : Lock) (held : Nat) (effect : Effect) (rest : List Effect) :
    NoneIgnored lock held (effect :: rest) ↔
      (effect = .release lock → 0 < held) ∧
        NoneIgnored lock (effect.recountAt lock held) rest := by
  constructor
  · intro all
    constructor
    · rintro rfl
      exact all [] rest rfl
    · rintro earlier later rfl
      exact all (effect :: earlier) later rfl
  · rintro ⟨first, others⟩ earlier later split
    cases earlier with
    | nil =>
      obtain ⟨rfl, rfl⟩ := List.cons.inj split
      exact first rfl
    | cons head tail =>
      obtain ⟨rfl, rfl⟩ := List.cons.inj split
      exact others tail later rfl

/-- An extra survives an effect that is no ignored release. -/
theorem Unbounded.recountAt_add {effect : Effect} (unbounded : effect.Unbounded) {lock : Lock}
    {held : Nat} (heeded : effect = .release lock → 0 < held) (extra : Nat) :
    effect.recountAt lock (held + extra) = effect.recountAt lock held + extra := by
  cases effect with
  | acquire target bound =>
    have noBound : ¬ 0 < bound := Int.not_lt.mpr unbounded
    rw [recountAt_of_about rfl, recountAt_of_about rfl]
    by_cases here : lock = target
    · simp only [here, if_true, recount, noBound, false_and, if_false]
      omega
    · simp only [here, if_false]
  | release target =>
    rw [recountAt_of_about rfl, recountAt_of_about rfl]
    by_cases here : lock = target
    · have positive : 0 < held := heeded (congrArg release here.symm)
      simp only [here, if_true, recount]
      omega
    · simp only [here, if_false]
  | _ => exact unbounded.elim

/-- A release takes one acquisition, if there is one. -/
theorem recountAt_release (lock : Lock) (held : Nat) :
    (release lock).recountAt lock held = held - 1 := by
  simp [recountAt, Effect.lock?, recount]

/-- Starting higher by an extra never ends higher by more than the extra.

Each effect keeps the extra, but for a release that the lower count ignores. There the
higher count loses one of its extra and goes on with the rest. -/
theorem tally_add_le (lock : Lock) (held extra : Nat) {effects : List Effect}
    (unbounded : ∀ effect ∈ effects, effect.Unbounded) :
    tally lock (held + extra) effects ≤ tally lock held effects + extra := by
  induction effects generalizing held extra with
  | nil => exact Nat.le_refl _
  | cons effect rest inductionHypothesis =>
    obtain ⟨first, others⟩ := List.forall_mem_cons.mp unbounded
    rw [tally_cons, tally_cons]
    by_cases heeded : effect = .release lock → 0 < held
    · rw [first.recountAt_add heeded]
      exact inductionHypothesis _ _ others
    · obtain ⟨rfl, unheld⟩ := Classical.not_imp.mp heeded
      obtain rfl : held = 0 := Nat.eq_zero_of_not_pos unheld
      have less := inductionHypothesis 0 (extra - 1) others
      rw [recountAt_release, recountAt_release, Nat.zero_add, Nat.zero_sub]
      rw [Nat.zero_add] at less
      omega

/-- Starting higher by an extra ends higher by just the extra exactly if there is none or
no release is ignored from the lower start. -/
theorem tally_add_eq_iff (lock : Lock) (held extra : Nat) {effects : List Effect}
    (unbounded : ∀ effect ∈ effects, effect.Unbounded) :
    tally lock (held + extra) effects = tally lock held effects + extra ↔
      extra = 0 ∨ NoneIgnored lock held effects := by
  induction effects generalizing held extra with
  | nil =>
    have nothing : NoneIgnored lock held [] := by
      intro earlier later split
      exact absurd split.symm (List.append_ne_nil_of_right_ne_nil _ (List.cons_ne_nil _ _))
    exact iff_of_true rfl (Or.inr nothing)
  | cons effect rest inductionHypothesis =>
    obtain ⟨first, others⟩ := List.forall_mem_cons.mp unbounded
    rw [tally_cons, tally_cons, noneIgnored_cons]
    by_cases heeded : effect = .release lock → 0 < held
    · rw [first.recountAt_add heeded, inductionHypothesis _ _ others]
      rw [and_iff_right heeded]
    · obtain ⟨rfl, unheld⟩ := Classical.not_imp.mp heeded
      obtain rfl : held = 0 := Nat.eq_zero_of_not_pos unheld
      have less := tally_add_le lock 0 (extra - 1) others
      rw [recountAt_release, recountAt_release, Nat.zero_add, Nat.zero_sub]
      rw [Nat.zero_add] at less
      constructor
      · intro same
        exact Or.inl (by omega)
      · rintro (none | ⟨found, _⟩)
        · rw [none]
          rfl
        · exact absurd (found rfl) (Nat.lt_irrefl 0)

end Effect

/-- Acquiring and releasing leave the stage of a draft alone. -/
theorem Draft.status_meetAll_of_unbounded (draft : Draft) {effects : List Effect}
    (unbounded : ∀ effect ∈ effects, effect.Unbounded) :
    (draft.meetAll effects).status = draft.status := by
  apply meetAll_keeps (fun reached => reached.status = draft.status) _ draft rfl
  intro reached same effect member
  have isUnbounded := unbounded effect member
  obtain ⟨lock, about⟩ := isUnbounded.isLocal.lock?
  rw [status_meet reached about, isUnbounded.admits, if_pos rfl, same]

/-- A draft that counts every lock at most as often as another overflows under acquisitions and
releases only if the other does. -/
theorem Draft.overflows_of_below {effects : List Effect}
    (unbounded : ∀ effect ∈ effects, effect.Unbounded) {low high : Draft}
    (below : ∀ lock, low.holdings.count lock ≤ high.holdings.count lock) (fits : high.Fits)
    (overflows : low.Overflows effects) : high.Overflows effects := by
  rw [← List.map_id effects] at overflows ⊢
  refine overflows.transfer (fun low high =>
    (∀ lock, low.holdings.count lock ≤ high.holdings.count lock) ∧ high.Fits) ?_ ?_ ⟨below, fits⟩
  · rintro effect _ low high ⟨below, fits⟩ overflows
    cases effect with
    | acquire lock bound =>
      have most := fits.count_le lock
      have least := below lock
      exact ⟨by have largest := overflows.1; omega, overflows.2⟩
    | _ => exact overflows
  · rintro effect member low high ⟨below, fits⟩ fitting
    have isUnbounded := unbounded effect member
    refine ⟨fun lock => ?_, fits.meet isUnbounded.fits fitting⟩
    rw [id, count_meet low isUnbounded.isLocal, count_meet high isUnbounded.isLocal]
    exact isUnbounded.recountAt_mono lock (below lock)

namespace State

/-- Whether every release of a lock in a batch finds the lock held, the batch being run
from a state. -/
def ReleasesHeld (state : State) (lock : Lock) (effects : List Effect) : Prop :=
  ∀ earlier later, effects = earlier ++ .release lock :: later →
    ∃ met, (Draft.ofState state).undergoAll earlier = .ok met ∧ lock ∈ met.holdings

section Unbounded

variable {state : State} {effects : List Effect}
  (unbounded : ∀ effect ∈ effects, effect.Unbounded)

include unbounded

/-- A batch of acquisitions and releases has a successor. It returns to what the state
returns to, and its counts are tallied lock by lock. -/
theorem after_of_unbounded (state : State) (fresh : Nat) :
    ∃ next, state.after fresh effects = .ok (some next) ∧ next.saved = state.saved ∧
      ∀ lock, next.holdings.count lock =
        Effect.tally lock (state.holdings.count lock) effects := by
  have ran : state.after fresh effects =
      .ok (some (((Draft.ofState state).meetAll effects).successor fresh)) := by
    have feasible := Draft.status_meetAll_of_unbounded (.ofState state) unbounded
    rw [after_of_valid state fresh effects fun effect member => (unbounded effect member).valid,
      Draft.outcome, feasible]
    simp [Draft.ofState]
  refine ⟨_, ran, ?_, ?_⟩
  · refine saved_after_of_plain state _ fresh effects ?_ ?_ ran
    · exact fun member => unbounded .save member
    · exact fun lock member => unbounded (.restore lock) member
  · intro lock
    rw [Draft.holdings_successor, Draft.count_meetAll]
    · rfl
    · exact fun effect member => (unbounded effect member).isLocal

/-- What a release finds can be tallied too. -/
theorem releasesHeld_iff (canonical : state.Canonical) (lock : Lock) :
    state.ReleasesHeld lock effects ↔
      Effect.NoneIgnored lock (state.holdings.count lock) effects := by
  have met : ∀ earlier, (∀ effect ∈ earlier, effect.Unbounded) →
      (Draft.ofState state).undergoAll earlier = .ok ((Draft.ofState state).meetAll earlier) ∧
        (lock ∈ ((Draft.ofState state).meetAll earlier).holdings ↔
          0 < Effect.tally lock (state.holdings.count lock) earlier) := by
    intro earlier earlierUnbounded
    constructor
    · apply Draft.undergoAll_of_valid
      · simp [Draft.ofState]
      · exact fun effect member => (earlierUnbounded effect member).valid
    · have counted := (Draft.ofState state).count_meetAll
        (fun effect member => (earlierUnbounded effect member).isLocal) lock
      have reached := (Draft.Canonical.ofState canonical).meetAll earlier
      rw [reached.holdings.mem_iff_count_pos, counted]
      rfl
  have before : ∀ earlier later, effects = earlier ++ .release lock :: later →
      ∀ effect ∈ earlier, effect.Unbounded := by
    rintro earlier later rfl effect member
    exact unbounded effect (List.mem_append_left _ member)
  constructor
  · intro held earlier later split
    obtain ⟨accepted, positive⟩ := met earlier (before earlier later split)
    obtain ⟨draft, isMet, present⟩ := held earlier later split
    obtain rfl := Except.ok.inj (accepted.symm.trans isMet)
    exact positive.mp present
  · intro noneIgnored earlier later split
    obtain ⟨accepted, positive⟩ := met earlier (before earlier later split)
    exact ⟨_, accepted, positive.mpr (noneIgnored earlier later split)⟩

end Unbounded

end State

/-- The reduction that keeps all locks and flattens the counts of those the block does not
use. -/
def Reduction.flattening : Reduction := ⟨false, true⟩

namespace Session

/-- How exact flattened counts are, with counts of any size. -/
theorem WellFormed.flattened_exactly {session : Session} (wellFormed : session.WellFormed)
    {root : State} (made : root ∈ session.states) (block : LockSet) {effects : List Effect}
    (unbounded : ∀ effect ∈ effects, effect.Unbounded)
    (reducedFresh exitFresh directFresh expandedFresh : Nat) :
    ∃ exit direct,
      (Reduction.flattening.reduce reducedFresh root block).after exitFresh effects =
          .ok (some exit) ∧
        root.after directFresh effects = .ok (some direct) ∧
        (∀ lock, direct.holdings.count lock ≤
          (Reduction.flattening.expand expandedFresh root block exit).holdings.count lock) ∧
        (∀ lock, lock ∈ block ∨ lock ∉ root.holdings →
          (Reduction.flattening.expand expandedFresh root block exit).holdings.count lock =
            direct.holdings.count lock) ∧
        (∀ lock ∈ root.holdings, lock ∉ block →
          ((Reduction.flattening.expand expandedFresh root block exit).holdings.count lock =
              direct.holdings.count lock ↔
            root.holdings.count lock = 1 ∨
              (Reduction.flattening.reduce reducedFresh root block).ReleasesHeld
                lock effects)) ∧
        (Reduction.flattening.expand expandedFresh root block exit).saved = root.saved := by
  have canonical := wellFormed.canonical root made
  have reducedCanonical := Reduction.flattening.canonical_reduce reducedFresh
    (wellFormed.canonical_chain made) block
  have reducedCount := Reduction.flattening.count_reduce reducedFresh canonical block
  obtain ⟨exit, exits, exitSaved, exitCount⟩ := State.after_of_unbounded unbounded
    (Reduction.flattening.reduce reducedFresh root block) exitFresh
  obtain ⟨direct, directs, _, directCount⟩ :=
    State.after_of_unbounded unbounded root directFresh
  have saved : (Reduction.flattening.expand expandedFresh root block exit).saved =
      root.saved := by
    apply Reduction.saved_expand
    rw [exitSaved, Reduction.saved_reduce]
  have insideCount : ∀ lock ∈ block,
      (Reduction.flattening.expand expandedFresh root block exit).holdings.count lock =
        direct.holdings.count lock := by
    intro lock inside
    rw [Reduction.count_expand _ _ canonical, if_pos inside, exitCount, reducedCount,
      if_pos inside, directCount]
  -- Outside the block the caller's count is what the block sees and an extra, which the
  -- expansion adds to what the reduced run ends with.
  have start : ∀ lock, root.holdings.count lock =
      min (root.holdings.count lock) 1 + (root.holdings.count lock - 1) := by
    intro lock
    omega
  have outsideReduced : ∀ lock, lock ∉ block →
      (Reduction.flattening.reduce reducedFresh root block).holdings.count lock =
        min (root.holdings.count lock) 1 := by
    intro lock outside
    rw [reducedCount, if_neg outside]
    rfl
  have outsideCount : ∀ lock, lock ∉ block →
      (Reduction.flattening.expand expandedFresh root block exit).holdings.count lock =
        Effect.tally lock (min (root.holdings.count lock) 1) effects +
          (root.holdings.count lock - 1) := by
    intro lock outside
    rw [Reduction.count_expand _ _ canonical, if_neg outside, exitCount,
      outsideReduced lock outside]
    rfl
  have directOutside : ∀ lock, direct.holdings.count lock =
      Effect.tally lock (min (root.holdings.count lock) 1 + (root.holdings.count lock - 1))
        effects := by
    intro lock
    rw [directCount, ← start]
  refine ⟨exit, direct, exits, directs, ?_, ?_, ?_, saved⟩
  · intro lock
    by_cases inside : lock ∈ block
    · exact Nat.le_of_eq (insideCount lock inside).symm
    · rw [outsideCount lock inside, directOutside]
      exact Effect.tally_add_le lock _ _ unbounded
  · rintro lock (inside | unheld)
    · exact insideCount lock inside
    · by_cases inside : lock ∈ block
      · exact insideCount lock inside
      · rw [outsideCount lock inside, directCount, Holdings.count_of_not_mem _ _ unheld]
        rfl
  · intro lock held outside
    have positive := (canonical.mem_iff_count_pos lock).mp held
    have once : root.holdings.count lock - 1 = 0 ↔ root.holdings.count lock = 1 := by omega
    rw [outsideCount lock outside, directOutside, eq_comm,
      Effect.tally_add_eq_iff lock _ _ unbounded, once,
      State.releasesHeld_iff unbounded reducedCanonical, outsideReduced lock outside]

/-- How exact flattened counts are where a block uses locks it is not known to use. Let a batch
acquire without a bound and release any locks, and let the caller's counts be in the range of 32
bits, as they are in a program (`Session.ReachableOnWords.reachable_and_fits`).

* The caller's state is reduced in range. The batch, run from the caller's state itself, leaves
  the range exactly if some acquisition meets its lock at the largest counter. Otherwise it stays
  in range, and so it does from the reduced state.
* Then the expansion leaves the range exactly if, for some lock of the caller outside the block,
  the caller's count and what the reduced run ends with add up to more than the largest counter.
* Else the expanded state never has a lower count of a lock than the batch leaves when it is run
  from the caller's state. The counts are equal for the locks of the block and those the caller
  does not hold. For any other lock they are equal exactly if the caller holds it once or every
  release of it in the reduced run finds it held. And the expanded state returns to what the
  caller's returns to.

Proof: the counts are tallied lock by lock, from two starts, for counts of any size; and as long as
nothing overflows, what is done on counters is what is done with such counts. -/
theorem flattened_count_exact_iff {session : Session} (reachable : session.Reachable)
    {root : State} (made : root ∈ session.states) (fits : root.Fits) (block : LockSet)
    {effects : List Effect} (unbounded : ∀ effect ∈ effects, effect.Unbounded)
    (reducedFresh exitFresh directFresh expandedFresh : Nat) :
    Reduction.flattening.reduceOnWords? reducedFresh root block =
        some (Reduction.flattening.reduce reducedFresh root block) ∧
      ((Draft.ofState root).Overflows effects →
        root.afterOnWords? directFresh effects = none) ∧
      (¬ (Draft.ofState root).Overflows effects →
        ∃ exit direct,
          (Reduction.flattening.reduce reducedFresh root block).afterOnWords? exitFresh effects =
              some (some exit) ∧
            root.afterOnWords? directFresh effects = some (some direct) ∧
            (Reduction.flattening.reduce reducedFresh root block).after exitFresh effects =
              .ok (some exit) ∧
            root.after directFresh effects = .ok (some direct) ∧
            (Reduction.flattening.expandOnWords? expandedFresh root block exit = none ↔
              ∃ lock ∈ root.holdings, lock ∉ block ∧
                Trace.maxCounter < exit.holdings.count lock + root.holdings.count lock) ∧
            ∀ expanded,
              Reduction.flattening.expandOnWords? expandedFresh root block exit = some expanded →
                expanded = Reduction.flattening.expand expandedFresh root block exit ∧
                (∀ lock, direct.holdings.count lock ≤ expanded.holdings.count lock) ∧
                (∀ lock, lock ∈ block ∨ lock ∉ root.holdings →
                  expanded.holdings.count lock = direct.holdings.count lock) ∧
                (∀ lock ∈ root.holdings, lock ∉ block →
                  (expanded.holdings.count lock = direct.holdings.count lock ↔
                    root.holdings.count lock = 1 ∨
                      (Reduction.flattening.reduce reducedFresh root block).ReleasesHeld
                        lock effects)) ∧
                expanded.saved = root.saved ∧ expanded.sameSaved root = true) := by
  have wellFormed := reachable.wellFormed
  obtain ⟨reduced, reducedFits⟩ :=
    Reduction.flattening.reduceOnWords?_eq reducedFresh fits block
  obtain ⟨exit, direct, exits, directs, atLeast, inside, outside, saved⟩ :=
    wellFormed.flattened_exactly made block unbounded reducedFresh exitFresh directFresh
      expandedFresh
  have effectsFit : ∀ effect ∈ effects, effect.Fits :=
    fun effect member => (unbounded effect member).fits
  have below : ∀ lock, (Reduction.flattening.reduce reducedFresh root block).holdings.count lock ≤
      root.holdings.count lock := by
    intro lock
    rw [Reduction.count_reduce _ _ (wellFormed.canonical root made)]
    split
    · exact Nat.le_refl _
    · exact Nat.min_le_left _ 1
  obtain ⟨directLeaves, directStays⟩ := fits.afterOnWords?_eq effectsFit directs
  obtain ⟨_, exitStays⟩ := reducedFits.afterOnWords?_eq effectsFit exits
  refine ⟨reduced, directLeaves, fun fitting => ?_⟩
  obtain ⟨exitSame, exitFits⟩ := exitStays fun overflows =>
    fitting (Draft.overflows_of_below unbounded below (.ofState fits) overflows)
  obtain ⟨leaves, same⟩ := Reduction.flattening.expandOnWords?_eq expandedFresh fits block
    (exitFits exit rfl)
  refine ⟨exit, direct, exitSame, (directStays fitting).1, exits, directs, ?_, ?_⟩
  · rw [Reduction.expandOnWords?_eq_none_iff _ expandedFresh fits block (exitFits exit rfl)]
    exact ⟨fun overflows => overflows.2.2, fun overflows => ⟨rfl, rfl, overflows⟩⟩
  · intro expanded stays
    have inRange : ¬ Reduction.flattening.Overflows root block exit := by
      intro overflows
      rw [leaves overflows] at stays
      cases stays
    obtain rfl := Option.some.inj ((same inRange).1.symm.trans stays)
    refine ⟨rfl, atLeast, inside, outside, saved, ?_⟩
    rw [State.sameSaved, saved]
    exact sameChain_self _

/-- A lock that is held twice and released twice by a block that is not known to use it. The
reduced run ignores the second release, so that after the expansion one acquisition is left
that the caller's own run does not have. -/
theorem flattened_count_of_ignored_release :
    ∃ exit direct expanded,
      (Reduction.flattening.reduce 2 ⟨⟨1, ⟨[(.ofName "a", 2)]⟩⟩, []⟩ .empty).after 3
          [.release (.ofName "a"), .release (.ofName "a")] = .ok (some exit) ∧
        State.after ⟨⟨1, ⟨[(.ofName "a", 2)]⟩⟩, []⟩ 2
          [.release (.ofName "a"), .release (.ofName "a")] = .ok (some direct) ∧
        Reduction.flattening.expandOnWords? 4 ⟨⟨1, ⟨[(.ofName "a", 2)]⟩⟩, []⟩ .empty exit =
          some expanded ∧
        expanded.holdings.count (.ofName "a") = 1 ∧
        direct.holdings.count (.ofName "a") = 0 ∧
        ¬ (Reduction.flattening.reduce 2 ⟨⟨1, ⟨[(.ofName "a", 2)]⟩⟩, []⟩ .empty).ReleasesHeld
          (.ofName "a") [.release (.ofName "a"), .release (.ofName "a")] := by
  have reachable : (start.run [.effects 0 [.assign (.ofName "a") 2]]).2.Reachable := ⟨_, rfl⟩
  have made : ⟨⟨1, ⟨[(.ofName "a", 2)]⟩⟩, []⟩ ∈
      (start.run [.effects 0 [.assign (.ofName "a") 2]]).2.states :=
    List.mem_cons_of_mem _ List.mem_cons_self
  have unbounded : ∀ effect ∈ [Effect.release (.ofName "a"), .release (.ofName "a")],
      effect.Unbounded := by
    simp [Effect.Unbounded]
  obtain ⟨_, leaves, stays⟩ := flattened_count_exact_iff reachable made
    (State.fits_of_entries (reachable.wellFormed.canonical_chain made) (by decide)) .empty
    unbounded 2 3 2 4
  obtain ⟨exit, direct, _, _, exits, directs, _, expands⟩ :=
    stays fun overflows => absurd (leaves overflows) (by decide +kernel)
  obtain rfl := Option.some.inj (Except.ok.inj exits)
  obtain rfl := Option.some.inj (Except.ok.inj directs)
  obtain ⟨expanded, isExpanded⟩ := Option.ne_none_iff_exists'.mp
    (by decide +kernel : Reduction.flattening.expandOnWords? 4
      ⟨⟨1, ⟨[(.ofName "a", 2)]⟩⟩, []⟩ .empty ⟨⟨3, .empty⟩, []⟩ ≠ none)
  obtain ⟨rfl, _, _, exactly, _⟩ := expands expanded isExpanded
  refine ⟨_, _, _, rfl, rfl, isExpanded, rfl, rfl, ?_⟩
  intro held
  have same := (exactly (.ofName "a") (by decide) (by decide)).mpr (Or.inr held)
  exact absurd same (by decide)

end Session

end HeldLocks
