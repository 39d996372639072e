import HeldLocks.Proofs.Differences
import Mathlib.Algebra.BigOperators.Finprod
import Mathlib.Data.Finset.Lattice.Basic

/-!
# Differences are shortest

A difference is one of many batches of acquisitions without a bound and of releases that lead
from some holdings to others. Others may acquire what they release later, or release what is not
held. None of them is shorter, and the difference takes no detour on the way.

The measure is the distance of two counts, taken for each lock by itself. An acquisition or a
release brings the count of its lock nearer to a target by at most one, so a batch has at least
as many effects about a lock as the two counts of that lock are apart
(`Effect.distance_tally_le`). An effect is about one lock only, so that these numbers add up to
no more than the length of the batch (`Effect.sum_length_onLock`). A difference has its effects
on a lock in one row of one kind (`Effect.brings_difference`), and just as many as the counts
are apart, which is the bound.

How far along that row a first part of the difference has come decides what count it has reached
by then. So that count lies between the two, and what is released is still held.
-/

namespace HeldLocks

namespace Effect

/-! ## The effects about one lock -/

/-- The effects of a batch that are about a lock. -/
def onLock (lock : Lock) (effects : List Effect) : List Effect :=
  effects.filter fun effect => effect.lock? = some lock

/-- What is about a lock in two batches stands in the first, and then in the second. -/
theorem onLock_append (lock : Lock) (first second : List Effect) :
    onLock lock (first ++ second) = onLock lock first ++ onLock lock second :=
  List.filter_append first second

/-- Only the effects about a lock matter to its tally. -/
theorem tally_onLock (lock : Lock) (held : Nat) (effects : List Effect) :
    tally lock held (onLock lock effects) = tally lock held effects := by
  induction effects generalizing held with
  | nil => rfl
  | cons effect rest inductionHypothesis =>
    rw [onLock, List.filter_cons, tally_cons, recountAt, ← inductionHypothesis]
    by_cases about : effect.lock? = some lock
    · simp only [about, decide_true, if_true, tally_cons, recountAt]
      rfl
    · simp only [about, decide_false, Bool.false_eq_true, if_false]
      rfl

/-- A batch is as long as its effects about each lock of a set together, and those about none
of them. -/
theorem sum_length_onLock (locks : Finset Lock) (effects : List Effect) :
    ∑ lock ∈ locks, (onLock lock effects).length =
      effects.countP fun effect => ∃ lock ∈ locks, effect.lock? = some lock := by
  induction effects with
  | nil => simp [onLock]
  | cons effect rest inductionHypothesis =>
    have once : ∑ lock ∈ locks, (if effect.lock? = some lock then 1 else 0) =
        if ∃ lock ∈ locks, effect.lock? = some lock then 1 else 0 := by
      cases effect.lock? with
      | none => simp
      | some lock => simp
    have each : ∀ lock, (onLock lock (effect :: rest)).length =
        (onLock lock rest).length + if effect.lock? = some lock then 1 else 0 := by
      intro lock
      rw [onLock, List.filter_cons]
      by_cases about : effect.lock? = some lock <;> simp [about, onLock]
    simp only [each, Finset.sum_add_distrib, inductionHypothesis, once, List.countP_cons,
      decide_eq_true_eq]

/-! ## No batch is shorter -/

/-- An acquisition without a bound or a release moves a count by at most one. -/
theorem Unbounded.distance_recountAt_le {effect : Effect} (unbounded : effect.Unbounded)
    (lock : Lock) (held : Nat) :
    ((held : Int) - effect.recountAt lock held).natAbs ≤
      if effect.lock? = some lock then 1 else 0 := by
  rw [recountAt]
  split
  · cases effect with
    | acquire target bound =>
      rw [recount, if_neg fun bounded => Int.not_lt.mpr unbounded bounded.1]
      omega
    | release target =>
      rw [recount]
      omega
    | _ => exact unbounded.elim
  · omega

/-- A batch has as many effects about a lock, at least, as it moves the count of that lock. -/
theorem distance_tally_le (lock : Lock) (held : Nat) {effects : List Effect}
    (unbounded : ∀ effect ∈ effects, effect.Unbounded) :
    ((held : Int) - tally lock held effects).natAbs ≤ (onLock lock effects).length := by
  induction effects generalizing held with
  | nil => simp [tally]
  | cons effect rest inductionHypothesis =>
    obtain ⟨first, others⟩ := List.forall_mem_cons.mp unbounded
    have step := first.distance_recountAt_le lock held
    have run := inductionHypothesis (effect.recountAt lock held) others
    rw [tally_cons, onLock, List.filter_cons]
    by_cases about : effect.lock? = some lock
    · simp only [about, decide_true, if_true, List.length_cons] at step ⊢
      rw [onLock] at run
      omega
    · simp only [about, decide_false, Bool.false_eq_true, if_false] at step ⊢
      rw [onLock] at run
      omega

/-! ## What brings a lock to a count takes no detour -/

/-- The effect that brings a lock nearer from one count to another. -/
def toward (lock : Lock) (held wanted : Nat) : Effect :=
  if wanted < held then .release lock else .acquire lock 0

/-- What brings a lock to a count is a row of one kind. -/
theorem steps_eq_replicate (lock : Lock) (held wanted : Nat) :
    Holdings.steps lock held wanted =
      List.replicate ((held : Int) - wanted).natAbs (toward lock held wanted) := by
  rw [Holdings.steps, toward]
  by_cases less : wanted < held
  · have distance : ((held : Int) - wanted).natAbs = held - wanted := by omega
    have nothing : wanted - held = 0 := by omega
    rw [if_pos less, distance, nothing, List.replicate_zero, List.append_nil]
  · have distance : ((held : Int) - wanted).natAbs = wanted - held := by omega
    have nothing : held - wanted = 0 := by omega
    rw [if_neg less, distance, nothing, List.replicate_zero, List.nil_append]

/-- The count after a part of the row. -/
theorem tally_toward (lock : Lock) (held wanted times : Nat) :
    tally lock held (List.replicate times (toward lock held wanted)) =
      if wanted < held then held - times else held + times := by
  rw [toward]
  split
  · exact tally_releases lock held times
  · exact tally_acquisitions lock held times

section Brings

variable {lock : Lock} {held wanted : Nat} {effects : List Effect}
  (brings : Brings lock held wanted effects)

include brings

/-- If effects bring a lock to a count, those about it are moves of one toward the count. -/
theorem Brings.onLock_eq :
    onLock lock effects =
      List.replicate ((held : Int) - wanted).natAbs (toward lock held wanted) := by
  obtain ⟨earlier, later, rfl, elsewhere⟩ := brings
  obtain ⟨before, behind⟩ := List.forall_mem_append.mp elsewhere
  have nothing : ∀ {others : List Effect}, (∀ effect ∈ others, effect.lock? ≠ some lock) →
      onLock lock others = [] := by
    intro others unmentioned
    exact List.filter_eq_nil_iff.mpr fun effect member => by simp [unmentioned effect member]
  have everything : onLock lock (Holdings.steps lock held wanted) =
      Holdings.steps lock held wanted := by
    apply List.filter_eq_self.mpr
    intro effect member
    rcases mem_steps member with rfl | rfl <;> simp [Effect.lock?]
  rw [onLock_append, onLock_append, nothing before, nothing behind, everything,
    List.nil_append, List.append_nil, steps_eq_replicate]

/-- A first part of the effects has come some way along the row, and what follows starts with
the rest of it. -/
theorem Brings.exists_times {earlier later : List Effect} (split : effects = earlier ++ later) :
    ∃ times ≤ ((held : Int) - wanted).natAbs,
      tally lock held earlier = (if wanted < held then held - times else held + times) ∧
        onLock lock later = List.replicate (((held : Int) - wanted).natAbs - times)
          (toward lock held wanted) := by
  have row := brings.onLock_eq
  rw [split, onLock_append, List.append_eq_replicate_iff] at row
  obtain ⟨total, first, second⟩ := row
  refine ⟨(onLock lock earlier).length, by omega, ?_, ?_⟩
  · rw [← tally_toward lock, ← first, tally_onLock]
  · rw [second]
    congr 1
    omega

/-- Every count on the way lies between the first and the last. -/
theorem Brings.between {earlier later : List Effect} (split : effects = earlier ++ later) :
    min held wanted ≤ tally lock held earlier ∧ tally lock held earlier ≤ max held wanted := by
  obtain ⟨times, few, reached, _⟩ := brings.exists_times split
  rw [reached]
  split <;> omega

/-- Every release finds the lock held. -/
theorem Brings.noneIgnored : NoneIgnored lock held effects := by
  intro earlier later split
  obtain ⟨times, few, reached, rest⟩ := brings.exists_times split
  have release : onLock lock (.release lock :: later) = .release lock :: onLock lock later := by
    simp [onLock, Effect.lock?]
  rw [release] at rest
  obtain ⟨more, kind⟩ : ((held : Int) - wanted).natAbs - times ≠ 0 ∧
      Effect.release lock = toward lock held wanted :=
    List.mem_replicate.mp (rest ▸ List.mem_cons_self)
  have less : wanted < held := by
    by_contra notLess
    rw [toward, if_neg notLess] at kind
    exact Effect.noConfusion kind
  rw [reached, if_pos less]
  omega

end Brings

/-! ## The length of a difference -/

/-- The locks that two holdings have different counts of are finitely many, since one of the
two has each of them. -/
theorem finite_differing (held wanted : Holdings) :
    {lock | held.count lock ≠ wanted.count lock}.Finite := by
  apply ((held.entries ++ wanted.entries).map Prod.fst).toFinset.finite_toSet.subset
  intro lock differs
  rw [List.coe_toFinset, Set.mem_ofPred_eq, List.map_append, List.mem_append]
  by_contra neither
  obtain ⟨unheld, unwanted⟩ := not_or.mp neither
  apply differs
  rw [Holdings.count_of_not_mem _ lock unheld, Holdings.count_of_not_mem _ lock unwanted]

section Difference

variable {held wanted : Holdings} (heldCanonical : held.Canonical)
  (wantedCanonical : wanted.Canonical)

include heldCanonical wantedCanonical

/-- A difference leaves locks alone whose counts are equal. -/
theorem differs_of_mem_difference {effect : Effect} (member : effect ∈ held.difference wanted) :
    ∃ lock, effect.lock? = some lock ∧ held.count lock ≠ wanted.count lock := by
  obtain ⟨lock, about⟩ := (unbounded_of_mem_difference member).isLocal.lock?
  refine ⟨lock, about, fun equal => ?_⟩
  have listed : effect ∈ onLock lock (held.difference wanted) :=
    List.mem_filter.mpr ⟨member, by simpa using about⟩
  rw [(brings_difference heldCanonical wantedCanonical lock).onLock_eq, equal] at listed
  simp at listed

/-- A difference is as long as the counts of all locks are apart. -/
theorem length_difference {locks : Finset Lock}
    (involved : ∀ lock, held.count lock ≠ wanted.count lock → lock ∈ locks) :
    (held.difference wanted).length =
      ∑ lock ∈ locks, ((held.count lock : Int) - wanted.count lock).natAbs := by
  have rows : ∀ lock, ((held.count lock : Int) - wanted.count lock).natAbs =
      (onLock lock (held.difference wanted)).length := by
    intro lock
    rw [(brings_difference heldCanonical wantedCanonical lock).onLock_eq, List.length_replicate]
  simp only [rows, sum_length_onLock]
  symm
  apply List.countP_eq_length.mpr
  intro effect member
  obtain ⟨lock, about, differs⟩ :=
    differs_of_mem_difference heldCanonical wantedCanonical member
  exact decide_eq_true ⟨lock, involved lock differs, about⟩

/-- No batch that takes every lock from the one count to the other is shorter. -/
theorem length_difference_le {effects : List Effect}
    (unbounded : ∀ effect ∈ effects, effect.Unbounded)
    (tallied : ∀ lock, tally lock (held.count lock) effects = wanted.count lock) :
    (held.difference wanted).length ≤ effects.length := by
  obtain ⟨locks, involved⟩ := (finite_differing held wanted).exists_finset
  calc (held.difference wanted).length
      = ∑ lock ∈ locks, ((held.count lock : Int) - wanted.count lock).natAbs :=
        length_difference heldCanonical wantedCanonical fun lock => (involved lock).mpr
    _ ≤ ∑ lock ∈ locks, (onLock lock effects).length := by
        apply Finset.sum_le_sum
        intro lock _
        rw [← tallied lock]
        exact distance_tally_le lock _ unbounded
    _ = effects.countP fun effect => ∃ lock ∈ locks, effect.lock? = some lock :=
        sum_length_onLock locks effects
    _ ≤ effects.length := List.countP_le_length

end Difference

end Effect

/-! ## Batches that lead from one state to the holdings of another -/

/-- Whether a batch of acquisitions without a bound and of releases leads from a state to what
another holds. -/
def State.LeadsTo (source target : State) (effects : List Effect) : Prop :=
  (∀ effect ∈ effects, effect.Unbounded) ∧
    ∃ fresh next, source.after fresh effects = .ok (some next) ∧
      next.holdings = target.holdings

/-- Whether a batch does so can be told lock by lock. -/
theorem State.leadsTo_iff {source target : State} (sourceCanonical : source.Canonical)
    (targetCanonical : target.Canonical) (effects : List Effect) :
    source.LeadsTo target effects ↔
      (∀ effect ∈ effects, effect.Unbounded) ∧
        ∀ lock, Effect.tally lock (source.holdings.count lock) effects =
          target.holdings.count lock := by
  refine and_congr_right fun unbounded => ?_
  constructor
  · rintro ⟨fresh, next, ran, reached⟩ lock
    obtain ⟨_, again, _, counts⟩ := after_of_unbounded unbounded source fresh
    obtain rfl := Option.some.inj (Except.ok.inj (again.symm.trans ran))
    rw [← counts, reached]
  · intro tallied
    obtain ⟨next, ran, _, counts⟩ := after_of_unbounded unbounded source 0
    refine ⟨0, next, ran, ?_⟩
    have nextCanonical := canonical_after sourceCanonical 0 effects ran
    apply (nextCanonical _ List.mem_cons_self).ext (targetCanonical _ List.mem_cons_self)
    intro lock
    exact (counts lock).trans (tallied lock)

namespace Session

/-- The difference of two states is a shortest batch of acquisitions without a bound and of
releases that leads from the one to what the other holds: as long as the counts of all locks are
apart, and not longer than any other such batch. It leaves locks alone whose counts are equal.
The effects on a lock are of one kind and stand together. When it is replayed, every release
finds its lock held, and each count stays between the one it has and the one it is to have.

Proof: the effects on a lock number at least what its two counts are apart, in any batch, and
just as many in the difference, where they are one row. Both are added up over the locks that
either state holds. What is said of the replay is how far along the row of each lock it has
come. -/
theorem difference_shortest_and_direct {session : Session} (reachable : session.Reachable)
    {source target : State} (sourceMade : source ∈ session.states)
    (targetMade : target ∈ session.states) :
    -- It is as long as the counts are apart, and a shortest way.
    ({lock | source.holdings.count lock ≠ target.holdings.count lock}.Finite ∧
      (source.holdings.difference target.holdings).length =
        ∑ᶠ lock, ((source.holdings.count lock : Int) - target.holdings.count lock).natAbs) ∧
    (source.LeadsTo target (source.holdings.difference target.holdings) ∧
      ∀ effects, source.LeadsTo target effects →
        (source.holdings.difference target.holdings).length ≤ effects.length) ∧
    -- It takes no detour.
    (∀ effect ∈ source.holdings.difference target.holdings,
      ∃ lock, effect.lock? = some lock ∧
        source.holdings.count lock ≠ target.holdings.count lock) ∧
    ∀ lock,
      (∃ earlier later effect,
        source.holdings.difference target.holdings =
            earlier ++ List.replicate
              ((source.holdings.count lock : Int) - target.holdings.count lock).natAbs effect ++
              later ∧
          (effect = .release lock ∨ effect = .acquire lock 0) ∧
          ∀ other ∈ earlier ++ later, other.lock? ≠ some lock) ∧
      source.ReleasesHeld lock (source.holdings.difference target.holdings) ∧
      ∀ earlier later, source.holdings.difference target.holdings = earlier ++ later →
        ∃ reached, (Draft.ofState source).undergoAll earlier = .ok reached ∧
          min (source.holdings.count lock) (target.holdings.count lock) ≤
            reached.holdings.count lock ∧
          reached.holdings.count lock ≤
            max (source.holdings.count lock) (target.holdings.count lock) := by
  have wellFormed := reachable.wellFormed
  have sourceCanonical := wellFormed.canonical_chain sourceMade
  have targetCanonical := wellFormed.canonical_chain targetMade
  have held := wellFormed.canonical source sourceMade
  have wanted := wellFormed.canonical target targetMade
  have finite := Effect.finite_differing source.holdings target.holdings
  have unbounded : ∀ effect ∈ source.holdings.difference target.holdings, effect.Unbounded :=
    fun _ member => Effect.unbounded_of_mem_difference member
  have brings := Effect.brings_difference held wanted
  refine ⟨⟨finite, ?_⟩, ⟨?_, ?_⟩, fun effect member =>
    Effect.differs_of_mem_difference held wanted member, fun lock => ⟨?_, ?_, ?_⟩⟩
  · obtain ⟨locks, involved⟩ := finite.exists_finset
    rw [Effect.length_difference held wanted fun lock => (involved lock).mpr]
    symm
    apply finsum_eq_sum_of_support_subset
    intro lock support
    apply (involved lock).mpr
    intro equal
    exact support (by simp [equal])
  · rw [State.leadsTo_iff sourceCanonical targetCanonical]
    exact ⟨unbounded, fun lock => (brings lock).tally_eq⟩
  · intro effects leads
    obtain ⟨others, tallied⟩ :=
      (State.leadsTo_iff sourceCanonical targetCanonical effects).mp leads
    exact Effect.length_difference_le held wanted others tallied
  · obtain ⟨earlier, later, split, elsewhere⟩ := brings lock
    rw [Effect.steps_eq_replicate] at split
    refine ⟨earlier, later, _, split, ?_, elsewhere⟩
    rw [Effect.toward]
    split
    · exact Or.inl rfl
    · exact Or.inr rfl
  · rw [State.releasesHeld_iff unbounded sourceCanonical]
    exact (brings lock).noneIgnored
  · intro earlier later split
    have first : ∀ effect ∈ earlier, effect.Unbounded :=
      fun effect member => unbounded effect (split ▸ List.mem_append_left _ member)
    refine ⟨_, Draft.undergoAll_of_valid _ earlier (by simp [Draft.ofState])
      fun effect member => (first effect member).valid, ?_⟩
    rw [Draft.count_meetAll _ fun effect member => (first effect member).isLocal]
    exact (brings lock).between split

/-- A difference of five effects over three locks, to a state inside a call. -/
theorem difference_of_five_effects_shortest :
    Holdings.difference ⟨[(.ofName "a", 2), (.ofName "b", 1)]⟩
        ⟨[(.ofName "b", 3), (.ofName "c", 1)]⟩ =
      [.release (.ofName "a"), .release (.ofName "a"), .acquire (.ofName "b") 0,
        .acquire (.ofName "b") 0, .acquire (.ofName "c") 0] ∧
    ∀ effects, State.LeadsTo ⟨⟨1, ⟨[(.ofName "a", 2), (.ofName "b", 1)]⟩⟩, []⟩
        ⟨⟨2, ⟨[(.ofName "b", 3), (.ofName "c", 1)]⟩⟩, [⟨0, .empty⟩]⟩ effects →
      5 ≤ effects.length := by
  obtain ⟨session, reachable, sourceMade, targetMade⟩ : ∃ session : Session,
      session.Reachable ∧
        ⟨⟨1, ⟨[(.ofName "a", 2), (.ofName "b", 1)]⟩⟩, []⟩ ∈ session.states ∧
        ⟨⟨2, ⟨[(.ofName "b", 3), (.ofName "c", 1)]⟩⟩, [⟨0, .empty⟩]⟩ ∈ session.states :=
    ⟨(start.run [.effects 0 [.assign (.ofName "a") 2, .acquire (.ofName "b") 0],
      .effects 0 [.save, .assign (.ofName "b") 3, .acquire (.ofName "c") 0]]).2, ⟨_, rfl⟩,
      List.mem_of_getElem? (i := 1) rfl, List.mem_of_getElem? (i := 2) rfl⟩
  obtain ⟨_, ⟨_, shortest⟩, _⟩ :=
    difference_shortest_and_direct reachable sourceMade targetMade
  exact ⟨by decide, shortest⟩

end Session

end HeldLocks
