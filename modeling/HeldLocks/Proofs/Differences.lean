import HeldLocks.Effect.Difference
import HeldLocks.Proofs.Flattening
import HeldLocks.Proofs.Levels

/-!
# Replaying a difference

The difference of two holdings goes through the entries of the first and then through those
entries of the second whose locks the first does not have. Each entry contributes what brings
its lock from one count to another, and contributes it once, since no lock has two entries.
So a difference brings each lock from one count to the other in one place
(`Effect.brings_difference`), and its tally ends at the count in the second holdings.

Replayed on a state, the difference to another state leads to the holdings of that state but
leaves the chain alone. Whether it leads to the same state is therefore a question of what
the two return to.
-/

namespace HeldLocks

namespace Effect

/-! ## The tally of what brings a lock to a count -/

/-- The tally of two batches in a row starts the second where the first ends. -/
theorem tally_append (lock : Lock) (held : Nat) (first second : List Effect) :
    tally lock held (first ++ second) = tally lock (tally lock held first) second :=
  List.foldl_append

/-- Releases take from the count, down to zero. -/
theorem tally_releases (lock : Lock) (held times : Nat) :
    tally lock held (List.replicate times (.release lock)) = held - times := by
  induction times generalizing held with
  | zero => rfl
  | succ times inductionHypothesis =>
    rw [List.replicate_succ, tally_cons, recountAt_release, inductionHypothesis]
    omega

/-- Acquisitions without a bound add to the count. -/
theorem tally_acquisitions (lock : Lock) (held times : Nat) :
    tally lock held (List.replicate times (.acquire lock 0)) = held + times := by
  induction times generalizing held with
  | zero => rfl
  | succ times inductionHypothesis =>
    have once : (acquire lock 0).recountAt lock held = held + 1 := by
      simp [recountAt, Effect.lock?, recount]
    rw [List.replicate_succ, tally_cons, once, inductionHypothesis]
    omega

/-- What brings a lock from one count to another does so. -/
theorem tally_steps (lock : Lock) (held wanted : Nat) :
    tally lock held (Holdings.steps lock held wanted) = wanted := by
  rw [Holdings.steps, tally_append, tally_releases, tally_acquisitions]
  omega

/-- What brings a lock to a count is made of releases and unbounded acquisitions of it. -/
theorem mem_steps {lock : Lock} {held wanted : Nat} {effect : Effect}
    (member : effect ∈ Holdings.steps lock held wanted) :
    effect = .release lock ∨ effect = .acquire lock 0 :=
  (List.mem_append.mp member).imp List.eq_of_mem_replicate List.eq_of_mem_replicate

/-! ## The place of a lock in a pass over entries -/

/-- Whether effects bring a lock from one count to another in one place, and do not mention it
elsewhere. -/
def Brings (lock : Lock) (held wanted : Nat) (effects : List Effect) : Prop :=
  ∃ earlier later, effects = earlier ++ Holdings.steps lock held wanted ++ later ∧
    ∀ effect ∈ earlier ++ later, effect.lock? ≠ some lock

section Brings

variable {lock : Lock} {held wanted : Nat} {effects others : List Effect}

/-- Effects that do not mention a lock bring it from any count to that count. -/
theorem brings_of_unmentioned (unmentioned : ∀ effect ∈ effects, effect.lock? ≠ some lock)
    (count : Nat) : Brings lock count count effects :=
  ⟨effects, [], by simp [Holdings.steps], by rwa [List.append_nil]⟩

/-- Effects in front that do not mention the lock change nothing for it. -/
theorem Brings.append_left (brings : Brings lock held wanted effects)
    (unmentioned : ∀ effect ∈ others, effect.lock? ≠ some lock) :
    Brings lock held wanted (others ++ effects) := by
  obtain ⟨earlier, later, rfl, elsewhere⟩ := brings
  refine ⟨others ++ earlier, later, by simp only [List.append_assoc], ?_⟩
  rw [List.append_assoc]
  exact List.forall_mem_append.mpr ⟨unmentioned, elsewhere⟩

/-- Neither do effects behind. -/
theorem Brings.append_right (brings : Brings lock held wanted effects)
    (unmentioned : ∀ effect ∈ others, effect.lock? ≠ some lock) :
    Brings lock held wanted (effects ++ others) := by
  obtain ⟨earlier, later, rfl, elsewhere⟩ := brings
  refine ⟨earlier, later ++ others, by simp only [List.append_assoc], ?_⟩
  rw [← List.append_assoc]
  exact List.forall_mem_append.mpr ⟨elsewhere, unmentioned⟩

/-- Bringing a lock from one count to another is what happens to its count. -/
theorem Brings.tally_eq (brings : Brings lock held wanted effects) :
    tally lock held effects = wanted := by
  obtain ⟨earlier, later, rfl, elsewhere⟩ := brings
  obtain ⟨before, behind⟩ := List.forall_mem_append.mp elsewhere
  rw [tally_append, tally_append, tally_of_unmentioned _ before, tally_steps,
    tally_of_unmentioned _ behind]

end Brings

section Pass

variable (entries : List (Lock × Nat)) (held wanted : Lock × Nat → Nat)

/-- A pass over entries does not mention a lock that none of them names. -/
theorem unmentioned_pass {lock : Lock} (absent : lock ∉ entries.map Prod.fst) :
    ∀ effect ∈ entries.flatMap fun entry =>
        Holdings.steps entry.1 (held entry) (wanted entry),
      effect.lock? ≠ some lock := by
  intro effect member about
  obtain ⟨entry, listed, step⟩ := List.mem_flatMap.mp member
  have named : entry.1 = lock := by
    rcases mem_steps step with rfl | rfl <;> exact Option.some.inj about
  exact absent (List.mem_map.mpr ⟨entry, listed, named⟩)

/-- A pass over entries of different locks brings the lock of each entry to the count wanted
for it, from the count that it is held with. -/
theorem brings_pass (distinct : (entries.map Prod.fst).Nodup) {entry : Lock × Nat}
    (listed : entry ∈ entries) :
    Brings entry.1 (held entry) (wanted entry)
      (entries.flatMap fun entry => Holdings.steps entry.1 (held entry) (wanted entry)) := by
  obtain ⟨earlier, later, rfl⟩ := List.append_of_mem listed
  rw [List.map_append, List.map_cons, List.perm_middle.nodup_iff, List.nodup_cons,
    List.mem_append, not_or] at distinct
  obtain ⟨absent, _⟩ := distinct
  refine ⟨_, _, by rw [List.flatMap_append, List.flatMap_cons, List.append_assoc], ?_⟩
  exact List.forall_mem_append.mpr ⟨unmentioned_pass earlier held wanted absent.1,
    unmentioned_pass later held wanted absent.2⟩

end Pass

/-! ## The place of a lock in a difference -/

section Difference

variable {held wanted : Holdings}

/-- A difference acquires without a bound and releases, and does nothing else. -/
theorem unbounded_of_mem_difference {effect : Effect}
    (member : effect ∈ held.difference wanted) : effect.Unbounded := by
  have ofStep : ∀ {lock : Lock} {least most : Nat},
      effect ∈ Holdings.steps lock least most → effect.Unbounded := by
    intro lock least most step
    rcases mem_steps step with rfl | rfl
    · trivial
    · exact Int.le_refl 0
  rcases List.mem_append.mp member with first | second
  · obtain ⟨_, _, step⟩ := List.mem_flatMap.mp first
    exact ofStep step
  · obtain ⟨_, _, step⟩ := List.mem_flatMap.mp second
    exact ofStep step

/-- A difference brings every lock from its count in the first holdings to its count in the
second. A lock of the first holdings is dealt with in the first pass, and one that only the
second have in the second. -/
theorem brings_difference (heldCanonical : held.Canonical) (wantedCanonical : wanted.Canonical)
    (lock : Lock) :
    Brings lock (held.count lock) (wanted.count lock) (held.difference wanted) := by
  -- The entries of the second pass are those of the locks that the first holdings lack.
  have secondPass : ∀ tested,
      tested ∈ (wanted.entries.filter fun entry => entry.1 ∉ held).map Prod.fst ↔
        tested ∈ wanted ∧ tested ∉ held :=
    Holdings.mem_filter_not_mem wanted held.locks
  have secondDistinct :
      ((wanted.entries.filter fun entry => entry.1 ∉ held).map Prod.fst).Nodup :=
    wantedCanonical.nodup_locks.sublist (List.filter_sublist.map Prod.fst)
  rw [Holdings.difference]
  by_cases present : lock ∈ held
  · obtain ⟨entry, listed, rfl⟩ := List.mem_map.mp present
    rw [heldCanonical.count_of_mem listed]
    refine (brings_pass held.entries Prod.snd (fun entry => wanted.count entry.1)
      heldCanonical.nodup_locks listed).append_right ?_
    apply unmentioned_pass _ (fun _ => 0) Prod.snd
    exact fun again => ((secondPass entry.1).mp again).2 present
  · rw [Holdings.count_of_not_mem held lock present]
    refine Brings.append_left ?_
      (unmentioned_pass held.entries Prod.snd (fun entry => wanted.count entry.1) present)
    by_cases required : lock ∈ wanted
    · obtain ⟨entry, listed, rfl⟩ := List.mem_map.mp ((secondPass lock).mpr ⟨required, present⟩)
      rw [wantedCanonical.count_of_mem (List.mem_filter.mp listed).1]
      exact brings_pass _ (fun _ => 0) Prod.snd secondDistinct listed
    · rw [Holdings.count_of_not_mem wanted lock required]
      apply brings_of_unmentioned
      apply unmentioned_pass _ (fun _ => 0) Prod.snd
      exact fun again => required ((secondPass lock).mp again).1

end Difference

end Effect

namespace Session

/-- Replaying the difference of two states on the first. It is never refused and never rules
the path out. The state it leads to holds what the target holds and returns to the very state
that the source returns to. So it is the same as the target exactly if source and target
return to the same, and it is the source itself exactly if the two hold the same.

Proof: a difference is made of releases and unbounded acquisitions, so that the counts after
it can be tallied lock by lock and the chain stays. Canonical holdings with equal counts are
equal, and a batch that changes no level leads back to where it started. -/
theorem difference_reaches_target {session : Session} (reachable : session.Reachable)
    {source target : State} (sourceMade : source ∈ session.states)
    (targetMade : target ∈ session.states) :
    ∃ next,
      source.after session.fresh (source.holdings.difference target.holdings) =
          .ok (some next) ∧
        next.holdings = target.holdings ∧
        next.restore? = source.restore? ∧
        (next.same target = true ↔ source.sameSaved target = true) ∧
        (next.identical source = true ↔ source.holdings = target.holdings) ∧
        (source.holdings = target.holdings → next = source) := by
  have wellFormed := reachable.wellFormed
  obtain ⟨next, ran, saved, counts⟩ := State.after_of_unbounded
    (fun _ member => Effect.unbounded_of_mem_difference member) source session.fresh
  obtain ⟨laterWellFormed, nextMade, _⟩ := wellFormed.record_after sourceMade _ ran
  have grown := subset_record session next
  have holdings : next.holdings = target.holdings := by
    apply (laterWellFormed.canonical next nextMade).ext (wellFormed.canonical target targetMade)
    intro lock
    rw [counts, (Effect.brings_difference (wellFormed.canonical source sourceMade)
      (wellFormed.canonical target targetMade) lock).tally_eq]
  have shared : next.identical source = true ↔ source.holdings = target.holdings := by
    rw [wellFormed.identical_after_iff sourceMade ran, State.levels_def, State.levels_def,
      List.cons.injEq, saved, holdings, eq_comm]
    exact and_iff_left rfl
  refine ⟨next, ran, holdings, ?_, ?_, shared, ?_⟩
  · rw [State.restore?, saved, State.restore?]
  · rw [laterWellFormed.same_iff nextMade (grown targetMade),
      wellFormed.sameSaved_iff sourceMade targetMade, State.levels_def, State.levels_def,
      List.cons.injEq, saved, holdings]
    exact and_iff_right rfl
  · intro sameHoldings
    apply laterWellFormed.eq_of_serial nextMade (grown sourceMade)
    simpa [State.identical] using shared.mpr sameHoldings

/-- A target inside a call. The replay reaches what it holds, over a lock to release, one to
acquire more often and one to acquire anew, but not the call. -/
theorem difference_reaches_holdings_of_call :
    ∃ next,
      State.after ⟨⟨1, ⟨[(.ofName "a", 2), (.ofName "b", 1)]⟩⟩, []⟩ 3
          (Holdings.difference ⟨[(.ofName "a", 2), (.ofName "b", 1)]⟩
            ⟨[(.ofName "b", 3), (.ofName "c", 1)]⟩) = .ok (some next) ∧
        next.holdings = ⟨[(.ofName "b", 3), (.ofName "c", 1)]⟩ ∧
        next.restore? = none ∧
        ¬ next.same ⟨⟨2, ⟨[(.ofName "b", 3), (.ofName "c", 1)]⟩⟩, [⟨0, .empty⟩]⟩ = true := by
  obtain ⟨session, reachable, unused, sourceMade, targetMade⟩ : ∃ session : Session,
      session.Reachable ∧ session.fresh = 3 ∧
        ⟨⟨1, ⟨[(.ofName "a", 2), (.ofName "b", 1)]⟩⟩, []⟩ ∈ session.states ∧
        ⟨⟨2, ⟨[(.ofName "b", 3), (.ofName "c", 1)]⟩⟩, [⟨0, .empty⟩]⟩ ∈ session.states :=
    ⟨(start.run [.effects 0 [.assign (.ofName "a") 2, .acquire (.ofName "b") 0],
      .effects 0 [.save, .assign (.ofName "b") 3, .acquire (.ofName "c") 0]]).2, ⟨_, rfl⟩, rfl,
      List.mem_of_getElem? (i := 1) rfl, List.mem_of_getElem? (i := 2) rfl⟩
  obtain ⟨next, ran, holdings, restored, same, _⟩ :=
    difference_reaches_target reachable sourceMade targetMade
  rw [unused] at ran
  refine ⟨next, ran, holdings, restored, ?_⟩
  rw [same]
  decide

end Session

end HeldLocks
