import HeldLocks.Draft.Lemmas
import HeldLocks.Effect.Basic

/-!
# Batches of effects

A draft consists of its holdings and, besides them, of what decides the fate of the
successor: the state it started from, the chain to return to, the mark that a lock was
restored, and the stage. Few edits touch anything but the holdings. The first part says
for each of the four what an edit makes of it.

An open draft refuses an effect only if it asks for a negative count. Where no effect of a
batch does, the batch acts as the plain fold `Draft.meetAll`, and `State.after_of_valid` and
`State.successor_of_after` give the successor of a state without any mention of refusals.
The rest says what a whole batch makes of the chain and of the mark: the chain is that of
the origin as soon as one effect saves, and the mark is set exactly if some lock is
restored while a call is open (`Draft.restored_meetAll_iff`).
-/

namespace HeldLocks

namespace Draft

/-! ## What an edit makes of the rest of a draft -/

/-- All of a draft but its holdings and its record of acquisitions and releases. -/
def context (draft : Draft) : State × List Snapshot × Bool × Status :=
  (draft.origin, draft.saved, draft.restored, draft.status)

/-- Acquiring touches the holdings and the log, and not the context. -/
theorem context_acquire (draft : Draft) (lock : Lock) (times : Nat) :
    (draft.acquire lock times).context = draft.context := by
  rw [acquire]
  split <;> rfl

/-- Neither does releasing touch the context. -/
theorem context_release (draft : Draft) (lock : Lock) (times : Nat) :
    (draft.release lock times).context = draft.context := by
  rw [release]
  split <;> rfl

/-- Neither does assigning a count. -/
theorem context_assign (draft : Draft) (lock : Lock) (count : Nat) :
    (draft.assign lock count).context = draft.context := by
  simp only [assign, context_release, context_acquire]

/-- Neither does flattening. -/
theorem context_flatten (draft : Draft) (kept : LockSet) :
    (draft.flatten kept).context = draft.context := by
  have folded : ∀ (list : List Lock) (start : Draft),
      (list.foldl (fun flattened lock => (flattened.forget lock).acquire lock 1)
        start).context = start.context := by
    intro list
    induction list with
    | nil => intro start; rfl
    | cons lock rest inductionHypothesis =>
      intro start
      rw [List.foldl_cons, inductionHypothesis, context_acquire]
      rfl
  exact folded _ draft

/-- An edit never changes where the work started. It changes the chain to return to if it
saves, detaches or attaches, the mark if it restores a lock while a call is open, and the
stage if it aborts. -/
theorem context_change (draft : Draft) (edit : Edit State) :
    (draft.change edit).context =
      (draft.origin,
        match edit with
        | .save => draft.origin.chain
        | .detach => []
        | .attach root => root.saved
        | _ => draft.saved,
        match edit with
        | .restore _ => draft.restored || !draft.saved.isEmpty
        | _ => draft.restored,
        match edit with
        | .abort => .infeasible
        | _ => draft.status) := by
  cases edit with
  | acquire lock => exact context_acquire draft lock 1
  | release lock => exact context_release draft lock 1
  | assign lock count => exact context_assign draft lock count.toNat
  | flatten kept => exact context_flatten draft kept
  | restore lock =>
    simp only [change, restore]
    split
    next closed => simp [context, closed]
    next caller below opened => simp [context, opened]
  | restoreAll =>
    simp only [change, restoreAll]
    split <;> rfl
  | forget lock => rfl
  | forgetAll => rfl
  | save => rfl
  | abort => rfl
  | detach => rfl
  | drop locks => rfl
  | attach root => rfl
  | reinstate root used => rfl
  | reapply root used => rfl

/-- No edit changes which state the draft is of. -/
theorem origin_change (draft : Draft) (edit : Edit State) :
    (draft.change edit).origin = draft.origin :=
  congrArg (·.1) (context_change draft edit)

/-- Only a call, a detachment and an attachment change what the draft returns to. -/
theorem saved_change (draft : Draft) (edit : Edit State) :
    (draft.change edit).saved =
      match edit with
      | .save => draft.origin.chain
      | .detach => []
      | .attach root => root.saved
      | _ => draft.saved :=
  congrArg (·.2.1) (context_change draft edit)

/-- Only a restoration marks the draft as restored, and only where there is a caller. -/
theorem restored_change (draft : Draft) (edit : Edit State) :
    (draft.change edit).restored =
      match edit with
      | .restore _ => draft.restored || !draft.saved.isEmpty
      | _ => draft.restored :=
  congrArg (·.2.2.1) (context_change draft edit)

/-- Only an abort changes the status. -/
theorem status_change (draft : Draft) (edit : Edit State) :
    (draft.change edit).status =
      match edit with
      | .abort => .infeasible
      | _ => draft.status :=
  congrArg (·.2.2.2) (context_change draft edit)

/-- No edit ends the work. -/
theorem status_change_ne_built (draft : Draft) (edit : Edit State)
    (unbuilt : draft.status ≠ .built) : (draft.change edit).status ≠ .built := by
  rw [status_change]
  cases edit <;> simp [unbuilt]

end Draft

namespace Effect

/-- Whether an effect asks for no negative count. -/
def Valid : Effect → Prop
  | assign _ count => 0 ≤ count
  | _ => True

/-- Whether an effect restores a single lock. -/
def restores : Effect → Bool
  | restore _ => true
  | _ => false

/-- The edit that an effect asks for, where it asks for one. -/
def asked : Effect → Edit State
  | acquire lock _ => .acquire lock
  | release lock => .release lock
  | forget lock => .forget lock
  | assign lock count => .assign lock count
  | restore lock => .restore lock
  | check _ _ _ => .abort
  | restoreAll => .restoreAll
  | forgetAll => .forgetAll
  | save => .save

/-- The holdings decide whether an effect asks for its edit, not which one it is. -/
theorem asked_of_edit? (effect : Effect) (holdings : Holdings) (edit : Edit State)
    (asks : effect.edit? holdings = some edit) : effect.asked = edit := by
  cases effect with
  | acquire lock bound =>
    simp only [edit?] at asks
    split at asks
    · exact nomatch asks
    · exact Option.some.inj asks
  | check lock count expected =>
    simp only [edit?] at asks
    split at asks
    · exact nomatch asks
    · exact Option.some.inj asks
  | _ => exact Option.some.inj asks

/-- A valid effect asks for an edit that only a built draft refuses. -/
theorem refusal?_asked (effect : Effect) (valid : effect.Valid) :
    effect.asked.refusal? = none := by
  cases effect with
  | assign lock count =>
    cases count with
    | ofNat count => rfl
    | negSucc count => exact absurd valid (Int.not_le.mpr (Int.negSucc_lt_zero count))
  | _ => rfl

/-- Effects look at no state besides the one they act on. -/
theorem root?_asked (effect : Effect) : effect.asked.root? = none := by
  cases effect <;> rfl

end Effect

namespace Draft

/-! ## Changes in a row

Edits and effects are refused alike: an open draft stays open and accepts what is valid, and
refuses everything else for one reason. What follows of a row of them is said once. -/

section Rows

variable {Change : Type} {attempt : Draft → Change → Except Misuse Draft}
  {made : Draft → Change → Draft} {Valid : Change → Prop}
  (staysOpen : ∀ draft change, draft.status ≠ .built → (made draft change).status ≠ .built)
  (accepts : ∀ draft change, draft.status ≠ .built → Valid change →
    attempt draft change = .ok (made draft change))

include staysOpen accepts

/-- A row of valid changes is accepted. -/
theorem foldlM_of_valid (draft : Draft) {changes : List Change} (unbuilt : draft.status ≠ .built)
    (valid : ∀ change ∈ changes, Valid change) :
    changes.foldlM attempt draft = .ok (changes.foldl made draft) := by
  induction changes generalizing draft with
  | nil => rfl
  | cons change rest inductionHypothesis =>
    obtain ⟨first, others⟩ := List.forall_mem_cons.mp valid
    rw [List.foldlM_cons, accepts draft change unbuilt first]
    exact inductionHypothesis _ (staysOpen draft change unbuilt) others

/-- Any other row is refused, at the first change that is not valid. -/
theorem foldlM_of_invalid {misuse : Misuse}
    (refuses : ∀ draft change, draft.status ≠ .built → ¬ Valid change →
      attempt draft change = .error misuse)
    (draft : Draft) {changes : List Change} (unbuilt : draft.status ≠ .built)
    (invalid : ¬ ∀ change ∈ changes, Valid change) :
    changes.foldlM attempt draft = .error misuse := by
  induction changes generalizing draft with
  | nil => exact absurd (fun _ member => absurd member List.not_mem_nil) invalid
  | cons change rest inductionHypothesis =>
    rw [List.foldlM_cons]
    by_cases first : Valid change
    · rw [accepts draft change unbuilt first]
      refine inductionHypothesis _ (staysOpen draft change unbuilt) ?_
      exact fun others => invalid (List.forall_mem_cons.mpr ⟨first, others⟩)
    · rw [refuses draft change unbuilt first]
      rfl

end Rows

/-! ## Effects without refusals -/

/-- What an effect does to a draft that does not refuse it. -/
def meet (draft : Draft) (effect : Effect) : Draft :=
  match effect.edit? draft.holdings with
  | none => draft
  | some edit => draft.change edit

/-- What a batch does to a draft that refuses none of its effects. -/
def meetAll (draft : Draft) (effects : List Effect) : Draft := effects.foldl meet draft

/-- An acquisition is ignored if its bound is reached, and otherwise adds one. -/
theorem meet_acquire (draft : Draft) (lock : Lock) (bound : Int) :
    draft.meet (.acquire lock bound) =
      if 0 < bound ∧ bound ≤ draft.holdings.count lock then draft
      else draft.change (.acquire lock) := by
  by_cases saturated : 0 < bound ∧ bound ≤ draft.holdings.count lock
  · simp only [meet, Effect.edit?, saturated, and_self, if_true]
  · simp only [meet, Effect.edit?, saturated, if_false]

/-- A check that holds does nothing, and one that fails aborts. -/
theorem meet_check (draft : Draft) (lock : Lock) (count : Int) (expected : Bool) :
    draft.meet (.check lock count expected) =
      if decide (draft.holdings.count lock = count) = expected then draft
      else draft.change .abort := by
  by_cases passed : decide (draft.holdings.count lock = count) = expected
  · simp only [meet, Effect.edit?, passed, if_true]
  · simp only [meet, Effect.edit?, passed, if_false]

/-- A batch is met effect by effect. -/
theorem meetAll_cons (draft : Draft) (effect : Effect) (effects : List Effect) :
    draft.meetAll (effect :: effects) = (draft.meet effect).meetAll effects := rfl

/-- An effect leaves a draft as it is or makes the edit that it can ask for. -/
theorem meet_eq_or_eq (draft : Draft) (effect : Effect) :
    draft.meet effect = draft ∨ draft.meet effect = draft.change effect.asked := by
  cases asks : effect.edit? draft.holdings with
  | none =>
    apply Or.inl
    simp only [meet, asks]
  | some edit =>
    apply Or.inr
    rw [effect.asked_of_edit? draft.holdings edit asks]
    simp only [meet, asks]

/-- What every effect of a batch keeps, the batch keeps. -/
theorem meetAll_keeps (Kept : Draft → Prop) {effects : List Effect}
    (meetKeeps : ∀ draft, Kept draft → ∀ effect ∈ effects, Kept (draft.meet effect))
    (draft : Draft) (kept : Kept draft) : Kept (draft.meetAll effects) := by
  induction effects generalizing draft with
  | nil => exact kept
  | cons effect rest inductionHypothesis =>
    rw [meetAll_cons]
    apply inductionHypothesis
    · intro reached reachedKept later member
      exact meetKeeps reached reachedKept later (List.mem_cons_of_mem _ member)
    · exact meetKeeps draft kept effect List.mem_cons_self

/-- No effect builds. -/
theorem status_meet_ne_built (draft : Draft) (effect : Effect)
    (unbuilt : draft.status ≠ .built) : (draft.meet effect).status ≠ .built := by
  rcases draft.meet_eq_or_eq effect with same | changed
  · rw [same]
    exact unbuilt
  · rw [changed]
    exact status_change_ne_built draft _ unbuilt

/-- An open draft accepts a valid effect. -/
theorem undergo_of_valid (draft : Draft) (effect : Effect) (unbuilt : draft.status ≠ .built)
    (valid : effect.Valid) : draft.undergo effect = .ok (draft.meet effect) := by
  rw [undergo, meet]
  cases asks : effect.edit? draft.holdings with
  | none => rfl
  | some edit =>
    obtain rfl := effect.asked_of_edit? draft.holdings edit asks
    simp only [Draft.edit, unbuilt, if_false, effect.refusal?_asked valid]

/-- What comes out of an accepted edit is the change it stands for. -/
theorem change_of_edit (draft next : Draft) (edit : Edit State)
    (accepted : draft.edit edit = .ok next) : draft.change edit = next := by
  rw [Draft.edit] at accepted
  split at accepted
  · exact nomatch accepted
  · split at accepted
    · exact nomatch accepted
    · exact Except.ok.inj accepted

/-- What a draft comes to under an effect that it accepts is what the effect does. -/
theorem meet_of_undergo (draft next : Draft) (effect : Effect)
    (accepted : draft.undergo effect = .ok next) : draft.meet effect = next := by
  cases asked : effect.edit? draft.holdings with
  | none =>
    simp only [undergo, asked] at accepted
    simpa only [meet, asked] using Except.ok.inj accepted
  | some edit =>
    simp only [undergo, asked] at accepted
    simpa only [meet, asked] using change_of_edit draft next edit accepted

/-- No draft accepts an effect that asks for a negative count. -/
theorem valid_of_undergo (draft next : Draft) (effect : Effect)
    (accepted : draft.undergo effect = .ok next) : effect.Valid := by
  cases effect with
  | assign lock count =>
    cases count with
    | ofNat count => exact Int.natCast_nonneg count
    | negSucc count =>
      simp only [undergo, Effect.edit?, Draft.edit, Edit.refusal?] at accepted
      split at accepted <;> exact nomatch accepted
  | _ => trivial

/-- An open draft accepts a batch of valid effects. -/
theorem undergoAll_of_valid (draft : Draft) (effects : List Effect)
    (unbuilt : draft.status ≠ .built) (valid : ∀ effect ∈ effects, effect.Valid) :
    draft.undergoAll effects = .ok (draft.meetAll effects) :=
  foldlM_of_valid status_meet_ne_built undergo_of_valid draft unbuilt valid

/-- An open draft accepts no other batch. -/
theorem valid_of_undergoAll (draft final : Draft) (effects : List Effect)
    (accepted : draft.undergoAll effects = .ok final) : ∀ effect ∈ effects, effect.Valid := by
  rw [undergoAll] at accepted
  induction effects generalizing draft with
  | nil => exact fun _ member => absurd member List.not_mem_nil
  | cons effect rest inductionHypothesis =>
    rw [List.foldlM_cons] at accepted
    cases first : draft.undergo effect with
    | error misuse =>
      rw [first] at accepted
      exact nomatch accepted
    | ok next =>
      rw [first] at accepted
      exact List.forall_mem_cons.mpr
        ⟨valid_of_undergo draft next effect first, inductionHypothesis next accepted⟩

/-! ## What a batch makes of the rest of a draft -/

/-- No effect changes which state the draft is of. -/
theorem origin_meet (draft : Draft) (effect : Effect) :
    (draft.meet effect).origin = draft.origin := by
  rcases draft.meet_eq_or_eq effect with same | changed
  · rw [same]
  · rw [changed, origin_change]

/-- Neither does a batch. -/
theorem origin_meetAll (draft : Draft) (effects : List Effect) :
    (draft.meetAll effects).origin = draft.origin := by
  apply meetAll_keeps (fun reached => reached.origin = draft.origin) _ draft rfl
  intro reached same effect _
  rw [origin_meet, same]

/-- Only saving changes the chain to return to. -/
theorem saved_meet (draft : Draft) (effect : Effect) :
    (draft.meet effect).saved = if effect = .save then draft.origin.chain else draft.saved := by
  cases effect with
  | acquire lock bound =>
    rw [meet_acquire]
    split <;> simp [saved_change]
  | check lock count expected =>
    rw [meet_check]
    split <;> simp [saved_change]
  | _ => simp [meet, Effect.edit?, saved_change]

/-- Only restoring a lock sets the mark, and only while a call is open. -/
theorem restored_meet (draft : Draft) (effect : Effect) :
    (draft.meet effect).restored =
      (draft.restored || (effect.restores && !draft.saved.isEmpty)) := by
  cases effect with
  | acquire lock bound =>
    rw [meet_acquire]
    split <;> simp [restored_change, Effect.restores]
  | check lock count expected =>
    rw [meet_check]
    split <;> simp [restored_change, Effect.restores]
  | _ => simp [meet, Effect.edit?, restored_change, Effect.restores]

/-- After a batch the successor returns to the origin if some effect saved, and else to
what it returned to before. -/
theorem saved_meetAll (draft : Draft) (effects : List Effect) :
    (draft.meetAll effects).saved =
      if .save ∈ effects then draft.origin.chain else draft.saved := by
  induction effects generalizing draft with
  | nil => simp [meetAll]
  | cons effect rest inductionHypothesis =>
    rw [meetAll_cons, inductionHypothesis, origin_meet, saved_meet]
    by_cases later : .save ∈ rest
    · simp [later]
    · by_cases here : effect = .save
      · simp [here]
      · simp [here, later, Ne.symm here]

/-- Whether a batch restores a lock while a call is open: one that was open before it, or
one that an earlier effect of the batch opens. -/
def Returns (draft : Draft) (effects : List Effect) : Prop :=
  ∃ earlier lock later, effects = earlier ++ .restore lock :: later ∧
    (draft.saved ≠ [] ∨ .save ∈ earlier)

/-- An empty batch returns nothing. -/
theorem not_returns_nil (draft : Draft) : ¬ draft.Returns [] := by
  rintro ⟨earlier, lock, later, split, _⟩
  exact List.append_ne_nil_of_right_ne_nil earlier (List.cons_ne_nil _ later) split.symm

/-- The first effect of a batch returns itself, or leaves the open call to the others. -/
theorem returns_cons (draft : Draft) (effect : Effect) (rest : List Effect) :
    draft.Returns (effect :: rest) ↔
      (effect.restores = true ∧ draft.saved ≠ []) ∨ (draft.meet effect).Returns rest := by
  have opened : (draft.meet effect).saved ≠ [] ↔ effect = .save ∨ draft.saved ≠ [] := by
    rw [saved_meet]
    by_cases here : effect = .save
    · simp [here, State.chain]
    · simp [here]
  constructor
  · rintro ⟨earlier, lock, later, split, open'⟩
    cases earlier with
    | nil =>
      obtain ⟨rfl, rfl⟩ := List.cons.inj split
      exact Or.inl ⟨rfl, open'.resolve_right List.not_mem_nil⟩
    | cons first others =>
      obtain ⟨rfl, rfl⟩ := List.cons.inj split
      refine Or.inr ⟨others, lock, later, rfl, ?_⟩
      rw [opened]
      rcases open' with before | saves
      · exact Or.inl (Or.inr before)
      · rcases List.mem_cons.mp saves with first | saves
        · exact Or.inl (Or.inl first.symm)
        · exact Or.inr saves
  · rintro (⟨isRestore, before⟩ | ⟨earlier, lock, later, rfl, open'⟩)
    · cases effect with
      | restore lock => exact ⟨[], lock, rest, rfl, Or.inl before⟩
      | _ => exact nomatch isRestore
    · refine ⟨effect :: earlier, lock, later, rfl, ?_⟩
      rw [opened] at open'
      rcases open' with (first | before) | saves
      · exact Or.inr (List.mem_cons.mpr (Or.inl first.symm))
      · exact Or.inl before
      · exact Or.inr (List.mem_cons_of_mem _ saves)

/-- The mark is set after a batch exactly if it was set before or the batch restores a
lock while a call is open. Saving neither sets nor clears it. -/
theorem restored_meetAll_iff (draft : Draft) (effects : List Effect) :
    (draft.meetAll effects).restored = true ↔
      draft.restored = true ∨ draft.Returns effects := by
  induction effects generalizing draft with
  | nil => simp [meetAll, not_returns_nil]
  | cons effect rest inductionHypothesis =>
    rw [meetAll_cons, inductionHypothesis, restored_meet, returns_cons]
    simp [or_assoc]

/-- Without a restored lock no batch sets the mark. -/
theorem restored_meetAll_of_none (draft : Draft) (effects : List Effect)
    (unmarked : draft.restored = false) (none : ∀ lock, .restore lock ∉ effects) :
    (draft.meetAll effects).restored = false := by
  apply Bool.eq_false_iff.mpr
  intro marked
  rcases (restored_meetAll_iff draft effects).mp marked with before | ⟨_, lock, _, rfl, _⟩
  · exact Bool.false_ne_true (unmarked.symm.trans before)
  · exact none lock (List.mem_append_right _ List.mem_cons_self)

/-! ## The successor of a state -/

/-- The state that an open draft is built into, unless the path is infeasible. -/
def outcome (draft : Draft) (fresh : Nat) : Option State :=
  if draft.status = .infeasible then none else some (draft.successor fresh)

/-- There is a successor exactly if the path is not ruled out. -/
theorem outcome_eq_some_iff (draft : Draft) (fresh : Nat) (next : State) :
    draft.outcome fresh = some next ↔
      draft.status ≠ .infeasible ∧ draft.successor fresh = next := by
  rw [outcome]
  split <;> simp_all

/-- There is none exactly if it is. -/
theorem outcome_eq_none_iff (draft : Draft) (fresh : Nat) :
    draft.outcome fresh = none ↔ draft.status = .infeasible := by
  rw [outcome]
  split <;> simp_all

/-- An open draft is built into its outcome. -/
theorem build_of_unbuilt (draft : Draft) (fresh : Nat) (unbuilt : draft.status ≠ .built) :
    draft.build fresh = .ok (draft.outcome fresh, draft.finished) := by
  rw [build, outcome]
  cases stage : draft.status with
  | editing => simp
  | infeasible => simp
  | built => exact absurd stage unbuilt

end Draft

namespace State

/-- A batch leaves a fresh draft unbuilt. -/
theorem status_meetAll_ofState (state : State) (effects : List Effect) :
    ((Draft.ofState state).meetAll effects).status ≠ .built := by
  apply Draft.meetAll_keeps (fun reached => reached.status ≠ .built)
  · intro reached unbuilt effect _
    exact Draft.status_meet_ne_built reached effect unbuilt
  · simp [Draft.ofState]

/-- A batch of valid effects is never refused, so it has an outcome. -/
theorem after_of_valid (state : State) (fresh : Nat) (effects : List Effect)
    (valid : ∀ effect ∈ effects, effect.Valid) :
    state.after fresh effects =
      .ok (((Draft.ofState state).meetAll effects).outcome fresh) := by
  have accepted := Draft.undergoAll_of_valid (Draft.ofState state) effects
    (by simp [Draft.ofState]) valid
  have built := Draft.build_of_unbuilt ((Draft.ofState state).meetAll effects) fresh
    (status_meetAll_ofState state effects)
  simp [after, accepted, built, bind, Except.bind, pure, Except.pure]

/-- A batch that is not refused consists of valid effects. -/
theorem valid_of_after (state : State) (fresh : Nat) (effects : List Effect)
    (outcome : Option State) (ran : state.after fresh effects = .ok outcome) :
    ∀ effect ∈ effects, effect.Valid := by
  cases accepted : (Draft.ofState state).undergoAll effects with
  | error misuse => simp [after, accepted, bind, Except.bind] at ran
  | ok final => exact Draft.valid_of_undergoAll _ final effects accepted

/-- The outcome of a batch, whenever there is one, is that of the draft it leads to. -/
theorem outcome_of_after (state : State) (fresh : Nat) (effects : List Effect)
    (outcome : Option State) (ran : state.after fresh effects = .ok outcome) :
    ((Draft.ofState state).meetAll effects).outcome fresh = outcome := by
  have valid := valid_of_after state fresh effects outcome ran
  exact Except.ok.inj ((after_of_valid state fresh effects valid).symm.trans ran)

/-- A state that comes out of a batch is the successor of the draft it leads to. -/
theorem successor_of_after (state next : State) (fresh : Nat) (effects : List Effect)
    (ran : state.after fresh effects = .ok (some next)) :
    ((Draft.ofState state).meetAll effects).successor fresh = next :=
  ((Draft.outcome_eq_some_iff _ fresh next).mp
    (outcome_of_after state fresh effects (some next) ran)).2

end State

end HeldLocks
