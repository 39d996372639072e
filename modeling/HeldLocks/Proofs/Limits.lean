import HeldLocks.Proofs.Counts
import HeldLocks.Proofs.Grammar
import HeldLocks.Proofs.Lifetimes

/-!
# Bounded counts

A positive bound stops acquisitions and nothing else: assignments give a lock any count, and
restoring copies counts from the chain without a look at the bound. Still no count grows beyond
what the text allows. A count comes about by an acquisition, and then it is at most the bound, or
by an assignment, or it is copied or made smaller; so it is at most the bound or some count that
the text assigns to the same lock.

`Holdings.Within` says so of holdings, for any way to permit counts. It holds of a draft if it
holds of all that the draft has or can take up (`Draft.Within`), which every effect keeps that
makes no count but what is permitted (`Draft.Within.meet`). From there it passes to the whole
chain of the successor, and from step to step (`Trace.within_of_replay`). Where smaller counts are
permitted with larger ones, only acquisitions and assignments have to be looked at
(`Effect.Within.respects`).
-/

namespace HeldLocks

/-- All counts of held locks are permitted. -/
def Holdings.Within (Permitted : Lock → Nat → Prop) (holdings : Holdings) : Prop :=
  ∀ lock, 0 < holdings.count lock → Permitted lock (holdings.count lock)

/-- All counts are permitted, in a state and in all that it returns to. -/
def State.Within (Permitted : Lock → Nat → Prop) (state : State) : Prop :=
  ∀ snapshot ∈ state.chain, snapshot.holdings.Within Permitted

/-- Whether an effect brings its lock from a count that is permitted to no other that is not. -/
def Effect.Respects (Permitted : Lock → Nat → Prop) (effect : Effect) : Prop :=
  ∀ lock, effect.lock? = some lock → ∀ held, (0 < held → Permitted lock held) →
    0 < effect.recount held → Permitted lock (effect.recount held)

/-- Whether an effect, by itself, brings no lock to a count that is not permitted. An acquisition
must be bounded, and brings its lock to any count up to the bound. -/
def Effect.Within (Permitted : Lock → Nat → Prop) : Effect → Prop
  | acquire lock bound => 0 < bound ∧ ∀ count : Nat, count ≤ bound → Permitted lock count
  | assign lock count => Permitted lock count.toNat
  | _ => True

/-- All counts that a draft has or can take up are permitted. -/
structure Draft.Within (Permitted : Lock → Nat → Prop) (draft : Draft) : Prop where
  /-- The holdings so far. -/
  holdings : draft.holdings.Within Permitted
  /-- The state that the work started from, with what it returns to. -/
  origin : draft.origin.Within Permitted
  /-- What the successor returns to. -/
  saved : ∀ snapshot ∈ draft.saved, snapshot.holdings.Within Permitted

/-- Where smaller counts are permitted with larger ones, an effect respects what is permitted if it
makes no count by itself but what is. -/
theorem Effect.Within.respects {Permitted : Lock → Nat → Prop}
    (smaller : ∀ lock fewer count, fewer ≤ count → Permitted lock count → Permitted lock fewer)
    {effect : Effect} (within : effect.Within Permitted) : effect.Respects Permitted := by
  intro lock about held permitted remains
  cases effect with
  | acquire target bound =>
    obtain rfl : target = lock := Option.some.inj about
    obtain ⟨positive, upTo⟩ := within
    by_cases saturated : 0 < bound ∧ bound ≤ held
    · simp only [Effect.recount, if_pos saturated] at remains ⊢
      exact permitted remains
    · simp only [Effect.recount, if_neg saturated]
      exact upTo _ (by omega)
  | release target =>
    obtain rfl : target = lock := Option.some.inj about
    simp only [Effect.recount] at remains ⊢
    exact smaller _ _ held (Nat.sub_le held 1) (permitted (by omega))
  | forget target => exact absurd remains (Nat.lt_irrefl 0)
  | assign target count =>
    obtain rfl : target = lock := Option.some.inj about
    exact within
  | restore target | check target count expected => exact permitted remains
  | restoreAll | forgetAll | save => cases about

/-- Where what is permitted is to count at most so much, a lock that is not held does too. -/
theorem Holdings.Within.count_le {holdings : Holdings} {most : Nat}
    (within : holdings.Within fun _ count => count ≤ most) (lock : Lock) :
    holdings.count lock ≤ most := by
  rcases Nat.eq_zero_or_pos (holdings.count lock) with zero | held
  · rw [zero]
    exact Nat.zero_le most
  · exact within lock held

/-- A state without locks is canonical. -/
theorem State.canonical_empty (serial : Nat) : (State.empty serial).Canonical := by
  intro snapshot member
  obtain rfl := List.mem_singleton.mp member
  exact Holdings.Canonical.empty

section Permitted

variable {Permitted : Lock → Nat → Prop}

/-- The state without locks is within whatever is permitted. -/
protected theorem State.Within.empty (serial : Nat) : (State.empty serial).Within Permitted := by
  intro snapshot member lock held
  obtain rfl := List.mem_singleton.mp member
  exact absurd held (Nat.lt_irrefl 0)

namespace Draft.Within

/-- A fresh draft keeps within what its state keeps within. -/
protected theorem ofState {state : State} (within : state.Within Permitted) :
    (ofState state).Within Permitted where
  holdings := within state.toSnapshot List.mem_cons_self
  origin := within
  saved := fun snapshot member => within snapshot (List.mem_cons_of_mem _ member)

variable {draft : Draft} (within : draft.Within Permitted)

include within

/-- The holdings stay within what is permitted: a local effect recounts its lock, and all others
take counts from holdings that are within it. -/
theorem holdings_meet {effect : Effect} (respects : effect.Respects Permitted) :
    (draft.meet effect).holdings.Within Permitted := by
  have recounted (isLocal : effect.Local) : (draft.meet effect).holdings.Within Permitted := by
    intro tested
    obtain ⟨lock, about⟩ := isLocal.lock?
    rw [count_meet draft isLocal, Effect.recountAt_of_about about]
    by_cases here : tested = lock
    · subst here
      rw [if_pos rfl]
      exact respects tested about _ (within.holdings tested)
    · rw [if_neg here]
      exact within.holdings tested
  cases effect with
  | acquire lock bound | release lock | forget lock | assign lock count
  | check lock count expected => exact recounted trivial
  | restore lock =>
    change (draft.restore lock).holdings.Within Permitted
    intro tested
    rw [count_restore]
    split
    next here =>
      subst here
      split
      next => exact within.holdings tested
      next caller _ chain => exact within.saved caller (chain ▸ List.mem_cons_self) tested
    next => exact within.holdings tested
  | restoreAll =>
    change draft.restoreAll.holdings.Within Permitted
    rw [Draft.restoreAll]
    split
    next => exact within.holdings
    next caller _ chain => exact within.saved caller (chain ▸ List.mem_cons_self)
  | forgetAll => exact fun lock held => absurd held (Nat.lt_irrefl 0)
  | save => exact within.holdings

/-- Besides the holdings that it leaves, an effect has a draft take up nothing but what is within
what is permitted. -/
theorem meet_of_holdings {effect : Effect}
    (holdings : (draft.meet effect).holdings.Within Permitted) :
    (draft.meet effect).Within Permitted where
  holdings := holdings
  origin := by
    rw [origin_meet]
    exact within.origin
  saved := by
    rw [saved_meet]
    split
    · exact within.origin
    · exact within.saved

/-- An effect that makes no count but what is permitted keeps a draft within it. -/
protected theorem meet {effect : Effect} (respects : effect.Respects Permitted) :
    (draft.meet effect).Within Permitted :=
  within.meet_of_holdings (within.holdings_meet respects)

end Draft.Within

/-- A batch of such effects leads from a state within what is permitted to another. -/
theorem State.Within.after {state next : State} (within : state.Within Permitted) (fresh : Nat)
    {effects : List Effect} (respected : ∀ effect ∈ effects, effect.Respects Permitted)
    (ran : state.after fresh effects = .ok (some next)) : next.Within Permitted := by
  obtain rfl := State.successor_of_after state next fresh effects ran
  have final : ((Draft.ofState state).meetAll effects).Within Permitted := by
    apply Draft.meetAll_keeps (Draft.Within Permitted) _ _ (.ofState within)
    intro reached reachedWithin effect member
    exact reachedWithin.meet (respected effect member)
  exact Draft.forall_chain_successor (Holdings.Within Permitted) _ fresh final.holdings
    final.origin final.saved

end Permitted

namespace Trace

/-- In every state that a replay from the state without locks leads to, at every level, the counts
are permitted if all effects respect that. -/
theorem within_of_replay {Permitted : Lock → Nat → Prop} {steps : List Step}
    (respected : ∀ step ∈ steps, ∀ effect ∈ step.effects, effect.Respects Permitted)
    {serial fresh : Nat} {outcomes : List (Option State)}
    (ran : replay fresh (.empty serial) steps = .ok outcomes) {state : State}
    (reached : some state ∈ outcomes) : state.Canonical ∧ state.Within Permitted := by
  refine replay_keeps_each (fun state => state.Canonical ∧ state.Within Permitted) steps
    ?_ fresh (.empty serial) ?_ outcomes ran reached
  · rintro step formed before after number ⟨canonical, within⟩ stepped
    exact ⟨State.canonical_after canonical number _ stepped,
      within.after number (respected step formed) stepped⟩
  · exact ⟨State.canonical_empty serial, State.Within.empty serial⟩

/-- What a text permits: counts up to the bound for the locks that it acquires, and counts up to
what it assigns. -/
def Permits (bound : Int) (text : String) (lock : Lock) (count : Nat) : Prop :=
  Asks bound text (.effect (.acquire lock bound)) ∧ count ≤ bound ∨
    ∃ assigned : Nat, Asks bound text (.effect (.assign lock assigned)) ∧ count ≤ assigned

/-- What permits a count permits every smaller one. -/
theorem Permits.smaller {bound : Int} {text : String} (lock : Lock) (fewer count : Nat)
    (fewerThan : fewer ≤ count) (permits : Permits bound text lock count) :
    Permits bound text lock fewer := by
  rcases permits with ⟨acquired, most⟩ | ⟨assigned, asked, most⟩
  · exact Or.inl ⟨acquired, by omega⟩
  · exact Or.inr ⟨assigned, asked, Nat.le_trans fewerThan most⟩

/-- The effects of a text make no counts but what it permits. -/
theorem within_of_parse {bound : Int} (positive : 0 < bound) {text : String} {steps : List Step}
    (read : parse bound text = .ok steps) :
    ∀ step ∈ steps, ∀ effect ∈ step.effects, effect.Within (Permits bound text) := by
  intro step formed effect member
  have asked := (asks_iff_of_parse read effect).mpr ⟨step, formed, member⟩
  cases effect with
  | acquire lock carried =>
    obtain rfl := asked.carried_eq
    exact ⟨positive, fun count most => Or.inl ⟨asked, most⟩⟩
  | assign lock count =>
    have nonneg : 0 ≤ count := valid_of_parse read step formed _ member
    rw [← Int.toNat_of_nonneg nonneg] at asked
    exact Or.inr ⟨count.toNat, asked, Nat.le_refl _⟩
  | _ => trivial

/-- In every state that the replay of a text leads to, at every level, the counts are permitted. -/
theorem permitted_of_replay {bound : Int} (positive : 0 < bound) {text : String}
    {steps : List Step} (read : parse bound text = .ok steps) {serial fresh : Nat}
    {outcomes : List (Option State)} (ran : replay fresh (.empty serial) steps = .ok outcomes)
    {state : State} (reached : some state ∈ outcomes) :
    state.Canonical ∧ state.Within (Permits bound text) :=
  within_of_replay (fun step formed effect member =>
    (within_of_parse positive read step formed effect member).respects Permits.smaller) ran reached

/-- A positive bound limits all counts. Let a text be read with a positive bound and replayed from
the state without locks. The replay is not refused, and whatever state it leads to, at every level
of its chain a lock counts at most the bound, or at most what the text assigns to it somewhere,
and no lock is held that the text neither acquires nor assigns.

Proof: by induction on the steps. In a step the same is kept for all that the draft has or can
take up, which covers what restoring and restoring all copy. -/
theorem counts_limited_by_text {bound : Int} (positive : 0 < bound) {text : String}
    {steps : List Step} (read : parse bound text = .ok steps) (serial fresh : Nat) :
    ∃ outcomes, replay fresh (.empty serial) steps = .ok outcomes ∧
      ∀ state, some state ∈ outcomes → ∀ snapshot ∈ state.chain, ∀ lock,
        (snapshot.holdings.count lock ≤ bound ∨
          ∃ assigned : Nat, Asks bound text (.effect (.assign lock assigned)) ∧
            snapshot.holdings.count lock ≤ assigned) ∧
        (lock ∈ snapshot.holdings → Asks bound text (.effect (.acquire lock bound)) ∨
          ∃ assigned : Nat, Asks bound text (.effect (.assign lock assigned))) := by
  obtain ⟨outcomes, ran⟩ := replay_of_valid fresh (.empty serial) (valid_of_parse read)
  refine ⟨outcomes, ran, ?_⟩
  intro state reached snapshot member lock
  obtain ⟨canonical, within⟩ := permitted_of_replay positive read ran reached
  have permits := within snapshot member lock
  constructor
  · rcases Nat.eq_zero_or_pos (snapshot.holdings.count lock) with zero | held
    · exact Or.inl (by omega)
    · exact (permits held).imp_left And.right
  · intro isHeld
    rcases permits (((canonical snapshot member).mem_iff_count_pos lock).mp isHeld) with
      ⟨acquired, _⟩ | ⟨assigned, asked, _⟩
    · exact Or.inl acquired
    · exact Or.inr ⟨assigned, asked⟩

/-- With the bound one a lock is still assigned the count three. It is saved, forgotten and
restored with all others, and the bound stops a further acquisition of it and the second of
another lock. -/
theorem assigned_count_passes_bound :
    ∃ outcomes, replay 1 (.empty 0)
        [⟨3, [.assign (.ofName "a") 3, .acquire (.ofName "a") 1]⟩, ⟨6, [.save, .forgetAll]⟩,
          ⟨9, [.restoreAll, .acquire (.ofName "b") 1, .acquire (.ofName "b") 1]⟩] = .ok outcomes ∧
      outcomes.map (Option.map State.levels) =
        [some [⟨[(.ofName "a", 3)]⟩], some [.empty, ⟨[(.ofName "a", 3)]⟩],
          some [⟨[(.ofName "a", 3), (.ofName "b", 1)]⟩, ⟨[(.ofName "a", 3)]⟩]] ∧
      ∀ state, some state ∈ outcomes → ∀ snapshot ∈ state.chain,
        (snapshot.holdings.count (.ofName "b") : Int) ≤ 1 := by
  have read : parse 1 ("set a 3\nacquire a\ncommit\nsave-state\nreset-all\ncommit\n" ++
      "restore-all\nacquire b\nacquire b") =
        .ok [⟨3, [.assign (.ofName "a") 3, .acquire (.ofName "a") 1]⟩, ⟨6, [.save, .forgetAll]⟩,
          ⟨9, [.restoreAll, .acquire (.ofName "b") 1, .acquire (.ofName "b") 1]⟩] := rfl
  obtain ⟨outcomes, ran, limited⟩ := counts_limited_by_text (by decide : (0 : Int) < 1) read 0 1
  refine ⟨outcomes, ran, ?_, ?_⟩
  · obtain rfl := Except.ok.inj (Eq.trans (by rfl) ran)
    rfl
  · intro state reached snapshot member
    refine ((limited state reached snapshot member (.ofName "b")).1).resolve_right ?_
    rintro ⟨assigned, asked, _⟩
    have listed := (asks_iff_of_parse read _).mp asked
    simp [Lock.ofName] at listed

end Trace

end HeldLocks
