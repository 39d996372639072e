import HeldLocks.Proofs.Edits
import HeldLocks.Proofs.Replays
import HeldLocks.Proofs.RoundTrip

/-!
# The lifetime of a draft

A draft refuses what is done to it for two reasons: it has been built, or a negative count is
asked for. Neither can be brought about by a text. The counters of a text are not negative, and
every step of a replay works on a draft of its own, which is open as long as effects act on it
and is built once, after the last of them (`State.Builds`). A check that fails in the middle of a
step marks the draft, but does not close it, so the effects after the check are still accepted.

`Trace.Runs` says so of all steps of a replay, up to the first that rules the path out.
-/

namespace HeldLocks

namespace Draft

/-- Effects act on an open draft, one after the other. It accepts each, and is open after the
    last. -/
inductive Accepts : Draft → List Effect → Draft → Prop where
  | nothing {draft : Draft} (isOpen : draft.status ≠ .built) : draft.Accepts [] draft
  | next {draft reached final : Draft} {effect : Effect} {rest : List Effect}
    (isOpen : draft.status ≠ .built) (accepted : draft.undergo effect = .ok reached)
    (later : reached.Accepts rest final) : draft.Accepts (effect :: rest) final

/-- A draft that has accepted a batch is still open. -/
theorem Accepts.isOpen {draft final : Draft} {effects : List Effect}
    (accepts : draft.Accepts effects final) : final.status ≠ .built := by
  induction accepts with
  | nothing isOpen => exact isOpen
  | next _ _ _ inductionHypothesis => exact inductionHypothesis

/-- Effects that an open draft does not refuse are accepted one by one. -/
theorem accepts_of_undergoAll {draft final : Draft} {effects : List Effect}
    (isOpen : draft.status ≠ .built) (accepted : draft.undergoAll effects = .ok final) :
    draft.Accepts effects final := by
  induction effects generalizing draft with
  | nil =>
    obtain rfl := Except.ok.inj accepted
    exact .nothing isOpen
  | cons effect rest inductionHypothesis =>
    obtain ⟨reached, first, later⟩ := Trace.exists_of_bind_eq_ok _ _ _
      (List.foldlM_cons.symm.trans accepted)
    have stillOpen : reached.status ≠ .built := by
      obtain rfl := meet_of_undergo draft reached effect first
      exact status_meet_ne_built draft effect isOpen
    exact .next isOpen first (inductionHypothesis stillOpen later)

end Draft

/-- A batch of effects leads from a state to an outcome by way of one draft: a fresh one of that
    state accepts all of the effects, is built, and accepts nothing from then on. -/
def State.Builds (state : State) (fresh : Nat) (effects : List Effect)
    (outcome : Option State) : Prop :=
  ∃ draft finished, (Draft.ofState state).Accepts effects draft ∧
    draft.build fresh = .ok (outcome, finished) ∧ finished.status = .built

/-- A batch that has an outcome is accepted, and the outcome is built from it. -/
theorem State.builds_of_after {state : State} {fresh : Nat} {effects : List Effect}
    {outcome : Option State} (ran : state.after fresh effects = .ok outcome) :
    state.Builds fresh effects outcome := by
  obtain ⟨draft, accepted, building⟩ := Trace.exists_of_bind_eq_ok _ _ _ ran
  obtain ⟨⟨made, finished⟩, built, rest⟩ := Trace.exists_of_bind_eq_ok _ _ _ building
  obtain rfl := Except.ok.inj rest
  have accepts := Draft.accepts_of_undergoAll state.status_ofState accepted
  refine ⟨draft, finished, accepts, built, ?_⟩
  rw [Draft.build_of_unbuilt draft fresh accepts.isOpen] at built
  obtain ⟨_, rfl⟩ := Prod.mk.inj (Except.ok.inj built)
  exact draft.status_finished

namespace Trace

/-- Every step of a trace is taken with a draft of its own, up to the first that rules the path
    out, and each but the first starts from the state that the step before it has made. -/
inductive Runs : Nat → State → List Step → List (Option State) → Prop where
  | done (fresh : Nat) (state : State) : Runs fresh state [] []
  | ruledOut {fresh : Nat} {state : State} {step : Step} {rest : List Step}
    (builds : state.Builds fresh step.effects none) : Runs fresh state (step :: rest) [none]
  | goesOn {fresh : Nat} {state next : State} {step : Step} {rest : List Step}
    {later : List (Option State)} (builds : state.Builds fresh step.effects (some next))
    (remaining : Runs (next.nextFresh fresh) next rest later) :
    Runs fresh state (step :: rest) (some next :: later)

/-- A replay that is not refused takes its steps so. -/
theorem runs_of_replay {fresh : Nat} {state : State} {steps : List Step}
    {outcomes : List (Option State)} (ran : replay fresh state steps = .ok outcomes) :
    Runs fresh state steps outcomes := by
  induction steps generalizing fresh state outcomes with
  | nil =>
    obtain rfl := Except.ok.inj ran
    exact .done fresh state
  | cons step rest inductionHypothesis =>
    rcases replay_cons_cases ran with ⟨stepped, rfl⟩ | ⟨next, later, stepped, others, rfl⟩
    · exact .ruledOut (State.builds_of_after stepped)
    · exact .goesOn (State.builds_of_after stepped) (inductionHypothesis others)

end Trace

/-- An effect that can be written asks for no negative count. -/
theorem Effect.Representable.valid {bound : Int} {effect : Effect}
    (representable : effect.Representable bound) : effect.Valid := by
  cases effect with
  | assign lock count => exact representable.2.1
  | _ => trivial

namespace Trace

/-- The effects of a text that is read are valid. -/
theorem valid_of_parse {bound : Int} {text : String} {steps : List Step}
    (read : parse bound text = .ok steps) :
    ∀ step ∈ steps, ∀ effect ∈ step.effects, effect.Valid := by
  intro step member effect listed
  have representable := representable_of_parse bound text steps read step.effects
    (List.mem_map_of_mem member) effect listed
  exact representable.valid

/-- No text brings a misuse about. Whatever is read as a trace and replayed, in whatever session
    and from whatever state, a misuse is not the answer:

    * No text is read as an assignment of a negative count.
    * Every step of a replay has a draft of its own, which accepts all effects of the step, is
      built once after the last of them, and accepts nothing from then on.
    * Whatever effects an open draft accepts, they do not close it.

    Proof: what is read could be written, and only counters that are not negative can. So every
    effect is accepted by an open draft, and leaves it open. -/
theorem read_traces_never_misused (bound : Int) (text : String) :
    (∀ (session : Session) origin misuse,
      (session.answer (.trace origin text bound)).1 ≠ .misuse misuse) ∧
    (∀ steps, parse bound text = .ok steps →
      (∀ step ∈ steps, ∀ lock count, .assign lock count ∈ step.effects → 0 ≤ count) ∧
      ∀ fresh state, ∃ outcomes, replay fresh state steps = .ok outcomes ∧
        Runs fresh state steps outcomes) ∧
    ∀ (draft final : Draft) effects, draft.status ≠ .built →
      draft.undergoAll effects = .ok final → final.status ≠ .built := by
  refine ⟨?_, ?_, ?_⟩
  · intro session origin misuse answered
    rw [Session.answer, Session.withState] at answered
    split at answered
    next => cases answered
    next state found =>
      rw [Session.traceFrom] at answered
      split at answered
      next => cases answered
      next steps read =>
        obtain ⟨outcomes, ran⟩ := replay_of_valid session.fresh state (valid_of_parse read)
        rw [ran] at answered
        cases answered
  · intro steps read
    refine ⟨?_, ?_⟩
    · intro step member lock count assigned
      exact valid_of_parse read step member _ assigned
    · intro fresh state
      obtain ⟨outcomes, ran⟩ := replay_of_valid fresh state (valid_of_parse read)
      exact ⟨outcomes, ran, runs_of_replay ran⟩
  · intro draft final effects isOpen accepted
    exact (Draft.accepts_of_undergoAll isOpen accepted).isOpen

/-- A check fails in the middle of a step, and the effects after it are still accepted: an
    assignment of zero, written with a minus sign, and releases of a lock that is not held. -/
theorem failed_check_leaves_draft_open :
    ∃ steps, parse 2 "acquire a\ncommit\ncheck a 2 true\nset a -0\nrelease a\nsave-state" =
        .ok steps ∧
      Runs 1 (.empty 0) steps [some ⟨⟨1, ⟨[(.ofName "a", 1)]⟩⟩, []⟩, none] := by
  refine ⟨[⟨2, [.acquire (.ofName "a") 2]⟩, ⟨6, [.check (.ofName "a") 2 true,
    .assign (.ofName "a") 0, .release (.ofName "a"), .save]⟩], rfl, ?_⟩
  obtain ⟨_, replayed, _⟩ := read_traces_never_misused 2
    "acquire a\ncommit\ncheck a 2 true\nset a -0\nrelease a\nsave-state"
  obtain ⟨outcomes, ran, runs⟩ := (replayed _ rfl).2 1 (.empty 0)
  obtain rfl := Except.ok.inj (Eq.trans (by rfl) ran)
  exact runs

end Trace

end HeldLocks
