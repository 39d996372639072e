import HeldLocks.Proofs.Interchange

/-!
# The stages of a draft

A draft goes through its stages in one direction. As long as it is open it does whatever is asked
of it, by edits and by effects in any order, and refuses nothing but a negative count. Once
something has ruled the path out, no later request makes it feasible again. And with the first
build the work is over: every edit is refused from then on, and so is every further build.

What rules a path out is decided at the moment at which it is asked. An edit may say so outright,
and a check does if its test, on the count that all earlier requests have left, does not come out
as expected (`Draft.RuledOut`). Nothing before or after matters, and so the first build tells from
the requests whether there is a successor (`Draft.status_grantAll_eq_infeasible_iff`).

A built draft is left as it is by all that is done to it. An effect may ask nothing of it, a
saturated acquisition or a check that passes, and such an effect is not refused
(`Draft.undergo_of_built`). So no actions on a built draft make a state or change the draft
(`Session.act_of_built`). What such an effect finds there depends on the build: a new state has
taken the holdings out of the draft, and otherwise they are still in it
(`Draft.holdings_finished`).
-/

namespace HeldLocks

namespace Draft

/-- What is asked of a draft before it is built: an edit, or an effect, which may come to one. -/
inductive Request where
  /-- Make an edit. -/
  | edit (edit : Edit State)
  /-- Let an effect act. -/
  | effect (effect : Effect)

/-- Whether a request is to give a lock a negative count. -/
def Request.Negative : Request → Prop
  | edit (.assign _ count) | effect (.assign _ count) => count < 0
  | _ => False

/-- Ask something of a draft. -/
def ask (draft : Draft) : Request → Except Misuse Draft
  | .edit edit => draft.edit edit
  | .effect effect => draft.undergo effect

/-- Ask one thing after the other, up to the first that is refused. -/
def askAll (draft : Draft) (requests : List Request) : Except Misuse Draft :=
  requests.foldlM ask draft

/-- Whether a request, made of this draft, rules the path out: it says so, or it is a check whose
test of the present count does not come out as expected. -/
def RulesOut (draft : Draft) : Request → Prop
  | .edit edit => edit = .abort
  | .effect (.check lock count expected) =>
    decide ((draft.holdings.count lock : Int) = count) ≠ expected
  | .effect _ => False

/-- Whether one of some requests, made of the draft that those before it lead to, rules the path
out. -/
def RuledOut (draft : Draft) (requests : List Request) : Prop :=
  ∃ earlier request later met, requests = earlier ++ request :: later ∧
    draft.askAll earlier = .ok met ∧ met.RulesOut request

/-! ## Before the build -/

/-- What a request does to a draft that does not refuse it. -/
def grant (draft : Draft) : Request → Draft
  | .edit edit => draft.change edit
  | .effect effect => draft.meet effect

/-- What requests do to a draft that refuses none of them. -/
def grantAll (draft : Draft) (requests : List Request) : Draft := requests.foldl grant draft

/-- An open draft grants every request but one for a negative count. -/
theorem ask_of_nonnegative (draft : Draft) (request : Request) (unbuilt : draft.status ≠ .built)
    (nonnegative : ¬ request.Negative) : draft.ask request = .ok (draft.grant request) := by
  cases request with
  | edit edit =>
    refine draft.edit_of_valid edit unbuilt ?_
    cases edit with
    | assign lock count => exact Int.not_lt.mp nonnegative
    | _ => trivial
  | effect effect =>
    refine draft.undergo_of_valid effect unbuilt ?_
    cases effect with
    | assign lock count => exact Int.not_lt.mp nonnegative
    | _ => trivial

/-- A request for a negative count is refused for that reason. -/
theorem ask_of_negative (draft : Draft) (request : Request) (unbuilt : draft.status ≠ .built)
    (negative : request.Negative) : draft.ask request = .error .negativeCount := by
  cases request with
  | edit edit =>
    refine draft.edit_of_invalid edit unbuilt ?_
    cases edit with
    | assign lock count => exact Int.not_le.mpr negative
    | _ => exact negative.elim
  | effect effect =>
    refine draft.undergo_of_invalid effect unbuilt ?_
    cases effect with
    | assign lock count => exact Int.not_le.mpr negative
    | _ => exact negative.elim

/-- The stage after a granted request: no other than before, unless the request rules the path
out. -/
theorem status_grant (draft : Draft) (request : Request) :
    (draft.RulesOut request → (draft.grant request).status = .infeasible) ∧
      (¬ draft.RulesOut request → (draft.grant request).status = draft.status) := by
  cases request with
  | edit edit =>
    simp only [RulesOut, grant, status_change]
    cases edit <;> simp
  | effect effect =>
    cases effect with
    | check lock count expected =>
      simp only [RulesOut, grant, meet_check]
      constructor
      · intro failed
        rw [if_neg failed, status_change]
      · intro passed
        rw [if_pos (Decidable.of_not_not passed)]
    | acquire lock bound =>
      refine ⟨False.elim, fun _ => ?_⟩
      simp only [grant, meet_acquire]
      split
      · rfl
      · rw [status_change]
    | _ =>
      refine ⟨False.elim, fun _ => ?_⟩
      simp only [grant, meet, Effect.edit?, status_change]

/-- No request builds. -/
theorem status_grant_ne_built (draft : Draft) (request : Request)
    (unbuilt : draft.status ≠ .built) : (draft.grant request).status ≠ .built := by
  by_cases rulesOut : draft.RulesOut request
  · rw [(draft.status_grant request).1 rulesOut]
    exact Status.noConfusion
  · rw [(draft.status_grant request).2 rulesOut]
    exact unbuilt

/-- An open draft grants requests of which none is for a negative count. -/
theorem askAll_of_nonnegative (draft : Draft) {requests : List Request}
    (unbuilt : draft.status ≠ .built) (nonnegative : ∀ request ∈ requests, ¬ request.Negative) :
    draft.askAll requests = .ok (draft.grantAll requests) :=
  foldlM_of_valid status_grant_ne_built ask_of_nonnegative draft unbuilt nonnegative

/-- It refuses any others, and always for one reason. -/
theorem askAll_of_negative (draft : Draft) {requests : List Request}
    (unbuilt : draft.status ≠ .built) (negative : ∃ request ∈ requests, request.Negative) :
    draft.askAll requests = .error .negativeCount := by
  refine foldlM_of_invalid status_grant_ne_built ask_of_nonnegative ?_ draft unbuilt ?_
  · intro reached request stillUnbuilt isNegative
    exact reached.ask_of_negative request stillUnbuilt (Classical.not_not.mp isNegative)
  · obtain ⟨request, member, isNegative⟩ := negative
    exact fun none => none request member isNegative

/-- Requests are answered one by one, until one is refused. -/
theorem askAll_cons (draft : Draft) (request : Request) (rest : List Request) :
    draft.askAll (request :: rest) = (draft.ask request >>= fun next => next.askAll rest) :=
  List.foldlM_cons

/-- Without requests nothing is ruled out. -/
theorem not_ruledOut_nil (draft : Draft) : ¬ draft.RuledOut [] := by
  rintro ⟨earlier, request, later, met, split, _⟩
  exact List.append_ne_nil_of_right_ne_nil earlier (List.cons_ne_nil _ later) split.symm

/-- The first of some requests rules the path out, or leaves it to the others. -/
theorem ruledOut_cons (draft : Draft) (request : Request) (rest : List Request)
    (unbuilt : draft.status ≠ .built) (nonnegative : ¬ request.Negative) :
    draft.RuledOut (request :: rest) ↔
      draft.RulesOut request ∨ (draft.grant request).RuledOut rest := by
  have granted := ask_of_nonnegative draft request unbuilt nonnegative
  constructor
  · rintro ⟨earlier, decisive, later, met, split, ran, rulesOut⟩
    cases earlier with
    | nil =>
      obtain ⟨rfl, rfl⟩ := List.cons.inj split
      obtain rfl := Except.ok.inj ran
      exact Or.inl rulesOut
    | cons first others =>
      obtain ⟨rfl, rfl⟩ := List.cons.inj split
      rw [askAll_cons, granted] at ran
      exact Or.inr ⟨others, decisive, later, met, rfl, ran, rulesOut⟩
  · rintro (rulesOut | ⟨earlier, decisive, later, met, rfl, ran, rulesOut⟩)
    · exact ⟨[], request, rest, draft, rfl, rfl, rulesOut⟩
    · refine ⟨request :: earlier, decisive, later, met, rfl, ?_, rulesOut⟩
      rw [askAll_cons, granted]
      exact ran

/-- After some requests the path is ruled out exactly if it was before or one of them did it. -/
theorem status_grantAll_eq_infeasible_iff (draft : Draft) {requests : List Request}
    (unbuilt : draft.status ≠ .built) (nonnegative : ∀ request ∈ requests, ¬ request.Negative) :
    (draft.grantAll requests).status = .infeasible ↔
      draft.status = .infeasible ∨ draft.RuledOut requests := by
  induction requests generalizing draft with
  | nil => simp only [grantAll, List.foldl_nil, not_ruledOut_nil, or_false]
  | cons request rest inductionHypothesis =>
    obtain ⟨first, others⟩ := List.forall_mem_cons.mp nonnegative
    have here : (draft.grant request).status = .infeasible ↔
        draft.status = .infeasible ∨ draft.RulesOut request := by
      by_cases rulesOut : draft.RulesOut request
      · simp only [(draft.status_grant request).1 rulesOut, rulesOut, or_true]
      · simp only [(draft.status_grant request).2 rulesOut, rulesOut, or_false]
    rw [grantAll, List.foldl_cons, ← grantAll,
      inductionHypothesis _ (status_grant_ne_built draft request unbuilt) others, here,
      ruledOut_cons draft request rest unbuilt first, or_assoc]

/-- No list of requests builds. -/
theorem status_grantAll_ne_built (draft : Draft) (requests : List Request)
    (unbuilt : draft.status ≠ .built) : (draft.grantAll requests).status ≠ .built :=
  List.foldlRecOn requests grant unbuilt
    fun reached stillUnbuilt request _ => status_grant_ne_built reached request stillUnbuilt

/-! ## After the build -/

/-- What an open draft holds once it is built: nothing if a new state was made of it, and else
what it held. -/
theorem holdings_finished (draft : Draft) (unbuilt : draft.status ≠ .built) :
    (draft.status ≠ .infeasible → draft.unchanged = false → draft.finished.holdings = .empty) ∧
      (draft.status = .infeasible ∨ draft.unchanged = true →
        draft.finished.holdings = draft.holdings) := by
  rw [finished]
  cases stage : draft.status with
  | built => exact absurd stage unbuilt
  | infeasible => exact ⟨fun feasible => absurd rfl feasible, fun _ => rfl⟩
  | editing =>
    cases draft.unchanged with
    | true => exact ⟨fun _ changed => Bool.noConfusion changed, fun _ => rfl⟩
    | false => exact ⟨fun _ _ => rfl, fun kept => by rcases kept with kept | kept <;> cases kept⟩

/-- A built draft refuses every edit. -/
theorem edit_of_built (draft : Draft) (edit : Edit State) (built : draft.status = .built) :
    draft.edit edit = .error .usedAfterBuild :=
  if_pos built

/-- It refuses to be built again. -/
theorem build_of_built (draft : Draft) (fresh : Nat) (built : draft.status = .built) :
    draft.build fresh = .error .usedAfterBuild := by
  simp only [build, built]

/-- A built draft refuses every effect that asks something of it. -/
theorem undergo_of_built (draft : Draft) (effect : Effect) (built : draft.status = .built) :
    draft.undergo effect =
      if effect.edit? draft.holdings = none then .ok draft else .error .usedAfterBuild := by
  rw [undergo]
  cases effect.edit? draft.holdings with
  | none => rfl
  | some edit => exact draft.edit_of_built edit built

end Draft

namespace Session

/-- A change that did nothing is reported as one. -/
theorem changeReport_self (draft : Draft) : changeReport draft draft = .changed draft 0 0 := by
  simp only [changeReport, Nat.sub_self, List.take_zero, List.foldl_nil]

/-- Actions on a draft have come to nothing: no state was made, only a use after the build was
refused, and all reports are counts of the draft and changes that did nothing. -/
structure Idle (session : Session) (draft : Draft)
    (ending : List Report × DraftEnd × Session) : Prop where
  /-- No state was made. -/
  session : ending.2.2 = session
  /-- If an action was refused, then as a use after the build. -/
  refusal : ∀ misuse, ending.2.1 = .misused misuse → misuse = .usedAfterBuild
  /-- The draft was left as it is. -/
  reports : ∀ report ∈ ending.1,
    (∃ lock, report = .counted (draft.holdings.count lock)) ∨ report = .changed draft 0 0

/-- Actions on a built draft come to nothing, up to the first that is refused. -/
theorem act_of_built (session : Session) (draft : Draft) (built : draft.status = .built)
    (actions : List Action) : session.Idle draft (session.act draft actions) := by
  have refused : session.Idle draft ([], .misused .usedAfterBuild, session) :=
    ⟨rfl, fun misuse same => (DraftEnd.misused.inj same).symm, List.forall_mem_nil _⟩
  induction actions with
  | nil => exact ⟨rfl, fun misuse ended => DraftEnd.noConfusion ended, List.forall_mem_nil _⟩
  | cons action rest inductionHypothesis =>
    obtain ⟨kept, ended, reported⟩ := inductionHypothesis
    cases action with
    | count lock =>
      exact ⟨kept, ended, List.forall_mem_cons.mpr ⟨Or.inl ⟨lock, rfl⟩, reported⟩⟩
    | build =>
      simp only [act, draft.build_of_built session.fresh built]
      exact refused
    | edit name =>
      simp only [act]
      cases name.resolve? session.find? with
      | none => exact ⟨rfl, fun misuse ended => DraftEnd.noConfusion ended, List.forall_mem_nil _⟩
      | some edit =>
        simp only [draft.edit_of_built edit built]
        exact refused
    | effect effect =>
      simp only [act, draft.undergo_of_built effect built]
      by_cases asksNothing : effect.edit? draft.holdings = none
      · simp only [asksNothing, if_true, changeReport_self]
        exact ⟨kept, ended, List.forall_mem_cons.mpr ⟨Or.inr rfl, reported⟩⟩
      · simp only [asksNothing, if_false]
        exact refused

/-- A draft serves until it is built, and only once. Whatever is asked of a fresh draft, by edits
and effects in any order:

* It refuses the requests exactly if one of them is for a negative count, and for that reason.
* Otherwise it can be built, and there is no successor exactly if one of the requests ruled the
  path out at the moment at which it was made.
* A new state takes the holdings out of the draft, which then holds nothing. Without a successor,
  or if the successor is the state that the work started from, the draft still holds its locks.
* From then on every edit is refused, as a use after the build and not for its count, and so is
  every build and every effect that asks something of the draft. An effect that asks nothing leaves
  the draft as it is. All actions come to nothing.

Proof: a request leaves the stage alone unless it rules the path out, and then no later request
takes that back, by induction on the requests. -/
theorem draft_serves_once (origin : State) (requests : List Draft.Request) (fresh : Nat) :
    (∀ misuse, (Draft.ofState origin).askAll requests = .error misuse ↔
      misuse = .negativeCount ∧ ∃ request ∈ requests, request.Negative) ∧
    ∀ draft, (Draft.ofState origin).askAll requests = .ok draft →
      ∃ outcome finished, draft.build fresh = .ok (outcome, finished) ∧
        (outcome = none ↔ (Draft.ofState origin).RuledOut requests) ∧
        (outcome ≠ none → draft.unchanged = false → finished.holdings = .empty) ∧
        (outcome = none ∨ draft.unchanged = true → finished.holdings = draft.holdings) ∧
        (∀ edit, finished.edit edit = .error .usedAfterBuild) ∧
        (∀ next, finished.build next = .error .usedAfterBuild) ∧
        (∀ effect, finished.undergo effect =
          if effect.edit? finished.holdings = none then .ok finished
          else .error .usedAfterBuild) ∧
        ∀ (session : Session) actions, session.Idle finished (session.act finished actions) := by
  have unbuilt := origin.status_ofState
  by_cases negative : ∃ request ∈ requests, request.Negative
  · rw [Draft.askAll_of_negative _ unbuilt negative]
    constructor
    · intro misuse
      rw [Except.error.injEq, and_iff_left negative, eq_comm]
    · intro draft accepted
      cases accepted
  · have nonnegative : ∀ request ∈ requests, ¬ request.Negative :=
      fun request member isNegative => negative ⟨request, member, isNegative⟩
    rw [Draft.askAll_of_nonnegative _ unbuilt nonnegative]
    constructor
    · intro misuse
      simp only [reduceCtorEq, negative, and_false]
    · rintro draft ⟨⟩
      have stillOpen := Draft.status_grantAll_ne_built _ requests unbuilt
      have decided := Draft.status_grantAll_eq_infeasible_iff _ unbuilt nonnegative
      have noneIff := Draft.outcome_eq_none_iff
        ((Draft.ofState origin).grantAll requests) fresh
      obtain ⟨emptied, keptHoldings⟩ := Draft.holdings_finished _ stillOpen
      have closed := ((Draft.ofState origin).grantAll requests).status_finished
      refine ⟨_, _, Draft.build_of_unbuilt _ fresh stillOpen, ?_, ?_, ?_, ?_, ?_, ?_, ?_⟩
      · rw [noneIff, decided]
        exact or_iff_right Draft.Status.noConfusion
      · rw [ne_eq, noneIff]
        exact emptied
      · rw [noneIff]
        exact keptHoldings
      · exact fun edit => Draft.edit_of_built _ edit closed
      · exact fun next => Draft.build_of_built _ next closed
      · exact fun effect => Draft.undergo_of_built _ effect closed
      · exact fun session actions => session.act_of_built _ closed actions

/-- Two drafts after their builds. The first has acquired a lock once, and a new state was made of
it: a check for the count zero leaves it as it is, while a check for the count one is refused, as
is a build. The second draft has seen a check fail, and an assignment that would let it pass came
too late. There is no successor, and the count is still in the draft: a check for it leaves the
draft as it is, while an assignment of a negative count is refused as a use after the build. -/
theorem checks_after_build :
    (∃ draft state finished,
      (Draft.ofState (.empty 0)).askAll [.effect (.acquire (.ofName "a") 0)] = .ok draft ∧
        draft.build 1 = .ok (some state, finished) ∧ state.holdings = ⟨[(.ofName "a", 1)]⟩ ∧
        finished.undergo (.check (.ofName "a") 0 true) = .ok finished ∧
        finished.undergo (.check (.ofName "a") 1 true) = .error .usedAfterBuild ∧
        finished.build 2 = .error .usedAfterBuild) ∧
    ∃ draft finished,
      (Draft.ofState (.empty 0)).askAll
          [.effect (.acquire (.ofName "a") 0), .effect (.check (.ofName "a") 2 true),
            .edit (.assign (.ofName "a") 2)] = .ok draft ∧
        draft.build 1 = .ok (none, finished) ∧
        finished.undergo (.check (.ofName "a") 2 true) = .ok finished ∧
        finished.edit (.assign (.ofName "a") (-1)) = .error .usedAfterBuild := by
  constructor
  · obtain ⟨_, served⟩ := draft_serves_once (.empty 0) [.effect (.acquire (.ofName "a") 0)] 1
    obtain ⟨outcome, finished, built, _, emptied, _, _, builds, effects, _⟩ := served _ rfl
    obtain ⟨rfl, _⟩ := Prod.mk.inj (Except.ok.inj built)
    have nothing : finished.holdings = .empty := emptied (Option.some_ne_none _) rfl
    refine ⟨_, _, finished, rfl, built, rfl, ?_, ?_, builds 2⟩
    · rw [effects, nothing]
      rfl
    · rw [effects, nothing]
      rfl
  · obtain ⟨_, served⟩ := draft_serves_once (.empty 0)
      [.effect (.acquire (.ofName "a") 0), .effect (.check (.ofName "a") 2 true),
        .edit (.assign (.ofName "a") 2)] 1
    obtain ⟨outcome, finished, built, ruledOut, _, kept, edits, _, effects, _⟩ := served _ rfl
    have failed : outcome = none := ruledOut.mpr
      ⟨[.effect (.acquire (.ofName "a") 0)], .effect (.check (.ofName "a") 2 true),
        [.edit (.assign (.ofName "a") 2)], _, rfl, rfl,
        (by decide : decide ((1 : Int) = 2) ≠ true)⟩
    subst failed
    have held : finished.holdings = ⟨[(.ofName "a", 2)]⟩ := kept (Or.inl rfl)
    refine ⟨_, finished, rfl, built, ?_, edits _⟩
    rw [effects, held]
    rfl

end Session

end HeldLocks
