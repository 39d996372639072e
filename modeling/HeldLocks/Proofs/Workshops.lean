import HeldLocks.Proofs.Sessions

/-!
# Workshops

A command works on one draft from its opening to its end. A program need not: it may have
several drafts open, change them in turns, let commands be answered in between, and build a
draft while others wait whose roots are only then made. A workshop is a session with the
drafts that are open beside it, and `Workshop.Step` is one thing done to it.

What sessions keep, workshops keep. Their session is well formed and all their drafts are
grounded in it (`Workshop.Reachable.sound`). Commands and builds only add to the record, which
is why the drafts that are not worked on stay grounded.
-/

namespace HeldLocks

/-! ## The record grows -/

namespace Session

/-- Recording states drops none. -/
theorem subset_recordAll (session : Session) (outcomes : List (Option State)) :
    session.states ⊆ (session.recordAll outcomes).states :=
  List.foldlRecOn (motive := fun later => session.states ⊆ later.states) _ record
    (List.Subset.refl _)
    fun later grown state _ => List.Subset.trans grown (subset_record later state)

/-- Neither does working on a draft. -/
theorem subset_act (session : Session) (draft : Draft) (actions : List Action) :
    session.states ⊆ (session.act draft actions).2.2.states := by
  induction actions generalizing session draft with
  | nil => exact List.Subset.refl _
  | cons action rest inductionHypothesis =>
    cases action with
    | count lock => exact inductionHypothesis session draft
    | edit name =>
      simp only [act]
      split
      · exact List.Subset.refl _
      · split
        · exact List.Subset.refl _
        · exact inductionHypothesis session _
    | effect effect =>
      simp only [act]
      split
      · exact List.Subset.refl _
      · exact inductionHypothesis session _
    | build =>
      simp only [act]
      split
      · exact List.Subset.refl _
      · exact List.Subset.trans (subset_recordAll session _) (inductionHypothesis _ _)

/-- No answer takes a state off the record. -/
theorem subset_answer (session : Session) (command : Command) :
    session.states ⊆ (session.answer command).2.states := by
  have unmoved : session.states ⊆ session.states := List.Subset.refl _
  have named := session.withState_keeps (fun later => session.states ⊆ later.states)
  cases command with
  | empty => exact subset_record session _
  | draft origin actions =>
    refine named origin _ unmoved fun state _ => ?_
    have grown := subset_act session (.ofState state) (Action.complete actions)
    rw [draftFrom]
    split <;> simp_all
  | effects origin effects =>
    refine named origin _ unmoved fun state _ => ?_
    rw [effectsFrom]
    split
    · exact unmoved
    · exact subset_recordAll session _
  | trace origin text bound =>
    refine named origin _ unmoved fun state _ => ?_
    rw [traceFrom]
    split
    · exact unmoved
    · split
      · exact unmoved
      · exact subset_recordAll session _
  | reduce caller block reduction =>
    exact named caller _ unmoved fun _ _ => subset_record session _
  | expand caller block final reduction =>
    exact named caller _ unmoved fun _ _ => named final _ unmoved fun _ _ =>
      subset_record session _
  | difference source target =>
    refine named source _ unmoved fun state _ => named target _ unmoved fun other _ => ?_
    simp only [differenceFrom]
    split
    · exact unmoved
    · exact subset_recordAll session _
  | compare left right =>
    exact named left _ unmoved fun _ _ => named right _ unmoved fun _ _ => unmoved
  | query state locks => exact named state _ unmoved fun _ _ => unmoved
  | describe state => exact named state _ unmoved fun _ _ => unmoved
  | sort => exact unmoved

end Session

/-! ## What is done in a workshop -/

/-- A session with the drafts that are open beside it. -/
structure Workshop where
  /-- The states made so far. -/
  session : Session
  /-- The drafts that were opened, those that have been built among them. -/
  drafts : List Draft

namespace Workshop

/-- The workshop in which nothing has been done. -/
def start : Workshop := ⟨.start, []⟩

/-- One thing done in a workshop. -/
inductive Step : Workshop → Workshop → Prop where
  /-- A command is answered. -/
  | answer (session : Session) (drafts : List Draft) (command : Command) :
    Step ⟨session, drafts⟩ ⟨(session.answer command).2, drafts⟩
  /-- A draft of a recorded state is opened. -/
  | opening {session : Session} (drafts : List Draft) {state : State}
    (made : state ∈ session.states) : Step ⟨session, drafts⟩ ⟨session, .ofState state :: drafts⟩
  /-- A draft accepts an edit, which may look at any recorded state. -/
  | edit {session : Session} (earlier later : List Draft) {draft next : Draft}
    (edit : Edit State) (roots : ∀ root ∈ edit.root?, root ∈ session.states)
    (accepted : draft.edit edit = .ok next) :
    Step ⟨session, earlier ++ draft :: later⟩ ⟨session, earlier ++ next :: later⟩
  /-- A draft accepts an effect. -/
  | effect {session : Session} (earlier later : List Draft) {draft next : Draft}
    (effect : Effect) (accepted : draft.undergo effect = .ok next) :
    Step ⟨session, earlier ++ draft :: later⟩ ⟨session, earlier ++ next :: later⟩
  /-- A draft is built, and the state it becomes is recorded. -/
  | build {session : Session} (earlier later : List Draft) {draft finished : Draft}
    {outcome : Option State} (ran : draft.build session.fresh = .ok (outcome, finished)) :
    Step ⟨session, earlier ++ draft :: later⟩
      ⟨session.recordAll [outcome], earlier ++ finished :: later⟩

/-- The workshops that steps lead to. -/
inductive Reachable : Workshop → Prop where
  | start : Reachable start
  | next {workshop later : Workshop} (reachable : Reachable workshop)
    (step : Step workshop later) : Reachable later

/-- Every session that commands lead to is that of a workshop. -/
theorem reachable_of_session {session : Session} (reachable : session.Reachable) :
    Reachable ⟨session, []⟩ :=
  @Session.Reachable.induction (fun session => Reachable ⟨session, []⟩) .start
    (fun session command kept => kept.next (.answer session [] command)) session reachable

/-! ## What workshops keep -/

/-- What every workshop keeps. -/
structure Sound (workshop : Workshop) : Prop where
  /-- The session is well formed. -/
  wellFormed : workshop.session.WellFormed
  /-- Every draft is grounded in it. -/
  grounded : ∀ draft ∈ workshop.drafts, workshop.session.Grounds draft

/-- If the record only grows, work on one draft keeps a workshop sound as long as that draft
stays grounded. -/
theorem Sound.work {session later : Session} {before after : List Draft} {draft next : Draft}
    (sound : Sound ⟨session, before ++ draft :: after⟩) (grown : session.states ⊆ later.states)
    (wellFormed : later.WellFormed) (grounds : later.Grounds next) :
    Sound ⟨later, before ++ next :: after⟩ where
  wellFormed := wellFormed
  grounded := by
    intro other member
    rcases List.mem_append.mp member with inFront | member
    · exact (sound.grounded other (List.mem_append_left _ inFront)).mono grown
    · rcases List.mem_cons.mp member with rfl | behind
      · exact grounds
      · have waiting := List.mem_append_right before (List.mem_cons_of_mem draft behind)
        exact (sound.grounded other waiting).mono grown

/-- Every step keeps a workshop sound. -/
theorem Step.sound {workshop later : Workshop} (step : Step workshop later)
    (sound : workshop.Sound) : later.Sound := by
  have ofWorked : ∀ {session : Session} {before after : List Draft} {draft : Draft},
      Sound ⟨session, before ++ draft :: after⟩ → session.Grounds draft := fun sound =>
    sound.grounded _ (List.mem_append_right _ List.mem_cons_self)
  cases step with
  | answer session drafts command =>
    refine ⟨sound.wellFormed.answer command, ?_⟩
    exact fun draft member =>
      (sound.grounded draft member).mono (session.subset_answer command)
  | opening drafts made =>
    refine ⟨sound.wellFormed, List.forall_mem_cons.mpr ⟨?_, sound.grounded⟩⟩
    exact sound.wellFormed.grounds_ofState made
  | edit earlier later edit roots accepted =>
    obtain rfl := Draft.change_of_edit _ _ edit accepted
    apply sound.work (List.Subset.refl _) sound.wellFormed
    exact sound.wellFormed.grounds_change (ofWorked sound) edit roots
  | effect earlier later effect accepted =>
    obtain rfl := Draft.meet_of_undergo _ _ effect accepted
    apply sound.work (List.Subset.refl _) sound.wellFormed
    exact sound.wellFormed.grounds_meet (ofWorked sound) effect
  | build earlier later ran =>
    obtain ⟨kept, grounds⟩ := sound.wellFormed.record_build (ofWorked sound) ran
    exact sound.work (Session.subset_recordAll _ _) kept grounds

/-- Every workshop that steps lead to is sound. -/
theorem Reachable.sound {workshop : Workshop} (reachable : workshop.Reachable) :
    workshop.Sound := by
  induction reachable with
  | start => exact ⟨Session.wellFormed_start, fun _ member => absurd member List.not_mem_nil⟩
  | next _ step inductionHypothesis => exact step.sound inductionHypothesis

end Workshop

end HeldLocks
