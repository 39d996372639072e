import HeldLocks.Trace.Basic
import Mathlib.Data.List.Basic

/-!
# How directives form steps

Steps are formed from the back: an effect joins the step that the directives after it begin with,
and starts one only where none follows (`stepsOf_effect_cases`). Seen from the front, steps have
the effects of their directives in order (`flatMap_stepsOf`), a step ends at every commit and where
everything does (`lines_stepsOf_concat`), and a step has the effects between the end of the step
before it and its own (`effects_stepsOf`).

Two laws say what steps do not depend on. Directives behind a commit form steps of their own,
whatever stands before it (`stepsOf_append`). And neither the numbers of the directives nor what
their effects are have a part in how they are put together (`stepsOf_map`).
-/

namespace HeldLocks.Trace

/-! ## Directives -/

/-- The effect that a directive asks for. A commit asks for none. -/
def Directive.effect? : Directive → Option Effect
  | .effect asked => some asked
  | .commit => none

/-- A directive with its effect, if it asks for one, changed. -/
def Directive.map (change : Effect → Effect) : Directive → Directive
  | .effect asked => .effect (change asked)
  | .commit => .commit

/-- A directive stays as it is if its effect does. -/
theorem Directive.map_id (directive : Directive) : directive.map id = directive := by
  cases directive <;> rfl

/-- The effects of numbered directives, in their order. -/
def effectsOf (directives : List (Nat × Directive)) : List Effect :=
  directives.filterMap fun numbered => numbered.2.effect?

/-- The numbers of the commits among numbered directives, in their order. -/
def commitLines (directives : List (Nat × Directive)) : List Nat :=
  (directives.filter fun numbered => numbered.2 = .commit).map Prod.fst

/-- The last directive, if there is one, is a commit. -/
def Settled (directives : List (Nat × Directive)) : Prop :=
  ∀ last ∈ directives.getLast?, last.2 = .commit

/-- The effects of some directives are those that stand in one of them. -/
theorem mem_effectsOf {effect : Effect} {directives : List (Nat × Directive)} :
    effect ∈ effectsOf directives ↔ ∃ line, (line, .effect effect) ∈ directives := by
  rw [effectsOf, List.mem_filterMap]
  constructor
  · rintro ⟨⟨line, directive⟩, listed, asked⟩
    cases directive with
    | effect own => exact ⟨line, Option.some.inj asked ▸ listed⟩
    | commit => cases asked
  · rintro ⟨line, listed⟩
    exact ⟨_, listed, rfl⟩

/-- What follows a directive is settled where the whole is. -/
theorem Settled.tail {first : Nat × Directive} {rest : List (Nat × Directive)}
    (settled : Settled (first :: rest)) : Settled rest := by
  intro last ends
  exact settled last (List.mem_getLast?_cons ends)

/-- Behind an effect, something settles it. -/
theorem Settled.ne_nil {line : Nat} {effect : Effect} {rest : List (Nat × Directive)}
    (settled : Settled ((line, .effect effect) :: rest)) : rest ≠ [] := by
  rintro rfl
  cases settled _ rfl

/-! ## Steps -/

/-- An effect is a step of its own if nothing follows it, and else it joins the step that comes
next. -/
theorem stepsOf_effect_cases (line : Nat) (effect : Effect) (rest : List (Nat × Directive)) :
    rest = [] ∧ stepsOf ((line, .effect effect) :: rest) = [⟨line, [effect]⟩] ∨
      ∃ step later, stepsOf rest = step :: later ∧
        stepsOf ((line, .effect effect) :: rest) =
          ⟨step.line, effect :: step.effects⟩ :: later := by
  rw [stepsOf]
  split
  next nothing => exact Or.inl ⟨(stepsOf_eq_nil_iff rest).mp nothing, rfl⟩
  next step later formed => exact Or.inr ⟨step, later, formed, rfl⟩

/-- Steps have the effects of their directives: all of them, each once, in their order. -/
theorem flatMap_stepsOf (directives : List (Nat × Directive)) :
    (stepsOf directives).flatMap Step.effects = effectsOf directives := by
  induction directives with
  | nil => rfl
  | cons first rest inductionHypothesis =>
    obtain ⟨line, _ | _⟩ := first
    case effect effect =>
      rcases stepsOf_effect_cases line effect rest with
        ⟨rfl, formed⟩ | ⟨step, later, formed, joined⟩
      · rw [formed]
        rfl
      · rw [joined, List.flatMap_cons, List.cons_append, ← List.flatMap_cons, ← formed,
          inductionHypothesis]
        rfl
    case commit => exact inductionHypothesis

/-- The effects of the steps are those of the directives. -/
theorem mem_stepsOf_iff (directives : List (Nat × Directive)) (effect : Effect) :
    (∃ step ∈ stepsOf directives, effect ∈ step.effects) ↔
      ∃ line, (line, .effect effect) ∈ directives := by
  rw [← mem_effectsOf, ← flatMap_stepsOf, List.mem_flatMap]

/-- Every step has the number of one of its directives, and steps keep the order of those. -/
theorem sublist_stepsOf (directives : List (Nat × Directive)) :
    ((stepsOf directives).map Step.line).Sublist (directives.map Prod.fst) := by
  induction directives with
  | nil => exact List.Sublist.refl _
  | cons first rest inductionHypothesis =>
    obtain ⟨line, _ | _⟩ := first
    case effect effect =>
      rcases stepsOf_effect_cases line effect rest with
        ⟨rfl, formed⟩ | ⟨step, later, formed, joined⟩
      · rw [formed]
        exact List.Sublist.refl _
      · rw [formed] at inductionHypothesis
        rw [joined]
        exact inductionHypothesis.cons line
    case commit => exact inductionHypothesis.cons_cons line

/-- Directives behind a commit form steps of their own. -/
theorem stepsOf_append {directives : List (Nat × Directive)} (settled : Settled directives)
    (more : List (Nat × Directive)) :
    stepsOf (directives ++ more) = stepsOf directives ++ stepsOf more := by
  induction directives with
  | nil => rfl
  | cons first rest inductionHypothesis =>
    have others := inductionHypothesis settled.tail
    obtain ⟨line, _ | _⟩ := first
    case effect effect =>
      rcases stepsOf_effect_cases line effect rest with
        ⟨nothing, _⟩ | ⟨step, later, formed, joined⟩
      · exact absurd nothing settled.ne_nil
      · rw [joined, List.cons_append, stepsOf, others, formed]
        rfl
    case commit => rw [List.cons_append, stepsOf, stepsOf, others, List.cons_append]

/-- How directives are put together into steps does not depend on their numbers, nor on what
their effects are. -/
theorem stepsOf_map (renumber : Nat → Nat) (change : Effect → Effect)
    (directives : List (Nat × Directive)) :
    stepsOf (directives.map fun numbered => (renumber numbered.1, numbered.2.map change)) =
      (stepsOf directives).map fun step => ⟨renumber step.line, step.effects.map change⟩ := by
  induction directives with
  | nil => rfl
  | cons first rest inductionHypothesis =>
    obtain ⟨line, _ | _⟩ := first
    case effect effect =>
      rw [List.map_cons, Directive.map, stepsOf, stepsOf, inductionHypothesis]
      cases stepsOf rest <;> rfl
    case commit =>
      rw [List.map_cons, Directive.map, stepsOf, stepsOf, inductionHypothesis]
      rfl

/-- All steps but the last end at the commits that have something behind them, and the last ends
where everything does. -/
theorem lines_stepsOf_concat (directives : List (Nat × Directive)) (last : Nat × Directive) :
    (stepsOf (directives ++ [last])).map Step.line = commitLines directives ++ [last.1] := by
  induction directives with
  | nil =>
    obtain ⟨line, _ | _⟩ := last
    case effect effect => rfl
    case commit => rfl
  | cons first rest inductionHypothesis =>
    obtain ⟨line, _ | _⟩ := first
    case effect effect =>
      rcases stepsOf_effect_cases line effect (rest ++ [last]) with
        ⟨nothing, _⟩ | ⟨step, later, formed, joined⟩
      · exact absurd nothing (List.concat_ne_nil last rest)
      · rw [formed] at inductionHypothesis
        rw [List.cons_append, joined]
        exact inductionHypothesis
    case commit =>
      rw [List.cons_append, stepsOf, List.map_cons, inductionHypothesis]
      rfl

/-- Where the last directive is a commit, steps end at commits. -/
theorem lines_stepsOf_of_settled {directives : List (Nat × Directive)}
    (settled : Settled directives) :
    (stepsOf directives).map Step.line = commitLines directives := by
  rcases List.eq_nil_or_concat' directives with rfl | ⟨front, ⟨last, directive⟩, rfl⟩
  · rfl
  · obtain rfl : directive = .commit := settled _ List.getLast?_concat
    rw [lines_stepsOf_concat]
    simp [commitLines]

/-- Where it is not, there is one step more, and it ends at the last directive. -/
theorem lines_stepsOf_of_unsettled {directives : List (Nat × Directive)}
    (unsettled : ¬ Settled directives) :
    ∃ last ∈ directives.getLast?,
      (stepsOf directives).map Step.line = commitLines directives ++ [last.1] := by
  rcases List.eq_nil_or_concat' directives with rfl | ⟨front, ⟨last, directive⟩, rfl⟩
  · exact absurd (by simp [Settled]) unsettled
  · cases directive with
    | commit => exact absurd (by simp [Settled]) unsettled
    | effect effect =>
      refine ⟨_, List.getLast?_concat, ?_⟩
      rw [lines_stepsOf_concat]
      simp [commitLines]

/-- The effects of the directives with numbers after those of some steps and up to a given one. -/
def effectsBetween (earlier : List Step) (line : Nat) (directives : List (Nat × Directive)) :
    List Effect :=
  effectsOf (directives.filter fun numbered =>
    (∀ previous ∈ earlier, previous.line < numbered.1) ∧ numbered.1 ≤ line)

/-- A directive that comes no later than an earlier step has no part in the one after it. -/
theorem effectsBetween_of_passed {earlier : List Step} {line : Nat} {first : Nat × Directive}
    {previous : Step} (member : previous ∈ earlier) (passed : first.1 ≤ previous.line)
    (rest : List (Nat × Directive)) :
    effectsBetween earlier line (first :: rest) = effectsBetween earlier line rest := by
  rw [effectsBetween, List.filter_cons_of_neg]
  · rfl
  · rw [decide_eq_true_iff]
    intro between
    have := between.1 previous member
    omega

/-- A step that ends before all directives does not matter. -/
theorem effectsBetween_cons {previous : Step} {directives : List (Nat × Directive)}
    (after : ∀ numbered ∈ directives, previous.line < numbered.1) (earlier : List Step)
    (line : Nat) :
    effectsBetween (previous :: earlier) line directives =
      effectsBetween earlier line directives := by
  rw [effectsBetween, effectsBetween]
  congr 1
  refine List.filter_congr ?_
  intro numbered listed
  simp [after numbered listed]

/-- A step that ends before all directives has no effects. -/
theorem effectsBetween_of_after {line : Nat} {directives : List (Nat × Directive)}
    (after : ∀ numbered ∈ directives, line < numbered.1) (earlier : List Step) :
    effectsBetween earlier line directives = [] := by
  rw [effectsBetween, List.filter_eq_nil_iff.mpr]
  · rfl
  · intro numbered listed
    have := after numbered listed
    simp only [decide_eq_true_eq]
    omega

/-- The effects of a step are those with numbers after the steps before it and up to its own, where
the numbers of the directives ascend. -/
theorem effects_stepsOf {directives : List (Nat × Directive)}
    (ascending : (directives.map Prod.fst).Pairwise (· < ·)) {earlier later : List Step}
    {step : Step} (formed : stepsOf directives = earlier ++ step :: later) :
    step.effects = effectsBetween earlier step.line directives := by
  induction directives generalizing earlier step with
  | nil => exact absurd formed.symm (by simp [stepsOf])
  | cons first rest inductionHypothesis =>
    rw [List.map_cons, List.pairwise_cons, List.forall_mem_map] at ascending
    obtain ⟨after, ascending⟩ := ascending
    obtain ⟨line, _ | _⟩ := first
    case effect effect =>
      rcases stepsOf_effect_cases line effect rest with
        ⟨rfl, alone⟩ | ⟨own, others, behind, joined⟩
      · rw [alone] at formed
        cases earlier with
        | nil =>
          obtain ⟨rfl, -⟩ := List.cons.inj formed
          simp [effectsBetween, effectsOf, Directive.effect?]
        | cons front middle => simp at formed
      · obtain ⟨numbered, listed, place⟩ := List.mem_map.mp
          ((sublist_stepsOf rest).subset (behind ▸ List.mem_map_of_mem List.mem_cons_self))
        have passed : line ≤ own.line := Nat.le_of_lt (place ▸ after numbered listed)
        rw [joined] at formed
        cases earlier with
        | nil =>
          -- The effect joins the step that comes first among those behind it.
          obtain ⟨rfl, rfl⟩ : ⟨own.line, effect :: own.effects⟩ = step ∧ others = later :=
            List.cons.inj formed
          have alsoFirst : stepsOf rest = [] ++ own :: others := behind
          rw [inductionHypothesis ascending alsoFirst]
          simp [effectsBetween, effectsOf, Directive.effect?, passed]
        | cons front middle =>
          obtain ⟨rfl, rfl⟩ : ⟨own.line, effect :: own.effects⟩ = front ∧
            others = middle ++ step :: later := List.cons.inj formed
          have alsoLater : stepsOf rest = (own :: middle) ++ step :: later := behind
          rw [effectsBetween_of_passed List.mem_cons_self passed,
            inductionHypothesis ascending alsoLater]
          simp only [effectsBetween, List.forall_mem_cons]
    case commit =>
      rw [stepsOf] at formed
      cases earlier with
      | nil =>
        obtain ⟨rfl, -⟩ : ⟨line, []⟩ = step ∧ stepsOf rest = later := List.cons.inj formed
        simpa [effectsBetween, effectsOf, Directive.effect?] using
          (effectsBetween_of_after after []).symm
      | cons front middle =>
        obtain ⟨rfl, behind⟩ : ⟨line, []⟩ = front ∧ stepsOf rest = middle ++ step :: later :=
          List.cons.inj formed
        rw [effectsBetween_of_passed List.mem_cons_self (Nat.le_refl line),
          effectsBetween_cons after, inductionHypothesis ascending behind]

end HeldLocks.Trace
