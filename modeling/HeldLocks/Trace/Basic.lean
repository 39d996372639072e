import HeldLocks.Trace.Directive

/-!
# Traces

A trace is a list of steps, and a step is a batch of effects that makes one state out of
another. Every step knows a line of the text it was written in: the line of the commit that
ends it or, for a last step that nothing ends, the line of the last directive.

`stepsOf` forms the steps of numbered directives. It works from the back, where an effect
joins the step that the directives after it begin with; only where no directive follows
does it start a step, the one that nothing ends.
-/

namespace HeldLocks.Trace

/-- A batch of effects with its line. -/
structure Step where
  /-- The line at which the step ends. -/
  line : Nat
  /-- The effects in order. There may be none. -/
  effects : List Effect
deriving DecidableEq

/-- The steps of directives that are given with their lines. -/
def stepsOf : List (Nat × Directive) → List Step
  | [] => []
  | (line, .commit) :: rest => ⟨line, []⟩ :: stepsOf rest
  | (line, .effect effect) :: rest =>
    match stepsOf rest with
    | [] => [⟨line, [effect]⟩]
    | step :: later => { step with effects := effect :: step.effects } :: later

/-- Directives make no step only if there are none. -/
theorem stepsOf_eq_nil_iff (directives : List (Nat × Directive)) :
    stepsOf directives = [] ↔ directives = [] := by
  match directives with
  | [] => simp only [stepsOf]
  | (line, .commit) :: rest => simp only [stepsOf, reduceCtorEq]
  | (line, .effect effect) :: rest =>
    simp only [stepsOf]
    split <;> simp only [reduceCtorEq]

end HeldLocks.Trace
