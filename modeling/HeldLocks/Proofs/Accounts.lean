import HeldLocks.Proofs.Grammar
import Mathlib.Data.List.Sort

/-!
# What becomes of the directives of a text

The directives of a text are what its lines mean, in order of their numbers (`Lists`). A reader of
a trace expects that the steps account for them (`Accounts`): that every commit ends a step, that a
step has what stands between the end of the step before it and its own, and that nothing is lost
over it, not even what no commit follows. This is said in terms of the numbers alone, and not of how
steps are formed.
-/

namespace HeldLocks.Trace

/-! ## The directives of a text -/

/-- The line with some number, counted from one, means a directive. -/
def MeansAt (bound : Int) (text : String) (number : Nat) (directive : Directive) : Prop :=
  ∃ line, (line, number) ∈ (linesOf text).zipIdx 1 ∧ Means bound (wordsOf line) directive

/-- The directives of a text, each once and in the order of their lines. -/
structure Lists (bound : Int) (text : String) (directives : List (Nat × Directive)) : Prop where
  /-- The numbers of the lines ascend. -/
  ascending : (directives.map Prod.fst).Pairwise (· < ·)
  /-- A line with some number means a directive exactly if that is listed under the number. -/
  mem_iff : ∀ number directive,
    (number, directive) ∈ directives ↔ MeansAt bound text number directive

/-- What is read from a text lists its directives. -/
theorem lists_of_directivesFrom {bound : Int} {text : String} {directives : List (Nat × Directive)}
    (read : directivesFrom bound 1 (linesOf text) = .ok directives) :
    Lists bound text directives := by
  refine ⟨(ascending_directivesFrom bound 1 _ directives read).1, ?_⟩
  intro number directive
  simp only [mem_directivesFrom_iff read, readLine_eq_ok_some_iff, MeansAt]

/-- A text has its directives in one order only. -/
theorem Lists.unique {bound : Int} {text : String} {directives others : List (Nat × Directive)}
    (lists : Lists bound text directives) (alsoLists : Lists bound text others) :
    others = directives := by
  have irreflexive : Std.Irrefl fun first second : Nat × Directive => first.1 < second.1 :=
    ⟨fun numbered => Nat.lt_irrefl numbered.1⟩
  have antisymmetric : Std.Antisymm fun first second : Nat × Directive => first.1 < second.1 :=
    ⟨fun _ _ before after => absurd before (Nat.lt_asymm after)⟩
  refine List.Pairwise.eq_of_mem_iff (List.pairwise_map.mp alsoLists.ascending)
    (List.pairwise_map.mp lists.ascending) ?_
  rintro ⟨number, directive⟩
  rw [lists.mem_iff, alsoLists.mem_iff]

/-! ## What is expected of steps -/

/-- Some effect comes after all commits. -/
def Pending (directives : List (Nat × Directive)) : Prop :=
  ∃ line effect, (line, .effect effect) ∈ directives ∧
    ∀ commit, (commit, .commit) ∈ directives → commit < line

/-- What has ascending numbers comes before the last of it. -/
theorem lt_last_of_ascending {Numbered : Type} {number : Numbered → Nat} {front : List Numbered}
    {last : Numbered} (ascending : ((front ++ [last]).map number).Pairwise (· < ·))
    {other : Numbered} (member : other ∈ front) : number other < number last := by
  rw [List.map_append, List.pairwise_append] at ascending
  exact ascending.2.2 _ (List.mem_map_of_mem member) _ List.mem_cons_self

/-- Directives with ascending numbers have no effect pending exactly if they are settled. -/
theorem settled_iff_not_pending {directives : List (Nat × Directive)}
    (ascending : (directives.map Prod.fst).Pairwise (· < ·)) :
    Settled directives ↔ ¬ Pending directives := by
  rcases List.eq_nil_or_concat' directives with rfl | ⟨before, ⟨last, directive⟩, rfl⟩
  · exact iff_of_true nofun (fun ⟨_, _, listed, _⟩ => nomatch listed)
  · cases directive with
    | commit =>
      refine iff_of_true (by simp [Settled]) ?_
      rintro ⟨line, effect, listed, after⟩
      have early := (List.mem_append.mp listed).resolve_right (by simp)
      exact Nat.lt_asymm (lt_last_of_ascending ascending early) (after last (by simp))
    | effect effect =>
      refine iff_of_false (by simp [Settled]) (not_not_intro ⟨last, effect, by simp, ?_⟩)
      intro commit listed
      have early := (List.mem_append.mp listed).resolve_right (by simp)
      exact lt_last_of_ascending ascending early

/-- All of some steps with ascending numbers end before a line if the last of them does. -/
theorem forall_line_lt_iff {steps : List Step}
    (ascending : (steps.map Step.line).Pairwise (· < ·)) (line : Nat) :
    (∀ step ∈ steps, step.line < line) ↔ ∀ last ∈ steps.getLast?, last.line < line := by
  constructor
  · intro all last ends
    exact all last (List.mem_of_mem_getLast? ends)
  · rcases List.eq_nil_or_concat' steps with rfl | ⟨front, last, rfl⟩
    · exact fun _ => List.forall_mem_nil _
    · intro ends step member
      have behind := ends last (by simp)
      rcases List.mem_append.mp member with early | same
      · exact (lt_last_of_ascending ascending early).trans behind
      · exact List.mem_singleton.mp same ▸ behind

/-- Steps account for numbered directives: no effect is lost, told twice or put in the wrong
step. -/
structure Accounts (directives : List (Nat × Directive)) (steps : List Step) : Prop where
  /-- Together, the steps have the effects of the directives in their order. -/
  effects : steps.flatMap Step.effects = effectsOf directives
  /-- The numbers of the steps ascend. -/
  ascending : (steps.map Step.line).Pairwise (· < ·)
  /-- Where nothing is pending, there is a step for every commit, and it ends there. -/
  settled : ¬ Pending directives →
    steps.length = (commitLines directives).length ∧ steps.map Step.line = commitLines directives
  /-- Where something is pending, there is one step more, and it ends at the last directive. -/
  pending : Pending directives →
    steps.length = (commitLines directives).length + 1 ∧
      ∃ last ∈ directives.getLast?, steps.map Step.line = commitLines directives ++ [last.1]
  /-- A step has the effects of the directives after the end of the step before it and up to its
  own. -/
  own : ∀ earlier step later, steps = earlier ++ step :: later →
    step.effects = effectsOf (directives.filter fun numbered =>
      (∀ previous ∈ earlier.getLast?, previous.line < numbered.1) ∧ numbered.1 ≤ step.line)
  /-- A commit right behind another ends a step without effects. -/
  consecutive : ∀ before first second after,
    directives = before ++ (first, .commit) :: (second, .commit) :: after → ⟨second, []⟩ ∈ steps

/-- The steps that are formed of directives with ascending numbers account for them. -/
theorem accounts_stepsOf {directives : List (Nat × Directive)}
    (ascending : (directives.map Prod.fst).Pairwise (· < ·)) :
    Accounts directives (stepsOf directives) := by
  have lines := ascending.sublist (sublist_stepsOf directives)
  refine ⟨flatMap_stepsOf directives, lines, ?settled, ?pending, ?own, ?consecutive⟩
  case settled =>
    intro notPending
    have ends := lines_stepsOf_of_settled ((settled_iff_not_pending ascending).mpr notPending)
    exact ⟨by rw [← ends, List.length_map], ends⟩
  case pending =>
    intro pending
    have unsettled := mt (settled_iff_not_pending ascending).mp (not_not_intro pending)
    obtain ⟨last, behind, ends⟩ := lines_stepsOf_of_unsettled unsettled
    refine ⟨?_, last, behind, ends⟩
    rw [← List.length_map, ends, List.length_append, List.length_singleton]
  case own =>
    intro earlier step later formed
    have front : (earlier.map Step.line).Pairwise (· < ·) := by
      rw [formed, List.map_append, List.pairwise_append] at lines
      exact lines.1
    rw [effects_stepsOf ascending formed, effectsBetween]
    simp only [forall_line_lt_iff front]
  case consecutive =>
    rintro before first second after rfl
    have settled : Settled (before ++ [(first, .commit)]) := by simp [Settled]
    rw [List.append_cons, stepsOf_append settled]
    exact List.mem_append_right _ List.mem_cons_self

/-! ## What does not matter -/

/-- Steps of directives that are the same up to their numbers have the same effects. -/
theorem effects_stepsOf_of_map_snd {directives others : List (Nat × Directive)}
    (same : others.map Prod.snd = directives.map Prod.snd) :
    (stepsOf others).map Step.effects = (stepsOf directives).map Step.effects := by
  have unnumbered (listed : List (Nat × Directive)) :
      (stepsOf listed).map Step.effects =
        (stepsOf ((listed.map Prod.snd).map fun directive => (0, directive))).map
          Step.effects := by
    have renumbered := stepsOf_map (fun _ => 0) id listed
    simp only [Directive.map_id, List.map_id] at renumbered
    rw [List.map_map, Function.comp_def, renumbered, List.map_map]
    rfl
  rw [unnumbered others, same, ← unnumbered directives]

/-- A text is read where another is that has the same words in the lines that have any. -/
theorem exists_parse_of_wordedLines {bound : Int} {text other : String} {steps : List Step}
    (read : parse bound text = .ok steps)
    (sameWords : wordedLines (linesOf other) = wordedLines (linesOf text)) :
    ∃ similar, parse bound other = .ok similar := by
  rw [exists_parse_iff]
  have wellFormed := (exists_parse_iff bound text).mp ⟨steps, read⟩
  intro line present
  rw [wellFormedLine_iff bound]
  by_cases nothing : wordsOf line = []
  · exact ⟨none, (readLine_eq_ok_none_iff bound _).mpr nothing⟩
  · have worded : wordsOf line ∈ wordedLines (linesOf other) :=
      List.mem_filter.mpr ⟨List.mem_map_of_mem present, decide_eq_true nothing⟩
    rw [sameWords, wordedLines, List.mem_filter] at worded
    obtain ⟨same, listed, words⟩ := List.mem_map.mp worded.1
    exact words ▸ (wellFormedLine_iff bound same).mp (wellFormed same listed)

/-- Texts with the same lines of words, in the same order, have the same batches. -/
theorem effects_eq_of_wordedLines {bound : Int} {text other : String} {steps similar : List Step}
    (read : parse bound text = .ok steps) (alsoRead : parse bound other = .ok similar)
    (sameWords : wordedLines (linesOf other) = wordedLines (linesOf text)) :
    similar.map Step.effects = steps.map Step.effects := by
  obtain ⟨directives, numbered, rfl⟩ := exists_of_map_eq_ok _ _ _ read
  obtain ⟨others, alsoNumbered, rfl⟩ := exists_of_map_eq_ok _ _ _ alsoRead
  refine effects_stepsOf_of_map_snd ?_
  have words := forall₂_directivesFrom numbered
  have alsoWords := forall₂_directivesFrom alsoNumbered
  rw [sameWords] at alsoWords
  refine Relator.RightUnique.forall₂ ?_ alsoWords words
  intro line first second readFirst readSecond
  rw [readFirst] at readSecond
  exact Option.some.inj (Except.ok.inj readSecond)

/-- Every directive of a text that is read is in the step that it belongs to. A text has its
directives in one order only, that of its lines, and its steps account for them: together they have
all the effects that the text asks for, in order; there is one for every commit, which ends there,
and one more if an effect is pending behind the last commit, which ends at the last directive; the
numbers of steps ascend; and a step has exactly the effects that stand after the end of the step
before it and up to its own, so that a commit right behind another ends a step without effects.
Comments and lines without words have no part in this: any text with the same words in its other
lines is read as steps with the same effects.

Proof: the directives that are read are those that the lines with their numbers mean, by induction
on the lines, and how they form steps is found by induction on them. Words are all that is read of
a line, and only the numbers of the directives depend on the lines that have none, which have no
part in how steps are put together. -/
theorem every_directive_in_its_step {bound : Int} {text : String} {steps : List Step}
    (read : parse bound text = .ok steps) :
    ∃ directives, Lists bound text directives ∧
      (∀ others, Lists bound text others → others = directives) ∧
      Accounts directives steps ∧
      ∀ other, wordedLines (linesOf other) = wordedLines (linesOf text) →
        ∃ similar, parse bound other = .ok similar ∧
          similar.map Step.effects = steps.map Step.effects := by
  obtain ⟨directives, numbered, formed⟩ := exists_of_map_eq_ok _ _ _ read
  have lists := lists_of_directivesFrom numbered
  refine ⟨directives, lists, fun others => lists.unique, ?_, ?_⟩
  · exact formed ▸ accounts_stepsOf lists.ascending
  · intro other sameWords
    obtain ⟨similar, alsoRead⟩ := exists_parse_of_wordedLines read sameWords
    exact ⟨similar, alsoRead, effects_eq_of_wordedLines read alsoRead sameWords⟩

/-- The second commit ends a step without effects, and the last step is ended by a release. Without
comments and blank lines, the steps have other numbers but the same effects. -/
theorem pending_step_ends_at_release :
    parse 1 "acquire a # once\n\ncommit\ncommit # again\n#\nset b 2\n release a\n" =
        .ok [⟨3, [.acquire (.ofName "a") 1]⟩, ⟨4, []⟩,
          ⟨7, [.assign (.ofName "b") 2, .release (.ofName "a")]⟩] ∧
      (∃ directives,
        Lists 1 "acquire a # once\n\ncommit\ncommit # again\n#\nset b 2\n release a\n"
          directives ∧
        commitLines directives = [3, 4] ∧ Pending directives) ∧
      ∃ similar, parse 1 "acquire a\ncommit\ncommit\nset b 2\nrelease a" = .ok similar ∧
        similar.map Step.effects =
          [[.acquire (.ofName "a") 1], [], [.assign (.ofName "b") 2, .release (.ofName "a")]] := by
  have read : parse 1 "acquire a # once\n\ncommit\ncommit # again\n#\nset b 2\n release a\n" =
      .ok [⟨3, [.acquire (.ofName "a") 1]⟩, ⟨4, []⟩,
        ⟨7, [.assign (.ofName "b") 2, .release (.ofName "a")]⟩] := rfl
  obtain ⟨directives, lists, unique, accounts, similar⟩ := every_directive_in_its_step read
  obtain rfl := unique _ (lists_of_directivesFrom rfl)
  refine ⟨read, ⟨_, lists, rfl, ?_⟩, similar _ (by cbv)⟩
  by_contra notPending
  exact absurd (accounts.settled notPending).1 (by decide)

end HeldLocks.Trace
