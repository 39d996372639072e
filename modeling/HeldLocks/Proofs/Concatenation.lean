import HeldLocks.Proofs.Accounts
import HeldLocks.Proofs.Lifetimes

/-!
# Traces one below the other

Two texts with a line feed between them have the lines of the first and then those of the second,
so the second is read as it is alone, some lines further down (`directivesFrom_append`,
`directivesFrom_add`). Nothing of the first reaches into the second if it leaves no effect pending:
then the steps of both are formed apart (`stepsOf_append`). And the second is replayed as it is
alone, from where the first has ended, because a replay does not look at the numbers of steps
(`replay_shift`).
-/

namespace HeldLocks.Trace

/-! ## Further down -/

/-- The same error some lines further down. -/
def ParseError.shift (lines : Nat) (error : ParseError) : ParseError :=
  ⟨error.line + lines, error.fault⟩

/-- The same step some lines further down. -/
def Step.shift (lines : Nat) (step : Step) : Step := ⟨step.line + lines, step.effects⟩

/-- The same directive some lines further down. -/
def shiftDirective (lines : Nat) (numbered : Nat × Directive) : Nat × Directive :=
  (numbered.1 + lines, numbered.2)

/-- Lines are read the same way further down. -/
theorem directivesFrom_add (bound : Int) (number above : Nat) (lines : List (List Char)) :
    directivesFrom bound (number + above) lines =
      match directivesFrom bound number lines with
      | .error error => .error (error.shift above)
      | .ok directives => .ok (directives.map (shiftDirective above)) := by
  fun_induction directivesFrom bound number lines with
  | case1 number => rfl
  | case2 number line rest fault rejected => rw [directivesFrom, rejected]; rfl
  | case3 number line rest blank inductionHypothesis =>
    rw [directivesFrom, blank, Nat.add_right_comm]
    exact inductionHypothesis
  | case4 number line rest directive accepted inductionHypothesis =>
    rw [directivesFrom, accepted, Nat.add_right_comm]
    simp only [inductionHypothesis]
    cases directivesFrom bound (number + 1) rest <;> rfl

/-- Steps are formed the same way further down. -/
theorem stepsOf_shift (above : Nat) (directives : List (Nat × Directive)) :
    stepsOf (directives.map (shiftDirective above)) =
      (stepsOf directives).map (Step.shift above) := by
  have moved := stepsOf_map (· + above) id directives
  simp only [Directive.map_id, List.map_id] at moved
  exact moved

/-- Steps are replayed the same way further down. -/
theorem replay_shift (above fresh : Nat) (start : State) (steps : List Step) :
    replay fresh start (steps.map (Step.shift above)) = replay fresh start steps := by
  induction steps generalizing fresh start with
  | nil => rfl
  | cons step rest inductionHypothesis =>
    simp only [List.map_cons, replay, inductionHypothesis, Step.shift]

/-! ## One text below another -/

/-- The number of lines of a text, one more than it has line feeds. -/
def lineCount (text : String) : Nat := text.toList.count '\n' + 1

/-- A text has as many lines as are counted. -/
theorem length_linesOf (text : String) : (linesOf text).length = lineCount text := by
  rw [linesOf, lineCount]
  induction text.toList with
  | nil => rfl
  | cons char rest inductionHypothesis =>
    rw [List.splitOn_cons_eq_if_modifyHead, List.count_cons]
    split <;> simp [inductionHypothesis]

/-- Texts with a line feed between them have the lines of one and then those of the other. -/
theorem linesOf_append (first second : String) :
    linesOf (first ++ "\n" ++ second) = linesOf first ++ linesOf second := by
  have lineFeed : "\n".toList = ['\n'] := rfl
  rw [linesOf, linesOf, linesOf, String.toList_append, String.toList_append, lineFeed,
    List.append_assoc, List.singleton_append, List.splitOn_append_cons_self]

/-- Lines are read one after the other. -/
theorem directivesFrom_append (bound : Int) (number : Nat) (first second : List (List Char)) :
    directivesFrom bound number (first ++ second) =
      match directivesFrom bound number first with
      | .error error => .error error
      | .ok earlier =>
        (directivesFrom bound (number + first.length) second).map (earlier ++ ·) := by
  induction first generalizing number with
  | nil =>
    simp only [List.nil_append, directivesFrom, List.length_nil, Nat.add_zero]
    cases directivesFrom bound number second <;> rfl
  | cons line rest inductionHypothesis =>
    rw [List.cons_append, directivesFrom, directivesFrom, List.length_cons, ← Nat.add_assoc,
      Nat.add_right_comm]
    cases readLine bound (wordsOf line) with
    | error fault => rfl
    | ok directive =>
      cases directive with
      | none => exact inductionHypothesis (number + 1)
      | some directive =>
        simp only [inductionHypothesis]
        cases directivesFrom bound (number + 1) rest with
        | error error => rfl
        | ok earlier =>
          cases directivesFrom bound (number + 1 + rest.length) second <;> rfl

/-- The directives of a text below another: those of the second come some lines further down. -/
theorem directivesFrom_linesOf_append (bound : Int) (first second : String) :
    directivesFrom bound 1 (linesOf (first ++ "\n" ++ second)) =
      match directivesFrom bound 1 (linesOf first) with
      | .error error => .error error
      | .ok earlier =>
        match directivesFrom bound 1 (linesOf second) with
        | .error error => .error (error.shift (lineCount first))
        | .ok later => .ok (earlier ++ later.map (shiftDirective (lineCount first))) := by
  rw [linesOf_append, directivesFrom_append, directivesFrom_add, length_linesOf]
  cases directivesFrom bound 1 (linesOf first) with
  | error error => rfl
  | ok earlier => cases directivesFrom bound 1 (linesOf second) <;> rfl

/-- The last directive of a text, if there is one, is a commit, so that no effect is pending. -/
def Closed (bound : Int) (text : String) : Prop :=
  ∀ number directive, MeansAt bound text number directive →
    (∀ other after, MeansAt bound text other after → other ≤ number) → directive = .commit

/-- The directives of a text that ends in a commit are settled. -/
theorem Closed.settled {bound : Int} {text : String} (closed : Closed bound text)
    {directives : List (Nat × Directive)} (lists : Lists bound text directives) :
    Settled directives := by
  intro ⟨number, directive⟩ ends
  obtain ⟨front, rfl⟩ := List.getLast?_eq_some_iff.mp ends
  refine closed number directive ((lists.mem_iff _ _).mp (by simp)) ?_
  intro other after listed
  rcases List.mem_append.mp ((lists.mem_iff _ _).mpr listed) with before | same
  · exact Nat.le_of_lt (lt_last_of_ascending lists.ascending before)
  · obtain ⟨rfl, _⟩ := Prod.mk.inj (List.mem_singleton.mp same)
    exact Nat.le_refl _

/-- A text is refused only for one of its lines. -/
theorem directivesFrom_of_parse_eq_error {bound : Int} {text : String} {error : ParseError}
    (refused : parse bound text = .error error) :
    directivesFrom bound 1 (linesOf text) = .error error := by
  rw [parse] at refused
  cases read : directivesFrom bound 1 (linesOf text) with
  | error other =>
    rw [read] at refused
    cases refused
    rfl
  | ok directives =>
    rw [read] at refused
    cases refused

/-- Nothing below a text that is refused matters. -/
theorem parse_append_of_error {bound : Int} {first : String} {error : ParseError}
    (refused : parse bound first = .error error) (second : String) :
    parse bound (first ++ "\n" ++ second) = .error error := by
  rw [parse, directivesFrom_linesOf_append, directivesFrom_of_parse_eq_error refused]
  rfl

/-- Below a text that is read, a text is refused for the same fault. -/
theorem parse_append_error {bound : Int} {first second : String} {steps : List Step}
    {error : ParseError} (read : parse bound first = .ok steps)
    (refused : parse bound second = .error error) :
    parse bound (first ++ "\n" ++ second) = .error (error.shift (lineCount first)) := by
  obtain ⟨directives, numbered, -⟩ := exists_of_map_eq_ok _ _ _ read
  rw [parse, directivesFrom_linesOf_append, numbered, directivesFrom_of_parse_eq_error refused]
  rfl

/-- Below a text that leaves nothing pending, a text has the same steps. -/
theorem parse_append_ok {bound : Int} {first second : String} {steps later : List Step}
    (read : parse bound first = .ok steps) (closed : Closed bound first)
    (alsoRead : parse bound second = .ok later) :
    parse bound (first ++ "\n" ++ second) =
      .ok (steps ++ later.map (Step.shift (lineCount first))) := by
  obtain ⟨directives, numbered, rfl⟩ := exists_of_map_eq_ok _ _ _ read
  obtain ⟨others, alsoNumbered, rfl⟩ := exists_of_map_eq_ok _ _ _ alsoRead
  have settled := closed.settled (lists_of_directivesFrom numbered)
  rw [parse, directivesFrom_linesOf_append, numbered, alsoNumbered, ← stepsOf_shift,
    ← stepsOf_append settled]
  rfl

/-- Traces compose. Of two texts with a line feed between them, the first decides whether both are
refused, with its own error. If it is read and the second is refused, then so are both, with the
error of the second as many lines further down as the first has. If both are read and the first
leaves no effect pending, then the steps of the first are followed by those of the second, further
down by the same number of lines. The replay of all these steps, from a state that has been made, is
that of the first steps where they rule the path out; and where they end in a state, it goes on as
the steps of the second text are replayed from that state, which is then one of those that have been
made.

Proof: the lines of both texts are read one after the other, and further down a line is read the
same way. The steps of the first text are formed without the directives below it, because a commit
ends the last of them. A replay of steps in a row is taken apart after the first of them, and the
number of the next new state is the same as where their outcomes have been recorded. -/
theorem traces_compose {session : Session} (reachable : session.Reachable) {initial : State}
    (made : initial ∈ session.states) (bound : Int) (first second : String) :
    (∀ error, parse bound first = .error error →
      parse bound (first ++ "\n" ++ second) = .error error) ∧
    ∀ steps, parse bound first = .ok steps →
      (∀ error, parse bound second = .error error →
        parse bound (first ++ "\n" ++ second) = .error (error.shift (lineCount first))) ∧
      ∀ later, parse bound second = .ok later → Closed bound first →
        ∃ whole, parse bound (first ++ "\n" ++ second) = .ok whole ∧
          whole = steps ++ later.map (Step.shift (lineCount first)) ∧
          ∃ outcomes, replay session.fresh initial steps = .ok outcomes ∧
            (exit? initial outcomes = none → replay session.fresh initial whole = .ok outcomes) ∧
            ∀ last, exit? initial outcomes = some last →
              last ∈ (session.recordAll outcomes).states ∧
              ∃ rest, replay (session.recordAll outcomes).fresh last later = .ok rest ∧
                replay session.fresh initial whole = .ok (outcomes ++ rest) := by
  refine ⟨fun error refused => parse_append_of_error refused second, ?_⟩
  intro steps read
  refine ⟨fun error => parse_append_error read, ?_⟩
  intro later alsoRead closed
  refine ⟨_, parse_append_ok read closed alsoRead, rfl, ?_⟩
  obtain ⟨outcomes, ran⟩ := replay_of_valid session.fresh initial (valid_of_parse read)
  have apart := replay_append session.fresh initial steps (later.map (Step.shift (lineCount first)))
  simp only [ran, replay_shift] at apart
  refine ⟨outcomes, ran, ?_, ?_⟩
  · intro ruledOut
    rw [ruledOut] at apart
    exact apart
  · intro last ends
    obtain ⟨lastMade, lastFresh⟩ := reachable.wellFormed.exit_made made ran ends
    obtain ⟨rest, goesOn⟩ :=
      replay_of_valid (session.recordAll outcomes).fresh last (valid_of_parse alsoRead)
    simp only [ends, ← lastFresh, goesOn] at apart
    exact ⟨lastMade, rest, goesOn, apart⟩

/-- The check of the second text looks at the lock that the first has acquired, and its step ends in
line 3 alone and in line 6 below the first. -/
theorem check_sees_acquisition_above :
    parse 2 "acquire a\n# held\ncommit" = .ok [⟨3, [.acquire (.ofName "a") 2]⟩] ∧
      parse 2 "check a 1 true\n\nrelease a" =
        .ok [⟨3, [.check (.ofName "a") 1 true, .release (.ofName "a")]⟩] ∧
      ∃ whole, parse 2 "acquire a\n# held\ncommit\ncheck a 1 true\n\nrelease a" = .ok whole ∧
        whole.map Step.line = [3, 6] ∧
        replay 1 (.empty 0) whole =
          .ok [some ⟨⟨1, ⟨[(.ofName "a", 1)]⟩⟩, []⟩, some ⟨⟨2, ⟨[]⟩⟩, []⟩] := by
  have read : parse 2 "acquire a\n# held\ncommit" = .ok [⟨3, [.acquire (.ofName "a") 2]⟩] := rfl
  have alsoRead : parse 2 "check a 1 true\n\nrelease a" =
      .ok [⟨3, [.check (.ofName "a") 1 true, .release (.ofName "a")]⟩] := rfl
  have closed : Closed 2 "acquire a\n# held\ncommit" := by
    have lists : Lists 2 "acquire a\n# held\ncommit"
        [(1, .effect (.acquire (.ofName "a") 2)), (3, .commit)] := lists_of_directivesFrom rfl
    intro number directive listed last
    have three := last 3 .commit ((lists.mem_iff _ _).mp (by simp))
    have here := (lists.mem_iff _ _).mpr listed
    simp only [List.mem_cons, Prod.mk.injEq, List.not_mem_nil, or_false] at here
    obtain ⟨rfl, rfl⟩ | ⟨rfl, rfl⟩ := here
    · omega
    · rfl
  have reachable : Session.start.Reachable := ⟨[], rfl⟩
  have made : State.empty 0 ∈ Session.start.states := List.mem_cons_self
  obtain ⟨_, composed⟩ := traces_compose reachable made 2 "acquire a\n# held\ncommit"
    "check a 1 true\n\nrelease a"
  obtain ⟨whole, below, rfl, outcomes, ran, _, goesOn⟩ := (composed _ read).2 _ alsoRead closed
  obtain rfl : [some ⟨⟨1, ⟨[(.ofName "a", 1)]⟩⟩, []⟩] = outcomes :=
    Except.ok.inj (Eq.trans (by rfl) ran)
  obtain ⟨_, rest, second, replayed⟩ := goesOn _ rfl
  obtain rfl : [some ⟨⟨2, ⟨[]⟩⟩, []⟩] = rest := Except.ok.inj (Eq.trans (by rfl) second)
  exact ⟨read, alsoRead, _, below, rfl, replayed⟩

end HeldLocks.Trace
