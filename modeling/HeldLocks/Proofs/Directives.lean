import HeldLocks.Proofs.Steps
import HeldLocks.Trace.Parser

/-!
# The directives of a text

Lines are read one by one, and what is read from a line depends on nothing but its words. So the
directives of a text are those of its lines, each with the number of its line
(`mem_directivesFrom_iff`), in ascending order (`ascending_directivesFrom`). The lines without words
have a part in the numbers and in nothing else (`forall₂_directivesFrom`).
-/

namespace HeldLocks.Trace

section Results

variable {Error Given Made : Type}

/-- A result that was mapped came from a result. -/
theorem exists_of_map_eq_ok (result : Except Error Given) (make : Given → Made) (made : Made)
    (ok : result.map make = .ok made) : ∃ given, result = .ok given ∧ make given = made := by
  cases result with
  | error error => cases ok
  | ok given => exact ⟨given, rfl, Except.ok.inj ok⟩

/-- Two steps that give a result both do. -/
theorem exists_of_bind_eq_ok (result : Except Error Given) (next : Given → Except Error Made)
    (made : Made) (ok : result >>= next = .ok made) :
    ∃ given, result = .ok given ∧ next given = .ok made := by
  cases result with
  | error error => cases ok
  | ok given => exact ⟨given, rfl, ok⟩

end Results

/-- The directives of some lines have ascending numbers, from that of the first line on. -/
theorem ascending_directivesFrom (bound : Int) (number : Nat) (lines : List (List Char))
    (directives : List (Nat × Directive))
    (read : directivesFrom bound number lines = .ok directives) :
    (directives.map Prod.fst).Pairwise (· < ·) ∧
      ∀ line ∈ directives.map Prod.fst, number ≤ line := by
  fun_induction directivesFrom bound number lines generalizing directives with
  | case1 number =>
    obtain rfl := Except.ok.inj read
    exact ⟨List.Pairwise.nil, List.forall_mem_nil _⟩
  | case2 number line rest fault rejected => cases read
  | case3 number line rest blank inductionHypothesis =>
    obtain ⟨ascending, after⟩ := inductionHypothesis directives read
    exact ⟨ascending, fun other member => Nat.le_of_succ_le (after other member)⟩
  | case4 number line rest directive accepted inductionHypothesis =>
    obtain ⟨others, later, rfl⟩ := exists_of_map_eq_ok _ _ _ read
    obtain ⟨ascending, after⟩ := inductionHypothesis others later
    rw [List.map_cons, List.pairwise_cons, List.forall_mem_cons]
    exact ⟨⟨after, ascending⟩, Nat.le_refl number,
      fun other member => Nat.le_of_succ_le (after other member)⟩

/-- The steps of a text have ascending numbers. -/
theorem ascending_of_parse {bound : Int} {text : String} {steps : List Step}
    (read : parse bound text = .ok steps) : (steps.map Step.line).Pairwise (· < ·) := by
  obtain ⟨directives, numbered, rfl⟩ := exists_of_map_eq_ok _ _ _ read
  exact (ascending_directivesFrom bound 1 _ directives numbered).1.sublist
    (sublist_stepsOf directives)

/-- A directive of some lines is read from the line that has its number. -/
theorem mem_directivesFrom_iff {bound : Int} {number : Nat} {lines : List (List Char)}
    {directives : List (Nat × Directive)}
    (read : directivesFrom bound number lines = .ok directives) (place : Nat)
    (directive : Directive) :
    (place, directive) ∈ directives ↔
      ∃ line, (line, place) ∈ lines.zipIdx number ∧
        readLine bound (wordsOf line) = .ok (some directive) := by
  fun_induction directivesFrom bound number lines generalizing directives with
  | case1 number =>
    obtain rfl := Except.ok.inj read
    simp
  | case2 number first rest fault rejected => cases read
  | case3 number first rest blank inductionHypothesis =>
    simp [inductionHypothesis read, or_and_right, exists_or, blank]
  | case4 number first rest own accepted inductionHypothesis =>
    obtain ⟨others, later, rfl⟩ := exists_of_map_eq_ok _ _ _ read
    simp only [List.mem_cons, Prod.mk.injEq, inductionHypothesis later, List.zipIdx_cons,
      or_and_right, exists_or]
    refine or_congr_left ?_
    constructor
    · rintro ⟨rfl, rfl⟩
      exact ⟨first, ⟨rfl, rfl⟩, accepted⟩
    · rintro ⟨line, ⟨rfl, rfl⟩, alsoAccepted⟩
      rw [accepted] at alsoAccepted
      exact ⟨rfl, (Option.some.inj (Except.ok.inj alsoAccepted)).symm⟩

/-- The directives of some lines are those that are read from one of them. -/
theorem exists_place_iff {bound : Int} {number : Nat} {lines : List (List Char)}
    {directives : List (Nat × Directive)}
    (read : directivesFrom bound number lines = .ok directives) (directive : Directive) :
    (∃ place, (place, directive) ∈ directives) ↔
      ∃ line ∈ lines, readLine bound (wordsOf line) = .ok (some directive) := by
  simp only [mem_directivesFrom_iff read]
  rw [exists_comm]
  refine exists_congr fun line => ?_
  conv_rhs => rw [← List.zipIdx_map_fst number lines]
  rw [exists_and_right, List.mem_map]
  simp

/-- Only a line without words is no directive. -/
theorem readLine_eq_ok_none_iff (bound : Int) (words : List String) :
    readLine bound words = .ok none ↔ words = [] := by
  cases words with
  | nil => exact iff_of_true rfl rfl
  | cons keyword operands =>
    refine iff_of_false ?_ (List.cons_ne_nil _ _)
    rw [readLine]
    cases Directive.read bound keyword operands <;> simp [Except.map]

/-- The words of the lines that have any, in order. -/
def wordedLines (lines : List (List Char)) : List (List String) :=
  (lines.map wordsOf).filter (· ≠ [])

/-- Every line with words is read as a directive, and no other line is. -/
theorem forall₂_directivesFrom {bound : Int} {number : Nat} {lines : List (List Char)}
    {directives : List (Nat × Directive)}
    (read : directivesFrom bound number lines = .ok directives) :
    List.Forall₂ (fun words directive => readLine bound words = .ok (some directive))
      (wordedLines lines) (directives.map Prod.snd) := by
  fun_induction directivesFrom bound number lines generalizing directives with
  | case1 number =>
    obtain rfl := Except.ok.inj read
    exact .nil
  | case2 number line rest fault rejected => cases read
  | case3 number line rest blank inductionHypothesis =>
    rw [wordedLines, List.map_cons, List.filter_cons_of_neg]
    · exact inductionHypothesis read
    · simpa using (readLine_eq_ok_none_iff bound _).mp blank
  | case4 number line rest directive accepted inductionHypothesis =>
    obtain ⟨others, later, rfl⟩ := exists_of_map_eq_ok _ _ _ read
    rw [wordedLines, List.map_cons, List.filter_cons_of_pos, List.map_cons]
    · exact .cons accepted (inductionHypothesis later)
    · rw [decide_eq_true_iff, ne_eq, ← readLine_eq_ok_none_iff bound, accepted]
      nofun

end HeldLocks.Trace
