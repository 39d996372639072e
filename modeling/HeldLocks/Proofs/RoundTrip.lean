import HeldLocks.Proofs.Directives
import HeldLocks.Proofs.Spelling

/-!
# Writing traces and reading them back

`Written` says how steps are written down: a line for every effect and one for the commit
that ends the step, with lines without words anywhere between them. It speaks of the words
of a line (`Spells`) and thus leaves blanks and comments open, and it numbers the lines,
because the line of a step is that of its commit.

A trace can hold the effects whose locks and counters it can spell (`Representable`).
Steps of such effects are read back from everything that writes them down, and a text that
is read holds no others. So what is read from a text can be written down again, and reading
that gives the same effects.
-/

namespace HeldLocks

open Trace

/-- A lock that can be written. Its parts are words, except that one for the whole program
    has no expression. -/
inductive Lock.Representable : Lock → Prop where
  | programWide (name : String) (isName : IsWord name) : Representable ⟨name, "", .programWide⟩
  | byExpression (name expr : String) (isName : IsWord name) (isExpr : IsWord expr) :
      Representable ⟨name, expr, .byExpression⟩

/-- The words that name a lock. -/
def Lock.words (lock : Lock) : List String :=
  match lock.scope with
  | .programWide => [lock.name]
  | .byExpression => [lock.name, lock.expr]

/-- A lock that can be written is named by words. -/
theorem Lock.Representable.isWord {lock : Lock} (representable : lock.Representable) :
    ∀ word ∈ lock.words, IsWord word := by
  cases representable with
  | programWide name isName => simpa [Lock.words] using isName
  | byExpression name expr isName isExpr => simpa [Lock.words] using ⟨isName, isExpr⟩

namespace Effect

/-- An effect on a lock that can be written, with a counter that can. Bounds are not
    written, so an acquisition must have the one that all of the trace have. -/
def Representable (bound : Int) : Effect → Prop
  | acquire lock carried => lock.Representable ∧ carried = bound
  | release lock | forget lock | restore lock => lock.Representable
  | assign lock count | check lock count _ =>
    lock.Representable ∧ 0 ≤ count ∧ count ≤ maxCounter
  | restoreAll | forgetAll | save => True

/-- The word that begins the directive for an effect. -/
def keyword : Effect → String
  | acquire _ _ => "acquire"
  | release _ => "release"
  | forget _ => "reset"
  | assign _ _ => "set"
  | restore _ => "restore"
  | check _ _ _ => "check"
  | restoreAll => "restore-all"
  | forgetAll => "reset-all"
  | save => "save-state"

/-- The words that follow it. -/
def operands : Effect → List String
  | acquire lock _ | release lock | forget lock | restore lock => lock.words
  | assign lock count => lock.words ++ [toString count]
  | check lock count expected => lock.words ++ [toString count, toString expected]
  | restoreAll | forgetAll | save => []

/-- The words of the directive for an effect. -/
def words (effect : Effect) : List String := effect.keyword :: effect.operands

/-- Keywords are words. -/
theorem isWord_keyword (effect : Effect) : IsWord effect.keyword := by
  cases effect <;> simp [keyword, IsWord, isBlank]

/-- The operands of an effect that can be written are words. -/
theorem Representable.isWord_operands {bound : Int} {effect : Effect}
    (representable : effect.Representable bound) : ∀ word ∈ effect.operands, IsWord word := by
  cases effect with
  | acquire lock carried => exact representable.1.isWord
  | release lock | forget lock | restore lock => exact Lock.Representable.isWord representable
  | assign lock count =>
    obtain ⟨writable, nonneg, -⟩ := representable
    refine List.forall_mem_append.mpr ⟨writable.isWord, List.forall_mem_singleton.mpr ?_⟩
    exact isWord_toString count nonneg
  | check lock count expected =>
    obtain ⟨writable, nonneg, -⟩ := representable
    refine List.forall_mem_append.mpr ⟨writable.isWord, List.forall_mem_cons.mpr
      ⟨isWord_toString count nonneg, List.forall_mem_singleton.mpr ?_⟩⟩
    cases expected <;> simp [toString, IsWord, isBlank]
  | restoreAll | forgetAll | save => exact List.forall_mem_nil _

/-- All that is written of an effect are words. -/
theorem Representable.isWord {bound : Int} {effect : Effect}
    (representable : effect.Representable bound) : ∀ word ∈ effect.words, IsWord word :=
  List.forall_mem_cons.mpr ⟨effect.isWord_keyword, representable.isWord_operands⟩

end Effect

namespace Trace

/-! ### What is written can be read -/

/-- A form that takes a lock takes its words. -/
theorem Form.read_withLock (keyword : String) (make : Lock → Effect) (lock : Lock)
    (representable : lock.Representable) :
    (withLock make).read keyword lock.words = .ok (.effect (make lock)) := by
  cases representable <;> rfl

/-- The counter that is required is the one that was written. -/
theorem requireCounter_toString (count : Int) (nonneg : 0 ≤ count)
    (bounded : count ≤ maxCounter) : requireCounter (toString count) = .ok count.toNat := by
  rw [requireCounter, readCounter?_toString count nonneg bounded]

/-- A form that takes a lock and a counter takes the words of both. -/
theorem Form.read_withCounter (keyword : String) (make : Lock → Nat → Effect) (lock : Lock)
    (count : Int) (representable : lock.Representable) (nonneg : 0 ≤ count)
    (bounded : count ≤ maxCounter) :
    (withCounter make).read keyword (lock.words ++ [toString count]) =
      .ok (.effect (make lock count.toNat)) := by
  have read : (withCounter make).read keyword (lock.words ++ [toString count]) =
      readCounted make lock (toString count) := by
    cases representable <;> rfl
  rw [read, readCounted, requireCounter_toString count nonneg bounded]
  rfl

/-- A form that takes a lock, a counter and a truth value takes the words of all. -/
theorem Form.read_withTest (keyword : String) (make : Lock → Nat → Bool → Effect) (lock : Lock)
    (count : Int) (expected : Bool) (representable : lock.Representable) (nonneg : 0 ≤ count)
    (bounded : count ≤ maxCounter) :
    (withTest make).read keyword (lock.words ++ [toString count, toString expected]) =
      .ok (.effect (make lock count.toNat expected)) := by
  have read : (withTest make).read keyword (lock.words ++ [toString count, toString expected]) =
      readTested make lock (toString count) (toString expected) := by
    cases representable <;> rfl
  rw [read, readTested, requireCounter_toString count nonneg bounded]
  cases expected <;> rfl

/-- A line is read by the form that its keyword announces. -/
theorem readLine_of_read (bound : Int) (keyword : String) (operands : List String)
    (form : Form) (directive : Directive) (announced : Form.ofKeyword? bound keyword = some form)
    (read : form.read keyword operands = .ok directive) :
    readLine bound (keyword :: operands) = .ok (some directive) := by
  rw [readLine, Directive.read, announced]
  simp only [read, Except.map]

/-- An effect is read back from its words. -/
theorem readLine_words (bound : Int) (effect : Effect)
    (representable : effect.Representable bound) :
    readLine bound effect.words = .ok (some (.effect effect)) := by
  cases effect with
  | acquire lock carried =>
    obtain ⟨writable, rfl⟩ := representable
    exact readLine_of_read carried _ _ _ _ rfl (Form.read_withLock _ _ lock writable)
  | release lock | forget lock | restore lock =>
    exact readLine_of_read bound _ _ _ _ rfl (Form.read_withLock _ _ lock representable)
  | assign lock count =>
    obtain ⟨writable, nonneg, bounded⟩ := representable
    have read := readLine_of_read bound _ _ _ _ rfl
      (Form.read_withCounter "set" (.assign · ·) lock count writable nonneg bounded)
    rwa [Int.toNat_of_nonneg nonneg] at read
  | check lock count expected =>
    obtain ⟨writable, nonneg, bounded⟩ := representable
    have read := readLine_of_read bound _ _ _ _ rfl
      (Form.read_withTest "check" (.check · · ·) lock count expected writable nonneg bounded)
    rwa [Int.toNat_of_nonneg nonneg] at read
  | restoreAll | forgetAll | save => rfl

/-! ### What is read could be written -/

/-- All the effects that a form makes of words have a property. -/
def Form.Makes (property : Effect → Prop) : Form → Prop
  | alone directive => ∀ effect, directive = .effect effect → property effect
  | withLock make => ∀ lock : Lock, lock.Representable → property (make lock)
  | withCounter make => ∀ (lock : Lock) (count : Nat), lock.Representable →
      count ≤ maxCounter → property (make lock count)
  | withTest make => ∀ (lock : Lock) (count : Nat) (expected : Bool), lock.Representable →
      count ≤ maxCounter → property (make lock count expected)

/-- What a keyword announces makes effects that can be written. -/
theorem Form.makes_of_ofKeyword? (bound : Int) (keyword : String) (form : Form)
    (announced : Form.ofKeyword? bound keyword = some form) :
    form.Makes (Effect.Representable bound) := by
  unfold Form.ofKeyword? at announced
  split at announced <;> cases announced <;>
    simp +contextual [Form.Makes, Effect.Representable]

/-- A counter that is read is in range. -/
theorem le_maxCounter_of_requireCounter (word : String) (count : Nat)
    (read : requireCounter word = .ok count) : count ≤ maxCounter := by
  unfold requireCounter at read
  split at read
  next spelled =>
    cases read
    exact le_maxCounter_of_readCounter? word count spelled
  next => cases read

/-- An effect that is made with a counter has one in range. -/
theorem exists_count_of_readCounted (make : Lock → Nat → Effect) (lock : Lock)
    (counter : String) (effect : Effect)
    (read : readCounted make lock counter = .ok (.effect effect)) :
    ∃ count : Nat, count ≤ maxCounter ∧ effect = make lock count := by
  obtain ⟨count, counted, made⟩ := exists_of_bind_eq_ok _ _ _ read
  cases made
  exact ⟨count, le_maxCounter_of_requireCounter counter count counted, rfl⟩

/-- An effect that is made with a counter and a truth value has a counter in range. -/
theorem exists_count_of_readTested (make : Lock → Nat → Bool → Effect) (lock : Lock)
    (counter truth : String) (effect : Effect)
    (read : readTested make lock counter truth = .ok (.effect effect)) :
    ∃ (count : Nat) (expected : Bool), count ≤ maxCounter ∧ effect = make lock count expected := by
  obtain ⟨count, counted, tested⟩ := exists_of_bind_eq_ok _ _ _ read
  obtain ⟨expected, -, made⟩ := exists_of_bind_eq_ok _ _ _ tested
  cases made
  exact ⟨count, expected, le_maxCounter_of_requireCounter counter count counted, rfl⟩

/-- A form that reads words makes an effect of them as it promises. -/
theorem Form.makes_read (property : Effect → Prop) (form : Form) (makes : form.Makes property)
    (keyword : String) (operands : List String) (areWords : ∀ word ∈ operands, IsWord word)
    (effect : Effect) (read : form.read keyword operands = .ok (.effect effect)) :
    property effect := by
  have ofName (name : String) (rest : List String) (whole : operands = name :: rest) :
      Lock.Representable (.ofName name) :=
    .programWide name (areWords name (whole ▸ List.mem_cons_self))
  have ofExpr (name expr : String) (rest : List String) (whole : operands = name :: expr :: rest) :
      Lock.Representable (.ofExpr name expr) :=
    .byExpression name expr (areWords name (whole ▸ List.mem_cons_self))
      (areWords expr (whole ▸ List.mem_cons_of_mem _ List.mem_cons_self))
  unfold Form.read at read
  split at read
  next directive =>
    cases read
    exact makes effect rfl
  next => cases read
  next make name =>
    cases read
    exact makes _ (ofName name [] rfl)
  next make name expr =>
    cases read
    exact makes _ (ofExpr name expr [] rfl)
  next make name counter =>
    obtain ⟨count, bounded, rfl⟩ := exists_count_of_readCounted _ _ _ _ read
    exact makes _ count (ofName name _ rfl) bounded
  next make name expr counter =>
    obtain ⟨count, bounded, rfl⟩ := exists_count_of_readCounted _ _ _ _ read
    exact makes _ count (ofExpr name expr _ rfl) bounded
  next make name counter truth =>
    obtain ⟨count, expected, bounded, rfl⟩ := exists_count_of_readTested _ _ _ _ _ read
    exact makes _ count expected (ofName name _ rfl) bounded
  next make name expr counter truth =>
    obtain ⟨count, expected, bounded, rfl⟩ := exists_count_of_readTested _ _ _ _ _ read
    exact makes _ count expected (ofExpr name expr _ rfl) bounded
  next => cases read

/-- An effect that is read from words could be written. -/
theorem representable_of_readLine (bound : Int) (words : List String)
    (areWords : ∀ word ∈ words, IsWord word) (effect : Effect)
    (read : readLine bound words = .ok (some (.effect effect))) :
    effect.Representable bound := by
  cases words with
  | nil => cases read
  | cons keyword operands =>
    rw [List.forall_mem_cons] at areWords
    obtain ⟨directive, read, made⟩ := exists_of_map_eq_ok _ _ _ read
    cases made
    unfold Directive.read at read
    split at read
    next form announced =>
      exact form.makes_read _ (Form.makes_of_ofKeyword? bound keyword form announced) keyword
        operands areWords.2 effect read
    next => cases read

/-- The effects of the directives that are read from lines could be written. -/
theorem representable_of_directivesFrom (bound : Int) (number : Nat) (lines : List (List Char))
    (directives : List (Nat × Directive))
    (read : directivesFrom bound number lines = .ok directives) (place : Nat) (effect : Effect)
    (member : (place, .effect effect) ∈ directives) :
    effect.Representable bound := by
  obtain ⟨line, _, accepted⟩ := (exists_place_iff read _).mp ⟨place, member⟩
  exact representable_of_readLine bound (wordsOf line)
    ((wordsOf_eq_iff line (wordsOf line)).mp rfl).2 effect accepted

/-! ### Written traces -/

/-- Lines, of which the first has the given number, write steps down. A line of an effect
    belongs to the step that the lines after it begin with. -/
inductive Written : Nat → List (List Char) → List Step → Prop where
  | nothing (number : Nat) : Written number [] []
  | blank (number : Nat) (line : List Char) (rest : List (List Char)) (steps : List Step)
      (spelled : Spells line []) (tail : Written (number + 1) rest steps) :
      Written number (line :: rest) steps
  | commit (number : Nat) (line : List Char) (rest : List (List Char)) (steps : List Step)
      (spelled : Spells line ["commit"]) (tail : Written (number + 1) rest steps) :
      Written number (line :: rest) (⟨number, []⟩ :: steps)
  | effect (number : Nat) (line : List Char) (rest : List (List Char)) (effect : Effect)
      (step : Step) (later : List Step) (spelled : Spells line effect.words)
      (tail : Written (number + 1) rest (step :: later)) :
      Written number (line :: rest) (⟨step.line, effect :: step.effects⟩ :: later)

/-- A text writes batches of effects down, as steps with their lines. -/
def Writes (text : String) (batches : List (List Effect)) (steps : List Step) : Prop :=
  steps.map Step.effects = batches ∧
    ∃ lines, lines ≠ [] ∧ (∀ line ∈ lines, '\n' ∉ line) ∧
      text.toList = ['\n'].intercalate lines ∧ Written 1 lines steps

/-- All effects of some batches can be written. -/
def Representable (bound : Int) (batches : List (List Effect)) : Prop :=
  ∀ effects ∈ batches, ∀ effect ∈ effects, effect.Representable bound

/-- The first effect of batches that can be written, and what is left without it. -/
theorem Representable.of_cons {bound : Int} {effect : Effect} {effects : List Effect}
    {batches : List (List Effect)}
    (representable : Representable bound ((effect :: effects) :: batches)) :
    effect.Representable bound ∧ Representable bound (effects :: batches) := by
  unfold Representable at representable ⊢
  rw [List.forall_mem_cons, List.forall_mem_cons] at representable
  exact ⟨representable.1.1, List.forall_mem_cons.mpr ⟨representable.1.2, representable.2⟩⟩

/-- What is written is read back as directives that form the steps. -/
theorem Written.read {number : Nat} {lines : List (List Char)} {steps : List Step}
    (written : Written number lines steps) (bound : Int)
    (representable : Representable bound (steps.map Step.effects)) :
    ∃ directives, directivesFrom bound number lines = .ok directives ∧
      stepsOf directives = steps := by
  induction written with
  | nothing number => exact ⟨[], rfl, rfl⟩
  | blank number line rest steps spelled tail inductionHypothesis =>
    obtain ⟨directives, read, formed⟩ := inductionHypothesis representable
    refine ⟨directives, ?_, formed⟩
    rw [directivesFrom, spelled.wordsOf_eq (by simp)]
    exact read
  | commit number line rest steps spelled tail inductionHypothesis =>
    obtain ⟨directives, read, formed⟩ := inductionHypothesis fun effects member =>
      representable effects (List.mem_cons_of_mem _ member)
    refine ⟨(number, .commit) :: directives, ?_, ?_⟩
    · rw [directivesFrom, spelled.wordsOf_eq (by simp [IsWord, isBlank]), read]
      rfl
    · rw [stepsOf, formed]
  | effect number line rest effect step later spelled tail inductionHypothesis =>
    obtain ⟨own, others⟩ := Representable.of_cons representable
    obtain ⟨directives, read, formed⟩ := inductionHypothesis others
    refine ⟨(number, .effect effect) :: directives, ?_, ?_⟩
    · rw [directivesFrom, spelled.wordsOf_eq own.isWord, readLine_words bound effect own, read]
      rfl
    · rw [stepsOf, formed]

/-- A text that writes steps down is read as these steps. -/
theorem Writes.parse_eq {text : String} {batches : List (List Effect)} {steps : List Step}
    (writes : Writes text batches steps) (bound : Int)
    (representable : Representable bound batches) : parse bound text = .ok steps := by
  obtain ⟨rfl, lines, someLine, unbroken, joined, written⟩ := writes
  obtain ⟨directives, read, formed⟩ := written.read bound representable
  have split : linesOf text = lines := by
    rw [linesOf, joined, List.splitOn_intercalate '\n' unbroken someLine]
  rw [parse, split, read, ← formed]
  rfl

/-- Effects that can be written are written by some lines, on from any number. -/
theorem exists_written (bound : Int) (batches : List (List Effect))
    (representable : Representable bound batches) (number : Nat) :
    ∃ lines steps, lines ≠ [] ∧ (∀ line ∈ lines, '\n' ∉ line) ∧
      Written number lines steps ∧ steps.map Step.effects = batches := by
  induction batches generalizing number with
  | nil => exact ⟨[[]], [], by simp, by simp, .blank number [] [] [] .nothing (.nothing _), rfl⟩
  | cons effects batches inductionHypothesis =>
    induction effects generalizing number with
    | nil =>
      have others : Representable bound batches := fun effects member =>
        representable effects (List.mem_cons_of_mem _ member)
      obtain ⟨lines, steps, -, unbroken, written, same⟩ :=
        inductionHypothesis others (number + 1)
      obtain ⟨line, whole, spelled⟩ := exists_spells ["commit"] (by simp [IsWord, isBlank])
      exact ⟨line :: lines, ⟨number, []⟩ :: steps, List.cons_ne_nil _ _,
        List.forall_mem_cons.mpr ⟨whole, unbroken⟩,
        .commit number line lines steps spelled written, congrArg ([] :: ·) same⟩
    | cons effect effects inner =>
      obtain ⟨own, others⟩ := representable.of_cons
      obtain ⟨lines, steps, -, unbroken, written, same⟩ := inner others (number + 1)
      obtain ⟨step, later, rfl, rfl, rfl⟩ := List.map_eq_cons_iff.mp same
      obtain ⟨line, whole, spelled⟩ := exists_spells effect.words own.isWord
      exact ⟨line :: lines, ⟨step.line, effect :: step.effects⟩ :: later, List.cons_ne_nil _ _,
        List.forall_mem_cons.mpr ⟨whole, unbroken⟩,
        .effect number line lines effect step later spelled written, rfl⟩

/-- Effects that can be written are written by some text. -/
theorem exists_writes (bound : Int) (batches : List (List Effect))
    (representable : Representable bound batches) : ∃ text steps, Writes text batches steps := by
  obtain ⟨lines, steps, someLine, unbroken, written, same⟩ :=
    exists_written bound batches representable 1
  exact ⟨String.ofList (['\n'].intercalate lines), steps, same, lines, someLine, unbroken,
    String.toList_ofList, written⟩

/-- What is read could be written. -/
theorem representable_of_parse (bound : Int) (text : String) (steps : List Step)
    (read : parse bound text = .ok steps) : Representable bound (steps.map Step.effects) := by
  obtain ⟨directives, numbered, rfl⟩ := exists_of_map_eq_ok _ _ _ read
  intro effects listed effect member
  obtain ⟨step, formed, rfl⟩ := List.mem_map.mp listed
  obtain ⟨line, directed⟩ := (mem_stepsOf_iff directives effect).mp ⟨step, formed, member⟩
  exact representable_of_directivesFrom bound 1 _ directives numbered line effect directed

/-- Whatever writes down effects that can be written is read as these effects, in steps with
    the lines of their commits. And whatever is read are effects that can be written, so
    that they are written by some text, and all that write them are read as the same
    effects.

    Proof: what is written is read back line by line, by induction on how the lines are put
    together, and each form reads the operands of its effects. The other way round, a form
    makes of words only effects that can be written, and the reader sees nothing but words. -/
theorem written_traces_read_back (bound : Int) :
    (∀ batches, Representable bound batches →
      (∃ text steps, Writes text batches steps) ∧
      ∀ text steps, Writes text batches steps → parse bound text = .ok steps) ∧
    ∀ text steps, parse bound text = .ok steps →
      Representable bound (steps.map Step.effects) ∧
      (∃ again written, Writes again (steps.map Step.effects) written) ∧
      ∀ again written, Writes again (steps.map Step.effects) written →
        parse bound again = .ok written ∧ written.map Step.effects = steps.map Step.effects := by
  have readBack (batches : List (List Effect)) (representable : Representable bound batches) :
      (∃ text steps, Writes text batches steps) ∧
        ∀ text steps, Writes text batches steps → parse bound text = .ok steps :=
    ⟨exists_writes bound batches representable, fun _ _ writes =>
      writes.parse_eq bound representable⟩
  refine ⟨readBack, ?_⟩
  intro text steps read
  have representable := representable_of_parse bound text steps read
  obtain ⟨written, back⟩ := readBack _ representable
  exact ⟨representable, written, fun again steps writes => ⟨back again steps writes, writes.1⟩⟩

/-- A digit can be the expression of a lock, and a line can be indented, end in a comment or
    hold nothing. -/
theorem decorated_trace_read_back :
    parse 3 "acquire spin # first\n\tset spin 1 2#then\n\n commit " =
      .ok [⟨4, [.acquire (.ofName "spin") 3, .assign (.ofExpr "spin" "1") 2]⟩] := by
  have spin : IsWord "spin" := by simp [IsWord, isBlank]
  have one : IsWord "1" := by simp [IsWord, isBlank]
  have acquired : Effect.Representable 3 (.acquire (.ofName "spin") 3) :=
    ⟨.programWide "spin" spin, rfl⟩
  have assigned : Effect.Representable 3 (.assign (.ofExpr "spin" "1") 2) :=
    ⟨.byExpression "spin" "1" spin one, by decide, by decide⟩
  have written : Written 1 ["acquire spin # first".toList, "\tset spin 1 2#then".toList, [],
      " commit ".toList]
      [⟨4, [.acquire (.ofName "spin") 3, .assign (.ofExpr "spin" "1") 2]⟩] := by
    refine .effect 1 _ _ _ ⟨4, [.assign (.ofExpr "spin" "1") 2]⟩ []
      ((wordsOf_eq_iff _ _).mp ?_).1 (.effect 2 _ _ _ ⟨4, []⟩ []
        ((wordsOf_eq_iff _ _).mp ?_).1 (.blank 3 _ _ _ .nothing
          (.commit 4 _ _ _ ((wordsOf_eq_iff _ _).mp ?_).1 (.nothing 5)))) <;> cbv
  refine ((written_traces_read_back 3).1
    [[.acquire (.ofName "spin") 3, .assign (.ofExpr "spin" "1") 2]] ?_).2 _ _ ⟨rfl, ?_⟩
  · simpa [Representable] using ⟨acquired, assigned⟩
  · exact ⟨_, List.cons_ne_nil _ _, by simp, rfl, written⟩

end Trace

end HeldLocks
