import HeldLocks.CommandLine
import HeldLocks.Proofs.CounterReplays
import HeldLocks.Proofs.Levels
import Mathlib.Data.List.Basic

/-!
# Transcripts of the replay command

The replay command shows the state without locks, then the outcome of every step that it takes,
and at the end, if it is asked to, what leads from the first state to the last. How it gets there
takes shortcuts: it tells an unchanged state by its number, it pairs outcomes with steps by their
places, though a replay may stop before the last step, and it breaks its output into lines by
nothing but the line feeds that it writes.

Each is sound for a reason of its own. In a session, a state that a step leads to has the number of
the state before exactly if it is the same as that one, and exactly if no level has changed
(`Session.WellFormed.identical_after_iff_same`). The numbers of steps are those of some of their
directives, which ascend (`Trace.ascending_of_parse`). And the locks of a trace are named by words,
so that no state has a line feed in it, nor ends like the mark of an unchanged state.

The counters of the command have 32 bits (`CommandLine.runOnWords?`). What it shows is computed
from the outcomes of the replay, so it leaves their range exactly if the replay does, and else it
is the command as it is with counts of any size (`CommandLine.runOnWords?_eq`).
-/

namespace HeldLocks

/-! ## Unbroken texts -/

/-- Whether a text has no line feed. -/
def Unbroken (text : String) : Prop := '\n' ∉ text.toList

/-- A text in two parts is free of line ends exactly if both parts are. -/
theorem unbroken_append_iff (first second : String) :
    Unbroken (first ++ second) ↔ Unbroken first ∧ Unbroken second := by
  rw [Unbroken, String.toList_append, List.mem_append, not_or]
  rfl

/-- Texts free of line ends stay so when they are joined. -/
theorem unbroken_join {texts : List String} (unbroken : ∀ text ∈ texts, Unbroken text) :
    Unbroken (String.join texts) := by
  rw [Unbroken, String.toList_join, List.mem_flatMap]
  rintro ⟨text, member, broken⟩
  exact unbroken text member broken

/-- So they do with such a text between them. -/
theorem unbroken_intercalate {separator : String} (unbrokenBetween : Unbroken separator)
    {texts : List String} (unbroken : ∀ text ∈ texts, Unbroken text) :
    Unbroken (separator.intercalate texts) := by
  induction texts with
  | nil => simp [Unbroken]
  | cons text rest inductionHypothesis =>
    obtain ⟨first, others⟩ := List.forall_mem_cons.mp unbroken
    cases rest with
    | nil => exact first
    | cons next later =>
      rw [String.intercalate_cons_cons, unbroken_append_iff, unbroken_append_iff]
      exact ⟨⟨first, unbrokenBetween⟩, inductionHypothesis others⟩

/-- The decimal digits of a number do not break a line. -/
theorem unbroken_toString (number : Nat) : Unbroken (toString number) :=
  (Trace.isWord_toString number (Int.natCast_nonneg number)).newline_notMem

/-- A lock that can be written is shown in one line. -/
theorem Lock.Representable.unbroken_text {lock : Lock} (representable : lock.Representable) :
    Unbroken lock.text := by
  cases representable with
  | programWide name isName => exact isName.newline_notMem
  | byExpression name expr isName isExpr =>
    rw [Lock.text, if_neg isExpr.1]
    simp only [unbroken_append_iff]
    exact ⟨⟨⟨isName.newline_notMem, by simp [Unbroken]⟩, isExpr.newline_notMem⟩,
      by simp [Unbroken]⟩

namespace Holdings

/-- Some holdings end in a bracket. -/
theorem text_ends_of_held (holdings : Holdings) (held : holdings.entries ≠ []) :
    ∃ front, holdings.text = front ++ "]" := by
  have ends : ∀ entries : List (Lock × Nat), entries ≠ [] →
      ∃ front, ", ".intercalate (entries.map entryText) = front ++ "]" := by
    intro entries someEntry
    induction entries with
    | nil => exact absurd rfl someEntry
    | cons entry rest inductionHypothesis =>
      cases rest with
      | nil => exact ⟨_, rfl⟩
      | cons next later =>
        obtain ⟨front, behind⟩ := inductionHypothesis (List.cons_ne_nil _ _)
        refine ⟨entryText entry ++ ", " ++ front, ?_⟩
        rw [List.map_cons, List.map_cons, String.intercalate_cons_cons, ← List.map_cons, behind]
        simp only [String.append_assoc]
  rw [text, if_neg (by simpa [isEmpty] using held)]
  exact ends _ held

/-- Holdings end in a bracket, unless they are none. -/
theorem text_ends (holdings : Holdings) :
    holdings.text = "Without locks" ∨ ∃ front, holdings.text = front ++ "]" := by
  by_cases held : holdings.entries = []
  · apply Or.inl
    rw [text, if_pos (by simp [isEmpty, held])]
  · exact Or.inr (holdings.text_ends_of_held held)

/-- Holdings of locks that can be written are shown in one line. -/
theorem unbroken_text {holdings : Holdings}
    (named : ∀ entry ∈ holdings.entries, entry.1.Representable) : Unbroken holdings.text := by
  rw [text]
  split
  next => simp [Unbroken]
  next =>
    apply unbroken_intercalate (by simp [Unbroken])
    intro shown member
    obtain ⟨entry, listed, rfl⟩ := List.mem_map.mp member
    simp only [entryText, unbroken_append_iff]
    exact ⟨⟨⟨(named entry listed).unbroken_text, by simp [Unbroken]⟩, unbroken_toString _⟩,
      by simp [Unbroken]⟩

/-- No line that ends in holdings ends in the mark of an unchanged state. -/
theorem not_marked (holdings : Holdings) (front : String) :
    ¬ " (unchanged)".toList <:+ (front ++ holdings.text).toList := by
  rintro ⟨before, marked⟩
  have last := congrArg List.getLast? marked
  rcases holdings.text_ends with nothing | ⟨start, some⟩
  · simp [nothing] at last
  · simp [some] at last

end Holdings

/-! ## The states of a trace -/

/-- An effect that can be written brings no other locks but such that can. -/
theorem Effect.Representable.respects {bound : Int} {effect : Effect}
    (representable : effect.Representable bound) :
    effect.Respects fun lock _ => lock.Representable := by
  intro lock about held _ _
  cases effect with
  | acquire target carried | assign target count | check target count expected =>
    obtain rfl : target = lock := Option.some.inj about
    exact representable.1
  | release target | forget target | restore target =>
    obtain rfl : target = lock := Option.some.inj about
    exact representable
  | restoreAll | forgetAll | save => cases about

/-- Whatever state the replay of a text leads to, its holdings are canonical and of locks that can
be written. -/
theorem Trace.named_of_replay {bound : Int} {text : String} {steps : List Step}
    (read : parse bound text = .ok steps) {serial fresh : Nat} {outcomes : List (Option State)}
    (ran : replay fresh (.empty serial) steps = .ok outcomes) {state : State}
    (reached : some state ∈ outcomes) :
    state.holdings.Canonical ∧ ∀ entry ∈ state.holdings.entries, entry.1.Representable := by
  have representable := representable_of_parse bound text steps read
  obtain ⟨canonical, within⟩ := within_of_replay (fun step formed effect member =>
    (representable _ (List.mem_map_of_mem formed) effect member).respects) ran reached
  have holdings := canonical state.toSnapshot List.mem_cons_self
  refine ⟨holdings, fun entry listed => ?_⟩
  apply within state.toSnapshot List.mem_cons_self
  rw [holdings.count_of_mem listed]
  exact holdings.positive entry listed

/-- So it is where the replay ends. -/
theorem Trace.named_of_exit? {bound : Int} {text : String} {steps : List Step}
    (read : parse bound text = .ok steps) {serial fresh : Nat} {outcomes : List (Option State)}
    (ran : replay fresh (.empty serial) steps = .ok outcomes) {last : State}
    (ends : exit? (.empty serial) outcomes = some last) :
    last.holdings.Canonical ∧ ∀ entry ∈ last.holdings.entries, entry.1.Representable := by
  rcases eq_or_mem_of_exit? ends with rfl | reached
  · exact ⟨Holdings.Canonical.empty, List.forall_mem_nil _⟩
  · exact named_of_replay read ran reached

/-- In a session, a state that a batch leads to is the very state before exactly if it is the same
as that one, and exactly if no level has changed. -/
theorem Session.WellFormed.identical_after_iff_same {session : Session}
    (wellFormed : session.WellFormed) {state next : State} (made : state ∈ session.states)
    {effects : List Effect} (ran : state.after session.fresh effects = .ok (some next)) :
    (next.identical state = true ↔ next.same state = true) ∧
      (next.same state = true ↔ next.levels = state.levels) := by
  obtain ⟨laterWellFormed, nextMade, _⟩ := wellFormed.record_after made effects ran
  have same := laterWellFormed.same_iff nextMade (subset_record session next made)
  exact ⟨(wellFormed.identical_after_iff made ran).trans same.symm, same⟩

/-! ## Transcripts -/

namespace CommandLine

/-- Lines, each with a line feed behind it. -/
def ofLines (lines : List String) : String := String.join (lines.map (· ++ "\n"))

/-- A text of lines starts with the first line and its end. -/
theorem ofLines_cons (line : String) (lines : List String) :
    ofLines (line :: lines) = line ++ "\n" ++ ofLines lines := by
  rw [ofLines, List.map_cons, String.join_cons, ofLines]

/-- Texts of lines are joined by joining the lines. -/
theorem ofLines_append (lines others : List String) :
    ofLines (lines ++ others) = ofLines lines ++ ofLines others := by
  rw [ofLines, List.map_append, String.join_append, ofLines, ofLines]

/-- Whether a line shows the outcome of the step with a number, taken from a state. A state ends in
the mark exactly if it is the same as the one before, which is to hold the same at every level. -/
def Shows (line : String) (number : Nat) (before : State) : Option State → Prop
  | none => line = "line " ++ toString number ++ ": infeasible"
  | some state =>
    line = "line " ++ toString number ++ ": " ++ state.text ++
        (if state.same before then " (unchanged)" else "") ∧
      (" (unchanged)".toList <:+ line.toList ↔ state.same before = true) ∧
      (state.same before = true ↔ state.levels = before.levels)

/-- Whether lines show the outcomes of a replay from a state: one line for each, in their order,
with the step that it is the outcome of and the state before that step. -/
def ShowsAll (start : State) (steps : List Trace.Step) (outcomes : List (Option State))
    (lines : List String) : Prop :=
  lines.length = outcomes.length ∧
    ∀ (index : Nat) (outcome : Option State), outcomes[index]? = some outcome →
      ∃ line step before, lines[index]? = some line ∧ steps[index]? = some step ∧
        (some start :: outcomes)[index]? = some (some before) ∧ Shows line step.line before outcome

/-- Lines show a replay if the first shows the first step and the others show the rest. -/
theorem showsAll_cons {start next : State} {step : Trace.Step} {steps : List Trace.Step}
    {outcomes : List (Option State)} {line : String} {lines : List String}
    (first : Shows line step.line start (some next)) (rest : ShowsAll next steps outcomes lines) :
    ShowsAll start (step :: steps) (some next :: outcomes) (line :: lines) := by
  obtain ⟨length, shown⟩ := rest
  refine ⟨congrArg (· + 1) length, ?_⟩
  intro index outcome found
  cases index with
  | zero =>
    obtain rfl := Option.some.inj found
    exact ⟨line, step, start, rfl, rfl, rfl, first⟩
  | succ index => exact shown index outcome found

/-- Where the last outcome is that the path is ruled out, the last line says so of its step. -/
theorem ShowsAll.getLast?_eq {start : State} {steps : List Trace.Step}
    {outcomes : List (Option State)} {lines : List String}
    (shows : ShowsAll start steps outcomes lines) (last : outcomes.getLast? = some none) :
    ∃ step, steps[outcomes.length - 1]? = some step ∧
      lines.getLast? = some ("line " ++ toString step.line ++ ": infeasible") := by
  obtain ⟨length, each⟩ := shows
  rw [List.getLast?_eq_getElem?] at last
  obtain ⟨line, step, before, here, number, _, shown⟩ := each _ _ last
  refine ⟨step, number, ?_⟩
  rw [List.getLast?_eq_getElem?, length, here]
  exact congrArg some shown

/-- The line of a step shows its outcome. -/
theorem exists_stepLine_eq {session : Session} (wellFormed : session.WellFormed) {before : State}
    (made : before ∈ session.states) (step : Trace.Step) {outcome : Option State}
    (ran : before.after session.fresh step.effects = .ok outcome)
    (unbroken : ∀ state ∈ outcome, Unbroken state.text) :
    ∃ line, stepLine step.line before outcome = line ++ "\n" ∧ Unbroken line ∧
      Shows line step.line before outcome := by
  cases outcome with
  | none =>
    refine ⟨"line " ++ toString step.line ++ ": infeasible", ?_, ?_, rfl⟩
    · simp [stepLine, String.append_assoc]
    · simp only [unbroken_append_iff]
      exact ⟨⟨by simp [Unbroken], unbroken_toString _⟩, by simp [Unbroken]⟩
  | some next =>
    obtain ⟨shared, same⟩ := wellFormed.identical_after_iff_same made ran
    refine ⟨"line " ++ toString step.line ++ ": " ++ next.text ++
      (if next.same before then " (unchanged)" else ""), ?_, ?_, rfl, ?_, same⟩
    · rw [stepLine, Bool.eq_iff_iff.mpr shared]
    · simp only [unbroken_append_iff]
      refine ⟨⟨⟨⟨by simp [Unbroken], unbroken_toString _⟩, by simp [Unbroken]⟩,
        unbroken next rfl⟩, ?_⟩
      split <;> simp [Unbroken]
    · cases next.same before with
      | true =>
        rw [if_pos rfl, String.toList_append]
        exact iff_of_true (List.suffix_append _ _) rfl
      | false =>
        rw [if_neg Bool.false_ne_true, String.append_empty]
        exact iff_of_false (next.holdings.not_marked _) Bool.false_ne_true

/-- The lines of the steps show the outcomes of a replay in a session. -/
theorem exists_stepLines_eq {session : Session} (wellFormed : session.WellFormed) {before : State}
    (made : before ∈ session.states) {steps : List Trace.Step} {outcomes : List (Option State)}
    (ran : Trace.replay session.fresh before steps = .ok outcomes)
    (unbroken : ∀ state, some state ∈ outcomes → Unbroken state.text) :
    ∃ lines, stepLines before (steps.zip outcomes) = ofLines lines ∧
      (∀ line ∈ lines, Unbroken line) ∧ ShowsAll before steps outcomes lines := by
  induction steps generalizing session before outcomes with
  | nil =>
    obtain rfl := Except.ok.inj ran
    exact ⟨[], rfl, List.forall_mem_nil _, rfl, fun index outcome found => by simp at found⟩
  | cons step rest inductionHypothesis =>
    rcases Trace.replay_cons_cases ran with ⟨stepped, rfl⟩ | ⟨next, later, stepped, nextRan, rfl⟩
    · -- The path is ruled out, so the steps that are left have neither outcomes nor lines.
      obtain ⟨line, written, whole, shown⟩ := exists_stepLine_eq wellFormed made step stepped
        fun state absent => absurd absent (Option.not_mem_none state)
      refine ⟨[line], ?_, List.forall_mem_singleton.mpr whole, rfl, ?_⟩
      · rw [List.zip_cons_cons, List.zip_nil_right, stepLines, written, ofLines_cons]
        rfl
      · intro index outcome found
        cases index with
        | zero =>
          obtain rfl := Option.some.inj found
          exact ⟨line, step, before, rfl, rfl, rfl, shown⟩
        | succ index => simp at found
    · obtain ⟨nextWellFormed, nextMade, nextFresh⟩ :=
        wellFormed.record_after made step.effects stepped
      rw [← nextFresh] at nextRan
      obtain ⟨line, written, whole, shown⟩ := exists_stepLine_eq wellFormed made step stepped
        fun state reached => unbroken state (reached ▸ List.mem_cons_self)
      obtain ⟨lines, othersWritten, others, rest⟩ := inductionHypothesis nextWellFormed nextMade
        nextRan fun state reached => unbroken state (List.mem_cons_of_mem _ reached)
      refine ⟨line :: lines, ?_, List.forall_mem_cons.mpr ⟨whole, others⟩,
        showsAll_cons shown rest⟩
      rw [List.zip_cons_cons, stepLines, written, Option.getD_some, othersWritten, ofLines_cons]

/-- Whether a line shows how to come by the given holdings: with an acquisition for every count of
every held lock, in the order of the locks, and with a word if no lock is held. -/
def ShowsDifference (line : String) (held : Holdings) : Prop :=
  ∃ locks : List Lock, locks.Pairwise (· < ·) ∧ (∀ lock, lock ∈ locks ↔ 0 < held.count lock) ∧
    line = "difference:" ++
      if locks = [] then " none"
      else String.join (locks.flatMap fun lock =>
        List.replicate (held.count lock) (" Acquire(" ++ lock.text ++ ")"))

/-- From no locks, a difference acquires every lock as often as it is wanted. -/
theorem difference_empty {wanted : Holdings} (canonical : wanted.Canonical) :
    Holdings.empty.difference wanted = (wanted.entries.map Prod.fst).flatMap fun lock =>
      List.replicate (wanted.count lock) (.acquire lock 0) := by
  have lacking : (wanted.entries.filter fun entry => entry.1 ∉ Holdings.empty) =
      wanted.entries :=
    List.filter_eq_self.mpr fun entry _ => decide_eq_true List.not_mem_nil
  have nothing : (Holdings.empty.entries.flatMap fun entry =>
      Holdings.steps entry.1 entry.2 (wanted.count entry.1)) = [] := rfl
  rw [Holdings.difference, lacking, nothing, List.nil_append, List.flatMap_map]
  apply List.flatMap_congr
  intro entry listed
  rw [canonical.count_of_mem listed, Holdings.steps, Nat.zero_sub, List.replicate_zero,
    List.nil_append, Nat.sub_zero]

/-- The line for the difference shows it. -/
theorem exists_differenceLine_eq {held : Holdings} (canonical : held.Canonical)
    (named : ∀ entry ∈ held.entries, entry.1.Representable) :
    ∃ line, differenceLine (Holdings.empty.difference held) = line ++ "\n" ∧ Unbroken line ∧
      ShowsDifference line held := by
  have positive : ∀ lock ∈ held.entries.map Prod.fst, 0 < held.count lock :=
    fun lock => (canonical.mem_iff_count_pos lock).mp
  have noEffect : (Holdings.empty.difference held).isEmpty = true ↔
      held.entries.map Prod.fst = [] := by
    rw [List.isEmpty_iff, difference_empty canonical, List.flatMap_eq_nil_iff]
    constructor
    · intro all
      apply List.eq_nil_iff_forall_not_mem.mpr
      intro lock listed
      have none := congrArg List.length (all lock listed)
      rw [List.length_replicate] at none
      exact Nat.ne_of_gt (positive lock listed) none
    · intro none
      rw [none]
      exact List.forall_mem_nil _
  have texts : (Holdings.empty.difference held).map (fun effect => " " ++ effect.text) =
      (held.entries.map Prod.fst).flatMap fun lock =>
        List.replicate (held.count lock) (" Acquire(" ++ lock.text ++ ")") := by
    rw [difference_empty canonical, List.map_flatMap]
    apply List.flatMap_congr
    intro lock _
    rw [List.map_replicate, Effect.text, ← String.append_assoc, ← String.append_assoc]
    rfl
  refine ⟨_, ?_, ?_, held.entries.map Prod.fst, canonical.ascending_locks,
    canonical.mem_iff_count_pos, rfl⟩
  · rw [differenceLine, texts]
    simp only [noEffect]
  · rw [unbroken_append_iff]
    refine ⟨by simp [Unbroken], ?_⟩
    split
    next => simp [Unbroken]
    next =>
      apply unbroken_join
      intro text member
      obtain ⟨lock, listed, repeated⟩ := List.mem_flatMap.mp member
      obtain ⟨entry, isEntry, rfl⟩ := List.mem_map.mp listed
      rw [List.eq_of_mem_replicate repeated]
      simp only [unbroken_append_iff]
      exact ⟨⟨by simp [Unbroken], (named entry isEntry).unbroken_text⟩, by simp [Unbroken]⟩

/-- What is written after the steps of a replay that has an exit. -/
theorem exists_closing_eq (options : Options) {held : Holdings} (canonical : held.Canonical)
    (named : ∀ entry ∈ held.entries, entry.1.Representable) :
    ∃ closing,
      (if options.printDifference then differenceLine (Holdings.empty.difference held) else "") =
          ofLines closing ∧
        (∀ line ∈ closing, Unbroken line) ∧
        if options.printDifference then ∃ line, closing = [line] ∧ ShowsDifference line held
        else closing = [] := by
  split
  next =>
    obtain ⟨line, written, unbroken, shows⟩ := exists_differenceLine_eq canonical named
    refine ⟨[line], ?_, List.forall_mem_singleton.mpr unbroken, line, rfl, shows⟩
    rw [written, ofLines_cons]
    exact (String.append_empty).symm
  next => exact ⟨[], rfl, List.forall_mem_nil _, rfl⟩

/-- With counts of any size, the command shows the replay of a text. -/
theorem run_shows_replay (options : Options) (nonneg : 0 ≤ options.maxRecursion) {text : String}
    {steps : List Trace.Step} (read : Trace.parse options.maxRecursion text = .ok steps) :
    ∃ outcomes shown closing,
      Trace.replay 1 (.empty 0) steps = .ok outcomes ∧
      run options (.ok text) = report options (.empty 0) steps outcomes ∧
      run options (.ok text) =
        { exitCode := if none ∈ outcomes then 2 else 0
          output := ofLines ("initial: Without locks" :: shown ++ closing)
          errors := "" } ∧
      (∀ line ∈ "initial: Without locks" :: shown ++ closing, Unbroken line) ∧
      ShowsAll (.empty 0) steps outcomes shown ∧
      (none ∈ outcomes →
        closing = [] ∧ ∃ step, steps[outcomes.length - 1]? = some step ∧
          shown.getLast? = some ("line " ++ toString step.line ++ ": infeasible")) ∧
      (none ∉ outcomes →
        outcomes.length = steps.length ∧
        ∃ last, Trace.exit? (.empty 0) outcomes = some last ∧
          if options.printDifference
          then ∃ line, closing = [line] ∧ ShowsDifference line last.holdings
          else closing = []) := by
  have accepted : ¬ options.maxRecursion < 0 := Int.not_lt.mpr nonneg
  obtain ⟨outcomes, ran⟩ :=
    Trace.replay_of_valid 1 (.empty 0) (Trace.valid_of_parse read)
  have started : State.empty 0 ∈ Session.start.states := List.mem_cons_self
  obtain ⟨shown, written, unbroken, showsAll⟩ :=
    exists_stepLines_eq Session.wellFormed_start started ran fun state reached =>
      Holdings.unbroken_text (Trace.named_of_replay read ran reached).2
  have first : initialLine (.empty 0) = ofLines ["initial: Without locks"] := rfl
  have firstUnbroken : Unbroken "initial: Without locks" := by simp [Unbroken]
  have reported : run options (.ok text) = report options (.empty 0) steps outcomes := by
    have fresh : (State.empty 0).nextFresh 0 = 1 := rfl
    simp only [run, if_neg accepted, replayText, read, fresh, ran]
  cases ends : Trace.exit? (.empty 0) outcomes with
  | none =>
    have last := Trace.getLast?_of_exit? ends
    have ruledOut : none ∈ outcomes := List.mem_of_getLast? last
    refine ⟨outcomes, shown, [], ran, reported, ?_, ?_, showsAll,
      fun _ => ⟨rfl, showsAll.getLast?_eq last⟩, fun feasible => absurd ruledOut feasible⟩
    · have ends : lastState? (.empty 0) outcomes = none := ends
      rw [reported, report, ends, if_pos ruledOut, written, first, ← ofLines_append,
        List.append_nil]
      rfl
    · rw [List.append_nil]
      exact List.forall_mem_cons.mpr ⟨firstUnbroken, unbroken⟩
  | some last =>
    obtain ⟨feasible, length⟩ := Trace.feasible_of_exit? ran ends
    obtain ⟨canonical, named⟩ := Trace.named_of_exit? read ran ends
    obtain ⟨closing, closed, closingUnbroken, shows⟩ := exists_closing_eq options canonical named
    refine ⟨outcomes, shown, closing, ran, reported, ?_, ?_, showsAll, fun ruledOut =>
      absurd ruledOut feasible, fun _ => ⟨length, last, ends, shows⟩⟩
    · have ends : lastState? (.empty 0) outcomes = some last := ends
      have noLocks : (State.empty 0).holdings = .empty := rfl
      simp only [reported, report, ends, noLocks, closed, written, first, ← ofLines_append,
        if_neg feasible, List.singleton_append]
    · exact List.forall_mem_append.mpr
        ⟨List.forall_mem_cons.mpr ⟨firstUnbroken, unbroken⟩, closingUnbroken⟩

/-! ## On counters of 32 bits -/

/-- Read a trace and replay it, on counters of 32 bits. -/
def replayTextOnWords? (options : Options) (text : String) : Option Outcome :=
  match Trace.parse options.maxRecursion text with
  | .error error => some (failure (options.inputName ++ ": " ++ error.message))
  | .ok steps =>
    let initial := State.empty 0
    (Trace.replayOnWords? (initial.nextFresh 0) initial steps).map fun outcomes =>
      report options initial steps outcomes

/-- Run the command on what was read of its input, on counters of 32 bits. -/
def runOnWords? (options : Options) (contents : Except ReadFailure String) : Option Outcome :=
  if options.maxRecursion < 0 then some (failure "--max-recursion must not be negative")
  else match contents with
    | .error reason =>
      some (failure ("cannot read '" ++ options.inputName ++ "': " ++ reason.message))
    | .ok text => replayTextOnWords? options text

/-- On counters of 32 bits the command leaves the range exactly if the replay of a text that is
read does, and otherwise leaves behind what it leaves behind. -/
theorem runOnWords?_eq (options : Options) (nonneg : 0 ≤ options.maxRecursion) {text : String}
    {steps : List Trace.Step} (read : Trace.parse options.maxRecursion text = .ok steps) :
    (Trace.Overflows 1 (.empty 0) steps → runOnWords? options (.ok text) = none) ∧
      (¬ Trace.Overflows 1 (.empty 0) steps →
        runOnWords? options (.ok text) = some (run options (.ok text))) := by
  have accepted : ¬ options.maxRecursion < 0 := Int.not_lt.mpr nonneg
  have fresh : (State.empty 0).nextFresh 0 = 1 := rfl
  obtain ⟨outcomes, _, _, ran, reported, _⟩ := run_shows_replay options nonneg read
  obtain ⟨leaves, stays⟩ :=
    Trace.replayOnWords?_eq (State.fits_empty 0) (Trace.fits_of_parse read) ran
  have replayed : runOnWords? options (.ok text) =
      (Trace.replayOnWords? 1 (.empty 0) steps).map fun outcomes =>
        report options (.empty 0) steps outcomes := by
    simp only [runOnWords?, if_neg accepted, replayTextOnWords?, read, fresh]
  constructor
  · intro overflows
    rw [replayed, leaves overflows]
    rfl
  · intro fitting
    rw [replayed, (stays fitting).1, reported]
    rfl

/-- What the replay command leaves behind, for every text and every bound that is not negative, on
counters of 32 bits. If the text is no trace, it is an exit code and the first fault, on the
standard error. If it is one, the command leaves the range of counters exactly if its replay
reaches an acquisition that no bound stops and that meets its lock at the largest counter, which
with a positive bound in range it never does. Otherwise nothing is on the standard error, and the
standard output has a line for the state without locks and one line for every step that was taken,
with the ascending numbers of these. A line is marked exactly if the state is the same as the one
before. Only if a step rules the path out is the exit code two, and then the last line is that of
the step. Else it is zero, every step was taken, and if it is asked for, one more line says how
often each lock that is held at the end would have to be acquired.

Proof: a replay of valid effects is not refused, and the lines of its steps show its outcomes by
induction on the steps, along the session that the states are recorded in. The locks of all states
are named by words of the text, which is kept from step to step. As long as nothing overflows, the
replay on counters has the same outcomes. -/
theorem replay_command_transcript (options : Options) (nonneg : 0 ≤ options.maxRecursion)
    (text : String) :
    (∀ error, Trace.parse options.maxRecursion text = .error error →
      runOnWords? options (.ok text) = some (run options (.ok text)) ∧
      run options (.ok text) =
        { exitCode := 1
          output := ""
          errors := "lock-replay: " ++ options.inputName ++ ": " ++ error.message ++ "\n" }) ∧
    ∀ steps, Trace.parse options.maxRecursion text = .ok steps →
      (steps.map Trace.Step.line).Pairwise (· < ·) ∧
      (Trace.Overflows 1 (.empty 0) steps → runOnWords? options (.ok text) = none) ∧
      (0 < options.maxRecursion → options.maxRecursion ≤ Trace.maxCounter →
        ¬ Trace.Overflows 1 (.empty 0) steps) ∧
      (¬ Trace.Overflows 1 (.empty 0) steps →
        ∃ outcomes shown closing,
          Trace.replayOnWords? 1 (.empty 0) steps = some outcomes ∧
          Trace.replay 1 (.empty 0) steps = .ok outcomes ∧
          runOnWords? options (.ok text) = some (run options (.ok text)) ∧
          run options (.ok text) =
            { exitCode := if none ∈ outcomes then 2 else 0
              output := ofLines ("initial: Without locks" :: shown ++ closing)
              errors := "" } ∧
          (∀ line ∈ "initial: Without locks" :: shown ++ closing, Unbroken line) ∧
          ShowsAll (.empty 0) steps outcomes shown ∧
          (none ∈ outcomes →
            closing = [] ∧ ∃ step, steps[outcomes.length - 1]? = some step ∧
              shown.getLast? = some ("line " ++ toString step.line ++ ": infeasible")) ∧
          (none ∉ outcomes →
            outcomes.length = steps.length ∧
            ∃ last, Trace.exit? (.empty 0) outcomes = some last ∧
              if options.printDifference
              then ∃ line, closing = [line] ∧ ShowsDifference line last.holdings
              else closing = [])) := by
  constructor
  · intro error refused
    have accepted : ¬ options.maxRecursion < 0 := Int.not_lt.mpr nonneg
    constructor
    · simp only [runOnWords?, run, if_neg accepted, replayTextOnWords?, replayText, refused]
    · simp only [run, if_neg accepted, replayText, refused, failure, String.append_assoc]
  · intro steps read
    obtain ⟨leaves, stays⟩ := runOnWords?_eq options nonneg read
    refine ⟨Trace.ascending_of_parse read, leaves, fun positive inRange =>
      Trace.not_overflows_of_bounded positive inRange read 1 _, fun fitting => ?_⟩
    obtain ⟨outcomes, shown, closing, ran, _, left, unbroken, showsAll, ruledOut, feasible⟩ :=
      run_shows_replay options nonneg read
    obtain ⟨_, staysInRange⟩ :=
      Trace.replayOnWords?_eq (State.fits_empty 0) (Trace.fits_of_parse read) ran
    exact ⟨outcomes, shown, closing, (staysInRange fitting).1, ran, stays fitting, left, unbroken,
      showsAll, ruledOut, feasible⟩

/-- A step that opens a call is not marked, though no count has changed. -/
theorem opened_call_not_marked :
    ∃ outcomes shown closing,
      ShowsAll (.empty 0)
          [⟨2, [.acquire (.ofExpr "a" "b") 2]⟩, ⟨4, [.release (.ofName "c")]⟩, ⟨5, [.save]⟩]
          outcomes shown ∧
        runOnWords? { maxRecursion := 2, printDifference := true } (.ok
            "acquire a b\ncommit\nrelease c\ncommit # nothing to release\nsave-state") =
          some
            { exitCode := 0
              output := ofLines ("initial: Without locks" :: shown ++ closing)
              errors := "" } ∧
        ofLines ("initial: Without locks" :: shown ++ closing) =
          "initial: Without locks\nline 2: a(b)[1]\nline 4: a(b)[1] (unchanged)\n" ++
            "line 5: a(b)[1]\ndifference: Acquire(a(b))\n" := by
  obtain ⟨_, _, bounded, stays⟩ :=
    (replay_command_transcript { maxRecursion := 2, printDifference := true } (by decide)
      "acquire a b\ncommit\nrelease c\ncommit # nothing to release\nsave-state").2
      [⟨2, [.acquire (.ofExpr "a" "b") 2]⟩, ⟨4, [.release (.ofName "c")]⟩, ⟨5, [.save]⟩] rfl
  obtain ⟨outcomes, shown, closing, _, ran, same, left, _, shows, _⟩ :=
    stays (bounded (by decide) (by decide))
  have feasible : none ∉ outcomes := by
    obtain rfl := Except.ok.inj (Eq.trans (by rfl) ran)
    decide
  rw [if_neg feasible] at left
  exact ⟨outcomes, shown, closing, shows, same.trans (congrArg some left),
    (congrArg Outcome.output left).symm.trans (by rfl)⟩

end CommandLine

end HeldLocks
