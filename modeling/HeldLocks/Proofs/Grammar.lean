import HeldLocks.Proofs.RoundTrip

/-!
# The grammar of traces

A line of a trace means a directive if its words are a keyword with the operands that belong to
it (`Means`). A line without words means nothing and is as good. Of every other line there is one
thing to blame (`Blames`), and where several are wrong it is the first in a fixed order: the
keyword, the number of operands, the counter, the truth value. Both relations speak of words and
not of how words are read.

The reader follows them exactly. It reads from words what they mean
(`readLine_eq_ok_some_iff`), and refuses them with the fault that they are blamed for
(`readLine_eq_error_iff`). So a text is read if all of its lines are well formed, and if not, its
first line that is not decides the error, whatever follows.
-/

namespace HeldLocks.Trace

/-! ## What words mean -/

/-- The words that name a lock. -/
inductive Names : List String → Lock → Prop where
  | ofName (name : String) : Names [name] (.ofName name)
  | ofExpr (name expr : String) : Names [name, expr] (.ofExpr name expr)

/-- Decimal digits spell an integer, and with a minus sign in front of them its opposite. -/
def SpellsInteger (chars : List Char) (value : Int) : Prop :=
  ∃ digits, digits ≠ [] ∧ (∀ digit ∈ digits, digit.isDigit = true) ∧
    (chars = digits ∧ value = Nat.ofDigitChars 10 digits 0 ∨
      chars = '-' :: digits ∧ value = -(Nat.ofDigitChars 10 digits 0 : Int))

/-- A counter is spelled as an integer, which must not be negative and must fit a signed word of
    32 bits. -/
def SpellsCounter (word : String) (count : Nat) : Prop :=
  SpellsInteger word.toList count ∧ count ≤ 2147483647

/-- The words of a line mean a directive. All acquisitions carry the given bound. -/
inductive Means (bound : Int) : List String → Directive → Prop where
  | acquire {words : List String} {lock : Lock} (names : Names words lock) :
    Means bound ("acquire" :: words) (.effect (.acquire lock bound))
  | release {words : List String} {lock : Lock} (names : Names words lock) :
    Means bound ("release" :: words) (.effect (.release lock))
  | forget {words : List String} {lock : Lock} (names : Names words lock) :
    Means bound ("reset" :: words) (.effect (.forget lock))
  | assign {words : List String} {lock : Lock} {counter : String} {count : Nat}
    (names : Names words lock) (spells : SpellsCounter counter count) :
    Means bound ("set" :: (words ++ [counter])) (.effect (.assign lock count))
  | restore {words : List String} {lock : Lock} (names : Names words lock) :
    Means bound ("restore" :: words) (.effect (.restore lock))
  | check {words : List String} {lock : Lock} {counter : String} {count : Nat}
    (names : Names words lock) (spells : SpellsCounter counter count) (expected : Bool) :
    Means bound ("check" :: (words ++ [counter, toString expected]))
      (.effect (.check lock count expected))
  | restoreAll : Means bound ["restore-all"] (.effect .restoreAll)
  | forgetAll : Means bound ["reset-all"] (.effect .forgetAll)
  | save : Means bound ["save-state"] (.effect .save)
  | commit : Means bound ["commit"] .commit

/-! ## What words are blamed for -/

/-- The keywords of the directives that stand alone. -/
def loneKeywords : List String := ["restore-all", "reset-all", "save-state", "commit"]

/-- The keywords of the directives about one lock, each with the number of words that follow
    those of the lock. -/
def lockKeywords : List (String × Nat) :=
  [("acquire", 0), ("release", 0), ("reset", 0), ("set", 1), ("restore", 0), ("check", 2)]

/-- The fault that the words of a line are blamed for. Whatever is the matter with a word counts
    only if nothing is that comes before it in the order of the constructors. -/
inductive Blames : List String → Fault → Prop where
  | keyword {keyword : String} {operands : List String} (notLone : keyword ∉ loneKeywords)
    (notAboutLock : keyword ∉ lockKeywords.map Prod.fst) :
    Blames (keyword :: operands) (.unknownDirective keyword)
  | operands {keyword : String} {operands : List String} (lone : keyword ∈ loneKeywords)
    (someOperand : operands ≠ []) :
    Blames (keyword :: operands) (.unexpectedOperands keyword)
  | operandCount {keyword : String} {values : Nat} {operands : List String}
    (aboutLock : (keyword, values) ∈ lockKeywords) (notOneWord : operands.length ≠ 1 + values)
    (notTwoWords : operands.length ≠ 2 + values) :
    Blames (keyword :: operands) (.operandCount keyword)
  | counter {keyword : String} {words : List String} {lock : Lock} {counter : String}
    {others : List String} (aboutLock : (keyword, 1 + others.length) ∈ lockKeywords)
    (names : Names words lock) (noCounter : ∀ count, ¬ SpellsCounter counter count) :
    Blames (keyword :: (words ++ counter :: others)) (.invalidCounter counter)
  | truth {words : List String} {lock : Lock} {counter truth : String} {count : Nat}
    (names : Names words lock) (spells : SpellsCounter counter count)
    (noTruth : ∀ expected : Bool, truth ≠ toString expected) :
    Blames ("check" :: (words ++ [counter, truth])) (.invalidTruth truth)

/-! ## Counters -/

/-- Digits are read as a number exactly if there are some, and they then spell that number. -/
theorem digitsValue?_eq_some_iff (digits : List Char) (number : Nat) :
    digitsValue? digits = some number ↔ digits ≠ [] ∧
      (∀ digit ∈ digits, digit.isDigit = true) ∧ Nat.ofDigitChars 10 digits 0 = number := by
  simp only [digitsValue?, List.all_eq_true, Option.ite_none_right_eq_some, Option.some.injEq,
    and_assoc]

/-- The integer that is read is the one that is spelled. A minus sign is no digit, so it is clear
    which of the two ways it is. -/
theorem integerValue?_eq_some_iff (chars : List Char) (value : Int) :
    integerValue? chars = some value ↔ SpellsInteger chars value := by
  have unsigned (digits : List Char) (decimal : ∀ digit ∈ '-' :: digits, digit.isDigit = true) :
      False :=
    absurd (decimal '-' List.mem_cons_self) (by decide)
  unfold integerValue?
  split
  next digits =>
    simp only [Option.map_eq_some_iff, Option.bind_eq_bind, Option.bind_eq_some_iff,
      Option.pure_def, Option.some.injEq, digitsValue?_eq_some_iff]
    constructor
    · rintro ⟨_, ⟨_, ⟨nonempty, decimal, rfl⟩, rfl⟩, rfl⟩
      exact ⟨digits, nonempty, decimal, Or.inr ⟨rfl, rfl⟩⟩
    · rintro ⟨others, nonempty, decimal, ⟨rfl, _⟩ | ⟨same, rfl⟩⟩
      · exact (unsigned digits decimal).elim
      · obtain ⟨_, rfl⟩ := List.cons.inj same
        exact ⟨_, ⟨_, ⟨nonempty, decimal, rfl⟩, rfl⟩, rfl⟩
  next noSign =>
    simp only [Option.map_eq_some_iff, Option.bind_eq_bind, Option.bind_eq_some_iff,
      Option.pure_def, Option.some.injEq, digitsValue?_eq_some_iff]
    constructor
    · rintro ⟨_, ⟨_, ⟨nonempty, decimal, rfl⟩, rfl⟩, rfl⟩
      exact ⟨chars, nonempty, decimal, Or.inl ⟨rfl, rfl⟩⟩
    · rintro ⟨digits, nonempty, decimal, ⟨rfl, rfl⟩ | ⟨signed, _⟩⟩
      · exact ⟨_, ⟨_, ⟨nonempty, decimal, rfl⟩, rfl⟩, rfl⟩
      · exact (noSign digits signed).elim

/-- The counter that is read from a word is the one that it spells. -/
theorem readCounter?_eq_some_iff (word : String) (count : Nat) :
    readCounter? word = some count ↔ SpellsCounter word count := by
  rw [readCounter?, SpellsCounter, ← integerValue?_eq_some_iff]
  cases integerValue? word.toList with
  | none => simp only [reduceCtorEq, false_and]
  | some value =>
    dsimp only
    rw [Option.ite_none_right_eq_some]
    simp only [maxCounter, Option.some.injEq]
    omega

/-- A word that spells a counter is read as it. -/
theorem requireCounter_of_spells {word : String} {count : Nat} (spells : SpellsCounter word count) :
    requireCounter word = .ok count := by
  rw [requireCounter, (readCounter?_eq_some_iff word count).mpr spells]

/-- A word that spells none is refused with its own text. -/
theorem requireCounter_of_none {word : String} (noCounter : ∀ count, ¬ SpellsCounter word count) :
    requireCounter word = .error (.invalidCounter word) := by
  have nothing : readCounter? word = none := Option.eq_none_iff_forall_ne_some.mpr
    fun count read => noCounter count ((readCounter?_eq_some_iff word count).mp read)
  rw [requireCounter, nothing]

/-! ## The reader follows the grammar -/

/-- A form that takes a lock takes its words. -/
theorem Form.read_of_names (keyword : String) (make : Lock → Effect) {words : List String}
    {lock : Lock} (names : Names words lock) :
    (withLock make).read keyword words = .ok (.effect (make lock)) := by
  cases names <;> rfl

/-- What words mean is read from them. -/
theorem readLine_of_means {bound : Int} {words : List String} {directive : Directive}
    (means : Means bound words directive) : readLine bound words = .ok (some directive) := by
  cases means with
  | acquire names | release names | forget names | restore names =>
    exact readLine_of_read bound _ _ _ _ rfl (Form.read_of_names _ _ names)
  | @assign words lock counter count names spells =>
    have read : (Form.withCounter (.assign · ·)).read "set" (words ++ [counter]) =
        readCounted (.assign · ·) lock counter := by
      cases names <;> rfl
    refine readLine_of_read bound _ _ _ _ rfl ?_
    rw [read, readCounted, requireCounter_of_spells spells]
    rfl
  | @check words lock counter count names spells expected =>
    have read : (Form.withTest (.check · · ·)).read "check"
          (words ++ [counter, toString expected]) =
        readTested (.check · · ·) lock counter (toString expected) := by
      cases names <;> rfl
    refine readLine_of_read bound _ _ _ _ rfl ?_
    rw [read, readTested, requireCounter_of_spells spells]
    cases expected <;> rfl
  | restoreAll | forgetAll | save | commit => rfl

/-- How many words a form takes besides those of the lock, if it takes a lock. -/
def Form.values? : Form → Option Nat
  | alone _ => none
  | withLock _ => some 0
  | withCounter _ => some 1
  | withTest _ => some 2

/-- A form that takes a lock takes it in one word or in two. -/
theorem Form.read_of_length (form : Form) (keyword : String) (operands : List String)
    {values : Nat} (takes : form.values? = some values) (notOneWord : operands.length ≠ 1 + values)
    (notTwoWords : operands.length ≠ 2 + values) :
    form.read keyword operands = .error (.operandCount keyword) := by
  cases form with
  | alone directive => cases takes
  | withLock make =>
    cases takes
    rcases operands with _ | ⟨_, _ | ⟨_, _ | ⟨_, _⟩⟩⟩
    · rfl
    · exact absurd rfl notOneWord
    · exact absurd rfl notTwoWords
    · rfl
  | withCounter make =>
    cases takes
    rcases operands with _ | ⟨_, _ | ⟨_, _ | ⟨_, _ | ⟨_, _⟩⟩⟩⟩
    · rfl
    · rfl
    · exact absurd rfl notOneWord
    · exact absurd rfl notTwoWords
    · rfl
  | withTest make =>
    cases takes
    rcases operands with _ | ⟨_, _ | ⟨_, _ | ⟨_, _ | ⟨_, _ | ⟨_, _⟩⟩⟩⟩⟩
    · rfl
    · rfl
    · rfl
    · exact absurd rfl notOneWord
    · exact absurd rfl notTwoWords
    · rfl

/-- Operands with a lock but without a counter where one is due are refused for that word. -/
theorem Form.read_of_noCounter (form : Form) (keyword : String) {words : List String} {lock : Lock}
    {counter : String} {others : List String} (takes : form.values? = some (1 + others.length))
    (names : Names words lock) (noCounter : ∀ count, ¬ SpellsCounter counter count) :
    form.read keyword (words ++ counter :: others) = .error (.invalidCounter counter) := by
  have refused := requireCounter_of_none noCounter
  cases form with
  | alone directive => cases takes
  | withLock make =>
    have none := Option.some.inj takes
    omega
  | withCounter make =>
    obtain rfl : others = [] := List.length_eq_zero_iff.mp (by have := Option.some.inj takes; omega)
    cases names <;> simp [Form.read, readCounted, refused, bind, Except.bind]
  | withTest make =>
    obtain ⟨truth, rfl⟩ : ∃ truth, others = [truth] :=
      List.length_eq_one_iff.mp (by have := Option.some.inj takes; omega)
    cases names <;> simp [Form.read, readTested, refused, bind, Except.bind]

/-- Keywords of directives about one lock announce forms that take as many words. -/
theorem Form.exists_of_lockKeywords (bound : Int) {keyword : String} {values : Nat}
    (aboutLock : (keyword, values) ∈ lockKeywords) :
    ∃ form, Form.ofKeyword? bound keyword = some form ∧ form.values? = some values := by
  simp only [lockKeywords, List.mem_cons, Prod.mk.injEq, List.not_mem_nil, or_false] at aboutLock
  rcases aboutLock with
      ⟨rfl, rfl⟩ | ⟨rfl, rfl⟩ | ⟨rfl, rfl⟩ | ⟨rfl, rfl⟩ | ⟨rfl, rfl⟩ | ⟨rfl, rfl⟩ <;>
    exact ⟨_, rfl, rfl⟩

/-- Every keyword that stands alone announces a directive without operands. -/
theorem Form.exists_of_loneKeywords (bound : Int) {keyword : String}
    (lone : keyword ∈ loneKeywords) :
    ∃ directive, Form.ofKeyword? bound keyword = some (alone directive) := by
  simp only [loneKeywords, List.mem_cons, List.not_mem_nil, or_false] at lone
  obtain rfl | rfl | rfl | rfl := lone <;> exact ⟨_, rfl⟩

/-- No other word announces a form. -/
theorem Form.ofKeyword?_of_unlisted (bound : Int) {keyword : String}
    (notLone : keyword ∉ loneKeywords) (notAboutLock : keyword ∉ lockKeywords.map Prod.fst) :
    Form.ofKeyword? bound keyword = none := by
  unfold Form.ofKeyword?
  split <;> simp_all [loneKeywords, lockKeywords]

/-- A line is refused if its keyword is known and its operands are refused. -/
theorem readLine_of_refused (bound : Int) {keyword : String} {operands : List String} {form : Form}
    {fault : Fault} (announced : Form.ofKeyword? bound keyword = some form)
    (refused : form.read keyword operands = .error fault) :
    readLine bound (keyword :: operands) = .error fault := by
  rw [readLine, Directive.read, announced]
  simp only [refused, Except.map]

/-- Words are refused with the fault that they are blamed for. -/
theorem readLine_of_blames (bound : Int) {words : List String} {fault : Fault}
    (blames : Blames words fault) : readLine bound words = .error fault := by
  cases blames with
  | keyword notLone notAboutLock =>
    rw [readLine, Directive.read, Form.ofKeyword?_of_unlisted bound notLone notAboutLock]
    rfl
  | @operands keyword operands lone someOperand =>
    obtain ⟨directive, announced⟩ := Form.exists_of_loneKeywords bound lone
    refine readLine_of_refused bound announced ?_
    cases operands with
    | nil => exact absurd rfl someOperand
    | cons first rest => rfl
  | operandCount aboutLock notOneWord notTwoWords =>
    obtain ⟨form, announced, takes⟩ := Form.exists_of_lockKeywords bound aboutLock
    exact readLine_of_refused bound announced
      (form.read_of_length _ _ takes notOneWord notTwoWords)
  | counter aboutLock names noCounter =>
    obtain ⟨form, announced, takes⟩ := Form.exists_of_lockKeywords bound aboutLock
    exact readLine_of_refused bound announced (form.read_of_noCounter _ takes names noCounter)
  | @truth words lock counter truth count names spells noTruth =>
    have read : (Form.withTest (.check · · ·)).read "check" (words ++ [counter, truth]) =
        readTested (.check · · ·) lock counter truth := by
      cases names <;> rfl
    refine readLine_of_refused bound rfl (read.trans ?_)
    have refused : requireTruth truth = .error (.invalidTruth truth) := by
      unfold requireTruth
      split
      · exact absurd rfl (noTruth true)
      · exact absurd rfl (noTruth false)
      · rfl
    rw [readTested, requireCounter_of_spells spells]
    simp only [bind, Except.bind, refused]

/-! ## Words without a meaning are blamed -/

/-- As many operands as a form takes begin with the words of a lock. -/
theorem Names.of_length {operands : List String} {values : Nat}
    (oneOrTwo : operands.length = 1 + values ∨ operands.length = 2 + values) :
    ∃ words lock others, operands = words ++ others ∧ Names words lock ∧
      others.length = values := by
  rcases oneOrTwo with one | two
  · obtain ⟨name, others, rfl⟩ := List.exists_cons_of_length_eq_add_one
      (one.trans (Nat.add_comm _ _))
    have remaining : others.length = values := by
      rw [List.length_cons] at one
      omega
    exact ⟨[name], _, others, rfl, .ofName name, remaining⟩
  · obtain ⟨name, rest, rfl⟩ := List.exists_cons_of_length_eq_add_one
      (two.trans (by omega : 2 + values = 1 + values + 1))
    rw [List.length_cons] at two
    obtain ⟨expr, others, rfl⟩ := List.exists_cons_of_length_eq_add_one
      (by omega : rest.length = values + 1)
    have remaining : others.length = values := by
      rw [List.length_cons] at two
      omega
    exact ⟨[name, expr], _, others, rfl, .ofExpr name expr, remaining⟩

/-- A directive about one lock, with as many operands as it takes, is blamed for its counter or
    its truth value if it means nothing. -/
theorem means_or_blames_values (bound : Int) {keyword : String} {words others : List String}
    {lock : Lock} (names : Names words lock) (aboutLock : (keyword, others.length) ∈ lockKeywords) :
    (∃ directive, Means bound (keyword :: (words ++ others)) directive) ∨
      ∃ fault, Blames (keyword :: (words ++ others)) fault := by
  cases others with
  | nil =>
    rw [List.append_nil]
    simp only [lockKeywords, List.length_nil, List.mem_cons, Prod.mk.injEq, reduceCtorEq, and_true,
      and_false, List.not_mem_nil, or_false, false_or] at aboutLock
    obtain rfl | rfl | rfl | rfl := aboutLock
    · exact Or.inl ⟨_, .acquire names⟩
    · exact Or.inl ⟨_, .release names⟩
    · exact Or.inl ⟨_, .forget names⟩
    · exact Or.inl ⟨_, .restore names⟩
  | cons counter rest =>
    by_cases spelled : ∃ count, SpellsCounter counter count
    · obtain ⟨count, spells⟩ := spelled
      simp only [lockKeywords, List.length_cons, List.mem_cons, Prod.mk.injEq, reduceCtorEq,
        and_false, List.not_mem_nil, or_false, false_or, Nat.add_eq_right,
        Nat.reduceEqDiff] at aboutLock
      obtain ⟨rfl, none⟩ | ⟨rfl, one⟩ := aboutLock
      · obtain rfl := List.length_eq_zero_iff.mp none
        exact Or.inl ⟨_, .assign names spells⟩
      · obtain ⟨truth, rfl⟩ := List.length_eq_one_iff.mp one
        by_cases isTruth : ∃ expected : Bool, truth = toString expected
        · obtain ⟨expected, rfl⟩ := isTruth
          exact Or.inl ⟨_, .check names spells expected⟩
        · exact Or.inr ⟨_, .truth names spells (not_exists.mp isTruth)⟩
    · refine Or.inr ⟨_, .counter ?_ names (not_exists.mp spelled)⟩
      rw [Nat.add_comm]
      exact aboutLock

/-- Words that mean nothing are blamed for something. -/
theorem means_or_blames (bound : Int) (words : List String) :
    words = [] ∨ (∃ directive, Means bound words directive) ∨ ∃ fault, Blames words fault := by
  cases words with
  | nil => exact Or.inl rfl
  | cons keyword operands =>
    apply Or.inr
    by_cases lone : keyword ∈ loneKeywords
    · cases operands with
      | cons first rest => exact Or.inr ⟨_, .operands lone (List.cons_ne_nil first rest)⟩
      | nil =>
        simp only [loneKeywords, List.mem_cons, List.not_mem_nil, or_false] at lone
        obtain rfl | rfl | rfl | rfl := lone
        · exact Or.inl ⟨_, .restoreAll⟩
        · exact Or.inl ⟨_, .forgetAll⟩
        · exact Or.inl ⟨_, .save⟩
        · exact Or.inl ⟨_, .commit⟩
    · by_cases listed : keyword ∈ lockKeywords.map Prod.fst
      · obtain ⟨⟨keyword, values⟩, aboutLock, rfl⟩ := List.mem_map.mp listed
        by_cases oneOrTwo : operands.length = 1 + values ∨ operands.length = 2 + values
        · obtain ⟨words, lock, others, rfl, names, rfl⟩ := Names.of_length oneOrTwo
          exact means_or_blames_values bound names aboutLock
        · obtain ⟨notOne, notTwo⟩ := not_or.mp oneOrTwo
          exact Or.inr ⟨_, .operandCount aboutLock notOne notTwo⟩
      · exact Or.inr ⟨_, .keyword lone listed⟩

/-- A directive is read from words exactly if they mean it. -/
theorem readLine_eq_ok_some_iff (bound : Int) (words : List String) (directive : Directive) :
    readLine bound words = .ok (some directive) ↔ Means bound words directive := by
  refine ⟨?_, readLine_of_means⟩
  intro read
  obtain rfl | ⟨other, means⟩ | ⟨fault, blames⟩ := means_or_blames bound words
  · cases read
  · rw [readLine_of_means means] at read
    cases read
    exact means
  · rw [readLine_of_blames bound blames] at read
    cases read

/-- Words are refused with a fault exactly if they are blamed for it. -/
theorem readLine_eq_error_iff (bound : Int) (words : List String) (fault : Fault) :
    readLine bound words = .error fault ↔ Blames words fault := by
  refine ⟨?_, readLine_of_blames bound⟩
  intro read
  obtain rfl | ⟨directive, means⟩ | ⟨other, blames⟩ := means_or_blames bound words
  · cases read
  · rw [readLine_of_means means] at read
    cases read
  · rw [readLine_of_blames bound blames] at read
    cases read
    exact blames

/-! ## Lines -/

/-- A line is well formed if its words, if it has any, mean a directive. -/
def WellFormedLine (line : List Char) : Prop :=
  ∃ words, Spells line words ∧ (∀ word ∈ words, IsWord word) ∧
    (words = [] ∨ ∃ bound directive, Means bound words directive)

/-- A line is blamed for what its words are blamed for. -/
def BlamedLine (line : List Char) (fault : Fault) : Prop :=
  ∃ words, Spells line words ∧ (∀ word ∈ words, IsWord word) ∧ Blames words fault

/-- The well-formed lines are those that are read. -/
theorem wellFormedLine_iff (bound : Int) (line : List Char) :
    WellFormedLine line ↔ ∃ directive, readLine bound (wordsOf line) = .ok directive := by
  constructor
  · rintro ⟨words, spells, areWords, meaning⟩
    rw [(wordsOf_eq_iff line words).mpr ⟨spells, areWords⟩]
    obtain rfl | ⟨other, directive, means⟩ := meaning
    · exact ⟨none, rfl⟩
    · -- Well formed words mean something under any bound.
      obtain rfl | ⟨directive, means⟩ | ⟨fault, blames⟩ := means_or_blames bound words
      · exact ⟨none, rfl⟩
      · exact ⟨some directive, readLine_of_means means⟩
      · have read := (readLine_of_means means).symm.trans (readLine_of_blames other blames)
        cases read
  · rintro ⟨directive, read⟩
    obtain ⟨spells, areWords⟩ := (wordsOf_eq_iff line (wordsOf line)).mp rfl
    refine ⟨wordsOf line, spells, areWords, ?_⟩
    obtain nothing | ⟨directive, means⟩ | ⟨fault, blames⟩ := means_or_blames bound (wordsOf line)
    · exact Or.inl nothing
    · exact Or.inr ⟨bound, directive, means⟩
    · rw [readLine_of_blames bound blames] at read
      cases read

/-- The lines blamed for a fault are those that are refused for it. -/
theorem blamedLine_iff (bound : Int) (line : List Char) (fault : Fault) :
    BlamedLine line fault ↔ readLine bound (wordsOf line) = .error fault := by
  rw [readLine_eq_error_iff]
  constructor
  · rintro ⟨words, spells, areWords, blames⟩
    rw [(wordsOf_eq_iff line words).mpr ⟨spells, areWords⟩]
    exact blames
  · intro blames
    obtain ⟨spells, areWords⟩ := (wordsOf_eq_iff line (wordsOf line)).mp rfl
    exact ⟨wordsOf line, spells, areWords, blames⟩

/-- A line that is blamed for something is not well formed. -/
theorem BlamedLine.not_wellFormed {line : List Char} {fault : Fault}
    (blamed : BlamedLine line fault) : ¬ WellFormedLine line := by
  intro wellFormed
  obtain ⟨directive, read⟩ := (wellFormedLine_iff 0 line).mp wellFormed
  rw [(blamedLine_iff 0 line fault).mp blamed] at read
  cases read

/-! ## Texts -/

/-- A text consists of lines, with a line feed between any two of them. -/
def Consists (text : String) (lines : List (List Char)) : Prop :=
  lines ≠ [] ∧ (∀ line ∈ lines, '\n' ∉ line) ∧ text.toList = ['\n'].intercalate lines

/-- No piece between the line ends holds a line end. -/
theorem newline_notMem_of_mem_splitOn (chars : List Char) :
    ∀ line ∈ chars.splitOn '\n', '\n' ∉ line := by
  induction chars with
  | nil => simp
  | cons char rest inductionHypothesis =>
    rw [List.splitOn_cons_eq_if_modifyHead]
    split
    next => exact List.forall_mem_cons.mpr ⟨List.not_mem_nil, inductionHypothesis⟩
    next letter =>
      cases split : rest.splitOn '\n' with
      | nil => exact absurd split (List.splitOn_ne_nil _ _)
      | cons first others =>
        rw [split, List.forall_mem_cons] at inductionHypothesis
        rw [List.modifyHead_cons, List.forall_mem_cons]
        refine ⟨?_, inductionHypothesis.2⟩
        rw [List.mem_cons, not_or]
        exact ⟨fun newline => letter (beq_iff_eq.mpr newline.symm), inductionHypothesis.1⟩

/-- The lines of a text are the only ones that it consists of. -/
theorem linesOf_eq_iff (text : String) (lines : List (List Char)) :
    linesOf text = lines ↔ Consists text lines := by
  constructor
  · rintro rfl
    exact ⟨List.splitOn_ne_nil _ _, newline_notMem_of_mem_splitOn _,
      (List.intercalate_splitOn '\n').symm⟩
  · rintro ⟨someLine, unbroken, joined⟩
    rw [linesOf, joined, List.splitOn_intercalate '\n' unbroken someLine]

/-- An error is that of the first line that is not well formed: it names that line, by its place
    among lines of which the first has the given number, and the fault that the line is blamed
    for. -/
def FirstFault (number : Nat) (lines : List (List Char)) (error : ParseError) : Prop :=
  ∃ earlier line later, lines = earlier ++ line :: later ∧
    (∀ before ∈ earlier, WellFormedLine before) ∧ ¬ WellFormedLine line ∧
    BlamedLine line error.fault ∧ error.line = number + earlier.length

/-- A well formed line hands the blame on. -/
theorem firstFault_cons_iff (number : Nat) {line : List Char} (rest : List (List Char))
    (error : ParseError) (wellFormed : WellFormedLine line) :
    FirstFault number (line :: rest) error ↔ FirstFault (number + 1) rest error := by
  constructor
  · rintro ⟨earlier, bad, later, split, before, illFormed, blamed, place⟩
    cases earlier with
    | nil =>
      obtain ⟨rfl, rfl⟩ := List.cons.inj split
      exact absurd wellFormed illFormed
    | cons first others =>
      obtain ⟨rfl, rfl⟩ := List.cons.inj split
      refine ⟨others, bad, later, rfl, (List.forall_mem_cons.mp before).2, illFormed, blamed, ?_⟩
      rw [place, List.length_cons]
      omega
  · rintro ⟨earlier, bad, later, rfl, before, illFormed, blamed, place⟩
    refine ⟨line :: earlier, bad, later, rfl, List.forall_mem_cons.mpr ⟨wellFormed, before⟩,
      illFormed, blamed, ?_⟩
    rw [place, List.length_cons]
    omega

/-- Lines are refused for the fault of the first that is not well formed. -/
theorem directivesFrom_eq_error_iff (bound : Int) (number : Nat) (lines : List (List Char))
    (error : ParseError) :
    directivesFrom bound number lines = .error error ↔ FirstFault number lines error := by
  fun_induction directivesFrom bound number lines with
  | case1 number =>
    constructor
    · intro refused
      cases refused
    · rintro ⟨earlier, line, later, split, _⟩
      exact absurd split.symm (List.append_ne_nil_of_right_ne_nil _ (List.cons_ne_nil _ _))
  | case2 number line rest fault rejected =>
    have blamed := (blamedLine_iff bound line fault).mpr rejected
    constructor
    · rintro ⟨⟩
      exact ⟨[], line, rest, rfl, List.forall_mem_nil _, blamed.not_wellFormed, blamed, rfl⟩
    · rintro ⟨earlier, bad, later, split, before, _, otherBlamed, place⟩
      cases earlier with
      | nil =>
        obtain ⟨rfl, rfl⟩ := List.cons.inj split
        have same := rejected.symm.trans ((blamedLine_iff bound line error.fault).mp otherBlamed)
        cases error
        cases same
        cases place
        rfl
      | cons first others =>
        obtain ⟨rfl, rfl⟩ := List.cons.inj split
        exact absurd (List.forall_mem_cons.mp before).1 blamed.not_wellFormed
  | case3 number line rest blank inductionHypothesis =>
    have wellFormed := (wellFormedLine_iff bound line).mpr ⟨_, blank⟩
    rw [inductionHypothesis, firstFault_cons_iff number rest error wellFormed]
  | case4 number line rest directive accepted inductionHypothesis =>
    have wellFormed := (wellFormedLine_iff bound line).mpr ⟨_, accepted⟩
    rw [firstFault_cons_iff number rest error wellFormed, ← inductionHypothesis]
    cases directivesFrom bound (number + 1) rest <;> simp [Except.map]

/-- Lines are read exactly if all of them are well formed. -/
theorem exists_directivesFrom_iff (bound : Int) (number : Nat) (lines : List (List Char)) :
    (∃ directives, directivesFrom bound number lines = .ok directives) ↔
      ∀ line ∈ lines, WellFormedLine line := by
  constructor
  · rintro ⟨directives, read⟩
    fun_induction directivesFrom bound number lines generalizing directives with
    | case1 number => exact List.forall_mem_nil _
    | case2 number line rest fault rejected => cases read
    | case3 number line rest blank inductionHypothesis =>
      have wellFormed := (wellFormedLine_iff bound line).mpr ⟨_, blank⟩
      exact List.forall_mem_cons.mpr ⟨wellFormed, inductionHypothesis directives read⟩
    | case4 number line rest directive accepted inductionHypothesis =>
      have wellFormed := (wellFormedLine_iff bound line).mpr ⟨_, accepted⟩
      obtain ⟨others, later, rfl⟩ := exists_of_map_eq_ok _ _ _ read
      exact List.forall_mem_cons.mpr ⟨wellFormed, inductionHypothesis others later⟩
  · intro wellFormed
    cases read : directivesFrom bound number lines with
    | ok directives => exact ⟨directives, rfl⟩
    | error error =>
      obtain ⟨earlier, line, later, rfl, _, illFormed, _⟩ :=
        (directivesFrom_eq_error_iff bound number lines error).mp read
      exact absurd (wellFormed line (List.mem_append_right _ List.mem_cons_self)) illFormed

/-- A text is refused exactly for the first fault of its lines. -/
theorem parse_eq_error_iff (bound : Int) (text : String) (error : ParseError) :
    parse bound text = .error error ↔ FirstFault 1 (linesOf text) error := by
  rw [parse, ← directivesFrom_eq_error_iff bound]
  cases directivesFrom bound 1 (linesOf text) <;> simp [Except.map]

/-- A text is read exactly if all its lines are well formed. -/
theorem exists_parse_iff (bound : Int) (text : String) :
    (∃ steps, parse bound text = .ok steps) ↔ ∀ line ∈ linesOf text, WellFormedLine line := by
  rw [parse, ← exists_directivesFrom_iff bound 1]
  cases directivesFrom bound 1 (linesOf text) <;> simp [Except.map]

/-- The error of a text is that of any other text, read with any bound, that has the same words
    in the line at fault and nothing ill formed before it. -/
theorem parse_eq_error_of_words {bound otherBound : Int} {text other : String} {error : ParseError}
    (refused : parse bound text = .error error) {earlier later : List (List Char)}
    {line : List Char} (consists : Consists other (earlier ++ line :: later))
    (place : error.line = earlier.length + 1)
    (wellFormed : ∀ before ∈ earlier, WellFormedLine before)
    (sameWords : (linesOf text)[earlier.length]?.map wordsOf = some (wordsOf line)) :
    parse otherBound other = .error error := by
  obtain ⟨front, bad, back, split, -, -, blamed, badPlace⟩ :=
    (parse_eq_error_iff bound text error).mp refused
  have sameLength : front.length = earlier.length := by omega
  rw [split, ← sameLength, List.getElem?_append_right (Nat.le_refl _), Nat.sub_self,
    List.getElem?_cons_zero, Option.map_some, Option.some.injEq] at sameWords
  have lineBlamed : BlamedLine line error.fault := by
    rw [blamedLine_iff bound] at blamed ⊢
    rwa [← sameWords]
  rw [parse_eq_error_iff, (linesOf_eq_iff other _).mpr consists]
  exact ⟨earlier, line, later, rfl, wellFormed, lineBlamed.not_wellFormed, lineBlamed, by omega⟩

/-- The reader accepts exactly its grammar and blames the first bad line. A text consists of
    lines in one way. It is read, under any bound, if and only if all of them are well formed.
    If not, the error is that of the first line that is not: it gives the number of the line and
    the fault that its words are blamed for, in these terms. Whatever other text has the same
    words in the line with that number, and no ill formed line before it, is refused with the
    same error.

    Proof: words that mean something and words that are blamed for something are read as such,
    form by form, and all words but none at all are one or the other. So the reader goes on
    exactly over well formed lines, by induction on the lines. -/
theorem grammar_accepted_exactly (bound : Int) (text : String) :
    ∃ lines, Consists text lines ∧ (∀ others, Consists text others → others = lines) ∧
      ((∃ steps, parse bound text = .ok steps) ↔ ∀ line ∈ lines, WellFormedLine line) ∧
      ∀ error,
        (parse bound text = .error error ↔ FirstFault 1 lines error) ∧
        error.message = "line " ++ toString error.line ++ ": " ++ error.fault.message ∧
        (parse bound text = .error error →
          ∀ otherBound other earlier line later, Consists other (earlier ++ line :: later) →
            error.line = earlier.length + 1 → (∀ before ∈ earlier, WellFormedLine before) →
            lines[earlier.length]?.map wordsOf = some (wordsOf line) →
            parse otherBound other = .error error) := by
  refine ⟨linesOf text, (linesOf_eq_iff text _).mp rfl, ?_, exists_parse_iff bound text, ?_⟩
  · intro others consists
    exact ((linesOf_eq_iff text others).mpr consists).symm
  · intro error
    refine ⟨parse_eq_error_iff bound text error, rfl, ?_⟩
    intro refused otherBound other earlier line later consists place wellFormed sameWords
    exact parse_eq_error_of_words refused consists place wellFormed sameWords

/-- Where a check has too few operands, their number is at fault and not the word in the place
    of the counter. Comments, blanks and the lines after it do not matter. -/
theorem operand_count_blamed_first :
    parse 0 "acquire a # held\n\ncheck a true # operands\nfree" =
        .error ⟨3, .operandCount "check"⟩ ∧
      parse 5 "commit\nrelease a 1\n\tcheck  a true" = .error ⟨3, .operandCount "check"⟩ := by
  obtain ⟨lines, consists, unique, _, errors⟩ :=
    grammar_accepted_exactly 0 "acquire a # held\n\ncheck a true # operands\nfree"
  obtain rfl := unique _ ((linesOf_eq_iff _ _).mp rfl)
  obtain ⟨blamed, _, decides⟩ := errors ⟨3, .operandCount "check"⟩
  have read (line : List Char) (directive : Option Directive)
      (accepted : readLine 0 (wordsOf line) = .ok directive) : WellFormedLine line :=
    (wellFormedLine_iff 0 line).mpr ⟨directive, accepted⟩
  have fault := (blamedLine_iff 0 "check a true # operands".toList (.operandCount "check")).mpr rfl
  have refused := blamed.mpr ⟨["acquire a # held".toList, []], _, ["free".toList], by cbv,
    List.forall_mem_cons.mpr ⟨read _ _ rfl, List.forall_mem_singleton.mpr (read _ _ rfl)⟩,
    fault.not_wellFormed, fault, rfl⟩
  refine ⟨refused, decides refused 5 _ ["commit".toList, "release a 1".toList]
    "\tcheck  a true".toList [] ((linesOf_eq_iff _ _).mp (by cbv)) rfl ?_ (by cbv)⟩
  exact List.forall_mem_cons.mpr ⟨read _ _ rfl, List.forall_mem_singleton.mpr (read _ _ rfl)⟩

/-! ## What a text asks for -/

/-- Some line of a text means a directive. -/
def Asks (bound : Int) (text : String) (directive : Directive) : Prop :=
  ∃ line ∈ linesOf text, Means bound (wordsOf line) directive

/-- All acquisitions that a text asks for carry the bound. -/
theorem Asks.carried_eq {bound carried : Int} {text : String} {lock : Lock}
    (asks : Asks bound text (.effect (.acquire lock carried))) : carried = bound := by
  obtain ⟨line, _, means⟩ := asks
  generalize wordsOf line = words at means
  cases means with
  | acquire names => rfl

/-- A text that is read asks for the effects of its steps and no others. -/
theorem asks_iff_of_parse {bound : Int} {text : String} {steps : List Step}
    (read : parse bound text = .ok steps) (effect : Effect) :
    Asks bound text (.effect effect) ↔ ∃ step ∈ steps, effect ∈ step.effects := by
  obtain ⟨directives, numbered, rfl⟩ := exists_of_map_eq_ok _ _ _ read
  simp only [mem_stepsOf_iff, exists_place_iff numbered, readLine_eq_ok_some_iff, Asks]

end HeldLocks.Trace
