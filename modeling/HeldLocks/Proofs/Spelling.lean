import HeldLocks.Trace.Counter
import HeldLocks.Trace.Words

/-!
# Spelling words and counters

`Spells` says which lines consist of which words, in terms of how a line is put together
and not of how it is taken apart: blanks go anywhere but into a word, a word ends where the
line does or before a blank or a comment, and a comment takes the rest of the line. The
reader inverts it for words that a line can hold at all, those without blanks and comment
marks, and it finds no others.

A counter is spelled by its decimal digits. The reader inverts that too, up to the largest
counter there is.
-/

namespace HeldLocks.Trace

/-- A word that a line can hold as it is. -/
def IsWord (word : String) : Prop :=
  word ≠ "" ∧ ∀ char ∈ word.toList, isBlank char = false ∧ char ≠ '#'

/-- A line consists of words. A word may run into a comment but not into another word. -/
inductive Spells : List Char → List String → Prop where
  | nothing : Spells [] []
  | comment (remark : List Char) : Spells ('#' :: remark) []
  | blank (char : Char) (rest : List Char) (words : List String)
      (isGap : isBlank char = true) (tail : Spells rest words) : Spells (char :: rest) words
  | word (word : String) (rest : List Char) (words : List String)
      (apart : ∀ char ∈ rest.head?, isBlank char = true ∨ char = '#')
      (tail : Spells rest words) : Spells (word.toList ++ rest) (word :: words)

/-! ### Words -/

/-- A comment mark is no blank. -/
theorem ne_mark_of_isBlank (char : Char) (isGap : isBlank char = true) : char ≠ '#' := by
  rintro rfl
  exact absurd isGap (by decide)

/-- Nothing is read from the comment of a line. -/
theorem uncommented_comment (remark : List Char) : uncommented ('#' :: remark) = [] := by
  simp only [uncommented, ne_eq, not_true_eq_false, decide_false, Bool.false_eq_true,
    not_false_eq_true, List.takeWhile_cons_of_neg]

/-- Characters before the first comment mark are all read. -/
theorem uncommented_append (front rest : List Char) (unmarked : ∀ char ∈ front, char ≠ '#') :
    uncommented (front ++ rest) = front ++ uncommented rest :=
  List.takeWhile_append_of_pos fun char member => decide_eq_true (unmarked char member)

/-- A blank in front of a line changes none of its words. -/
theorem wordsOf_blank (char : Char) (rest : List Char) (isGap : isBlank char = true) :
    wordsOf (char :: rest) = wordsOf rest := by
  have kept : uncommented (char :: rest) = char :: uncommented rest :=
    uncommented_append [char] rest (by simpa using ne_mark_of_isBlank char isGap)
  rw [wordsOf, kept, List.splitOnP_cons_eq_if_modifyHead, if_pos isGap]
  rfl

/-- A line that begins with a word, properly ended, has that word in front of those of the
    rest. -/
theorem wordsOf_word (word : String) (rest : List Char) (isWord : IsWord word)
    (apart : ∀ char ∈ rest.head?, isBlank char = true ∨ char = '#') :
    wordsOf (word.toList ++ rest) = word :: wordsOf rest := by
  have visible : word.toList ≠ [] := by simpa using isWord.1
  have unbroken : ∀ char ∈ word.toList, isBlank char = false := fun char member =>
    (isWord.2 char member).1
  have read : uncommented (word.toList ++ rest) = word.toList ++ uncommented rest :=
    uncommented_append _ _ fun char member => (isWord.2 char member).2
  have last (nothing : uncommented rest = []) :
      wordsOf (word.toList ++ rest) = word :: wordsOf rest := by
    simp [wordsOf, read, nothing, List.splitOnP_eq_singleton unbroken, visible]
  cases rest with
  | nil => exact last rfl
  | cons char tail =>
    obtain isGap | rfl := apart char rfl
    · have kept : uncommented (char :: tail) = char :: uncommented tail :=
        uncommented_append [char] tail (by simpa using ne_mark_of_isBlank char isGap)
      rw [wordsOf_blank char tail isGap, wordsOf, read, kept,
        List.splitOnP_append_cons_of_forall_mem unbroken char isGap]
      simp [wordsOf, visible]
    · exact last (uncommented_comment tail)

/-- The words that spell a line are the ones that are read from it. -/
theorem Spells.wordsOf_eq {line : List Char} {words : List String} (spelled : Spells line words)
    (areWords : ∀ word ∈ words, IsWord word) : wordsOf line = words := by
  induction spelled with
  | nothing => rfl
  | comment remark => simp [wordsOf, uncommented_comment]
  | blank char rest words isGap tail inductionHypothesis =>
    rw [wordsOf_blank char rest isGap, inductionHypothesis areWords]
  | word word rest words apart tail inductionHypothesis =>
    rw [List.forall_mem_cons] at areWords
    rw [wordsOf_word word rest areWords.1 apart, inductionHypothesis areWords.2]

/-- Every line consists of words that it can hold. A character that is neither blank nor a
    comment mark begins a word of its own, or the first word of the rest with it. -/
theorem exists_words (line : List Char) :
    ∃ words, Spells line words ∧ ∀ word ∈ words, IsWord word := by
  induction line with
  | nil => exact ⟨[], .nothing, List.forall_mem_nil _⟩
  | cons char rest inductionHypothesis =>
    obtain ⟨words, spelled, areWords⟩ := inductionHypothesis
    by_cases marked : char = '#'
    · subst marked
      exact ⟨[], .comment rest, List.forall_mem_nil _⟩
    by_cases isGap : isBlank char
    · exact ⟨words, .blank char rest words isGap spelled, areWords⟩
    have letter : isBlank char = false ∧ char ≠ '#' := ⟨by simpa using isGap, marked⟩
    by_cases apart : ∀ next ∈ rest.head?, isBlank next = true ∨ next = '#'
    · -- The character is a whole word: what follows it is the end, a blank or a comment.
      have alone : IsWord (String.ofList [char]) := ⟨by simp, by simpa using letter⟩
      refine ⟨String.ofList [char] :: words, ?_, List.forall_mem_cons.mpr ⟨alone, areWords⟩⟩
      simpa using Spells.word (String.ofList [char]) rest words apart spelled
    · -- The rest begins with a word, or else the character would stand apart from it.
      cases spelled with
      | nothing => simp at apart
      | comment remark => simp at apart
      | blank next rest words isGap tail => simp [isGap] at apart
      | word word rest words ended tail =>
        rw [List.forall_mem_cons] at areWords
        have longer : IsWord (String.ofList (char :: word.toList)) :=
          ⟨by simp, by simpa using ⟨letter, areWords.1.2⟩⟩
        refine ⟨String.ofList (char :: word.toList) :: words, ?_,
          List.forall_mem_cons.mpr ⟨longer, areWords.2⟩⟩
        simpa using Spells.word (String.ofList (char :: word.toList)) rest words ended tail

/-- The words of a line are read from it, and nothing else is. -/
theorem wordsOf_eq_iff (line : List Char) (words : List String) :
    wordsOf line = words ↔ Spells line words ∧ ∀ word ∈ words, IsWord word := by
  constructor
  · rintro rfl
    obtain ⟨words, spelled, areWords⟩ := exists_words line
    rw [spelled.wordsOf_eq areWords]
    exact ⟨spelled, areWords⟩
  · rintro ⟨spelled, areWords⟩
    exact spelled.wordsOf_eq areWords

/-- A word does not break a line. -/
theorem IsWord.newline_notMem {word : String} (isWord : IsWord word) : '\n' ∉ word.toList :=
  fun member => absurd (isWord.2 '\n' member).1 (by decide)

/-- Words can be written in a line: with a blank after each of them. -/
theorem exists_spells (words : List String) (areWords : ∀ word ∈ words, IsWord word) :
    ∃ line, '\n' ∉ line ∧ Spells line words := by
  induction words with
  | nil => exact ⟨[], List.not_mem_nil, .nothing⟩
  | cons word words inductionHypothesis =>
    rw [List.forall_mem_cons] at areWords
    obtain ⟨rest, unbroken, spelled⟩ := inductionHypothesis areWords.2
    refine ⟨word.toList ++ ' ' :: rest, ?_,
      .word word (' ' :: rest) words ?_ (.blank ' ' rest words rfl spelled)⟩
    · simp [areWords.1.newline_notMem, unbroken]
    · simp [isBlank]

/-! ### Counters -/

/-- The value of the decimal digits of a number is that number. -/
theorem digitsValue?_toDigits (count : Nat) :
    digitsValue? (Nat.toDigits 10 count) = some count := by
  have digits : (Nat.toDigits 10 count).all Char.isDigit = true :=
    List.all_eq_true.mpr fun char => Nat.isDigit_of_mem_toDigits (by decide) (by decide)
  rw [digitsValue?, if_pos ⟨Nat.toDigits_ne_nil, digits⟩, Nat.ofDigitChars_ten_toDigits]

/-- No minus sign stands in front of the decimal digits of a number. -/
theorem integerValue?_toDigits (count : Nat) :
    integerValue? (Nat.toDigits 10 count) = some (count : Int) := by
  unfold integerValue?
  split
  next digits signed =>
    have member : '-' ∈ Nat.toDigits 10 count := signed ▸ List.mem_cons_self
    have digit := Nat.isDigit_of_mem_toDigits (by decide) (by decide) member
    exact absurd digit (by decide)
  next =>
    rw [digitsValue?_toDigits]
    rfl

/-- The decimal digits of a counter. -/
theorem toList_toString (count : Int) (nonneg : 0 ≤ count) :
    (toString count).toList = Nat.toDigits 10 count.toNat := by
  obtain ⟨natural, rfl⟩ := Int.eq_ofNat_of_zero_le nonneg
  exact Nat.toList_repr

/-- The reader gets a counter back from its decimal digits. -/
theorem readCounter?_toString (count : Int) (nonneg : 0 ≤ count) (bounded : count ≤ maxCounter) :
    readCounter? (toString count) = some count.toNat := by
  have back : (count.toNat : Int) = count := Int.toNat_of_nonneg nonneg
  rw [readCounter?, toList_toString count nonneg, integerValue?_toDigits, back]
  simp only [nonneg, bounded, and_self, if_true]

/-- The decimal digits of a counter are a word. -/
theorem isWord_toString (count : Int) (nonneg : 0 ≤ count) : IsWord (toString count) := by
  constructor
  · intro empty
    have none := toList_toString count nonneg
    rw [empty] at none
    exact Nat.toDigits_ne_nil none.symm
  · intro char member
    rw [toList_toString count nonneg] at member
    have digit := Nat.isDigit_of_mem_toDigits (by decide) (by decide) member
    refine ⟨Bool.eq_false_iff.mpr fun isGap => ?_, ?_⟩
    · simp only [isBlank, decide_eq_true_eq, List.mem_cons, List.not_mem_nil, or_false] at isGap
      obtain rfl | rfl | rfl | rfl | rfl | rfl := isGap <;> exact absurd digit (by decide)
    · rintro rfl
      exact absurd digit (by decide)

end HeldLocks.Trace
