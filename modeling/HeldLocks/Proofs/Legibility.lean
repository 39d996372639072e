import HeldLocks.Proofs.Transcripts

/-!
# What a printed state tells

A state is printed as its entries, with a comma and a space between them, or as a phrase if there
are none. Each entry is a lock, shown as a name with perhaps an expression in parentheses, and a
count in brackets. Names and expressions may hold commas, brackets, digits and, the expression,
parentheses, so a printed state cannot be read from one mark to the next. It can be taken apart all
the same: entries at the space, which no word holds; an entry at its last opening bracket, since
after it there are only digits; and a lock at its first opening parenthesis, if no name holds one
(`Lock.Legible`).

So states with legible locks are printed alike only if they hold the same
(`State.printed_alike_iff`). With a parenthesis in a name this fails.
-/

namespace HeldLocks

/-! ## Marks in a text -/

/-- What stands before the first place of a mark, and what stands after it, are told by the
whole. -/
theorem eq_of_firstMark {mark : Char} {front other rest later : List Char}
    (unmarked : mark ∉ front) (otherUnmarked : mark ∉ other)
    (same : front ++ mark :: rest = other ++ mark :: later) : front = other ∧ rest = later := by
  have before : ∀ chars tail : List Char, mark ∉ chars →
      (chars ++ mark :: tail).takeWhile (· ≠ mark) = chars := by
    intro chars tail absent
    rw [List.takeWhile_append_of_pos fun char member => ?_,
      List.takeWhile_cons_of_neg (by simp), List.append_nil]
    exact decide_eq_true fun isMark => absent (isMark ▸ member)
  have fronts : front = other := by
    rw [← before front rest unmarked, same, before other later otherUnmarked]
  subst fronts
  exact ⟨rfl, (List.cons.inj (List.append_cancel_left same)).2⟩

/-- So are what stands before and after the last place. -/
theorem eq_of_lastMark {mark : Char} {front other rest later : List Char}
    (unmarked : mark ∉ rest) (otherUnmarked : mark ∉ later)
    (same : front ++ mark :: rest = other ++ mark :: later) : front = other ∧ rest = later := by
  have mirrored := congrArg List.reverse same
  simp only [List.reverse_append, List.reverse_cons, List.append_assoc, List.singleton_append]
    at mirrored
  obtain ⟨behind, before⟩ := eq_of_firstMark (by simpa using unmarked)
    (by simpa using otherUnmarked) mirrored
  exact ⟨List.reverse_inj.mp before, List.reverse_inj.mp behind⟩

/-- Rows of words without spaces, with a comma and a space between the words, are the same only if
the words are. -/
theorem eq_of_intercalate {words others : List String} (someWord : words ≠ [])
    (someOther : others ≠ []) (unspaced : ∀ word ∈ words, ' ' ∉ word.toList)
    (otherUnspaced : ∀ word ∈ others, ' ' ∉ word.toList)
    (same : ", ".intercalate words = ", ".intercalate others) : words = others := by
  have longer : ∀ word next : String, ∀ later : List String,
      (", ".intercalate (word :: next :: later)).toList =
        (word.toList ++ [',']) ++ ' ' :: (", ".intercalate (next :: later)).toList := by
    intro word next later
    rw [String.intercalate_cons_cons]
    simp
  induction words generalizing others with
  | nil => exact absurd rfl someWord
  | cons word rest inductionHypothesis =>
    obtain ⟨first, unspacedRest⟩ := List.forall_mem_cons.mp unspaced
    cases others with
    | nil => exact absurd rfl someOther
    | cons other otherRest =>
      obtain ⟨otherFirst, otherUnspacedRest⟩ := List.forall_mem_cons.mp otherUnspaced
      have chars := congrArg String.toList same
      cases rest with
      | nil =>
        cases otherRest with
        | nil => simpa using same
        | cons next later =>
          rw [longer, String.intercalate_singleton] at chars
          exact absurd (chars ▸ List.mem_append_right _ List.mem_cons_self) first
      | cons next later =>
        cases otherRest with
        | nil =>
          rw [longer, String.intercalate_singleton] at chars
          exact absurd (chars ▸ List.mem_append_right _ List.mem_cons_self) otherFirst
        | cons otherNext otherLater =>
          rw [longer, longer] at chars
          obtain ⟨words, behind⟩ := eq_of_firstMark (by simp [first]) (by simp [otherFirst]) chars
          rw [String.toList_injective (List.append_cancel_right words),
            inductionHypothesis (List.cons_ne_nil _ _) (List.cons_ne_nil _ _) unspacedRest
              otherUnspacedRest (String.toList_injective behind)]

/-! ## Legible locks -/

/-- Whether a word is there and holds no blank. -/
def Solid (word : String) : Prop :=
  word ≠ "" ∧ ∀ char ∈ word.toList, Trace.isBlank char = false

namespace Lock

/-- A lock whose text tells what it is: it is a name, or a name and an expression, without blanks,
and the name does not hold the mark that opens the expression. -/
inductive Legible : Lock → Prop where
  | programWide (name : String) (solid : Solid name) (plain : '(' ∉ name.toList) :
    Legible (.ofName name)
  | byExpression (name expr : String) (solid : Solid name) (solidExpr : Solid expr)
    (plain : '(' ∉ name.toList) : Legible (.ofExpr name expr)

/-- What can be written in a trace is legible if its name holds no parenthesis. -/
theorem Representable.legible {lock : Lock} (representable : lock.Representable)
    (plain : '(' ∉ lock.name.toList) : lock.Legible := by
  have solid : ∀ {word : String}, Trace.IsWord word → Solid word :=
    fun isWord => ⟨isWord.1, fun char member => (isWord.2 char member).1⟩
  cases representable with
  | programWide name isName => exact .programWide name (solid isName) plain
  | byExpression name expr isName isExpr =>
    exact .byExpression name expr (solid isName) (solid isExpr) plain

/-- A lock without an expression is printed as its name. -/
theorem toList_text_ofName (name : String) : (ofName name).text.toList = name.toList := rfl

/-- The expression of a lock is printed behind the name, in parentheses. -/
theorem toList_text_ofExpr {name expr : String} (some : expr ≠ "") :
    (ofExpr name expr).text.toList = name.toList ++ '(' :: (expr.toList ++ [')']) := by
  rw [text, ofExpr, if_neg some]
  simp

/-- The text of a legible lock holds no space. -/
theorem Legible.space_notMem {lock : Lock} (legible : lock.Legible) : ' ' ∉ lock.text.toList := by
  have absent : ∀ {word : String}, Solid word → ' ' ∉ word.toList := fun solid member =>
    Bool.false_ne_true ((solid.2 ' ' member).symm.trans (by decide))
  cases legible with
  | programWide name solid plain => exact absent solid
  | byExpression name expr solid solidExpr plain =>
    rw [toList_text_ofExpr solidExpr.1]
    simp [absent solid, absent solidExpr]

/-- Legible locks are shown alike only if they are one lock. -/
theorem Legible.eq_of_text {left right : Lock} (legible : left.Legible)
    (otherLegible : right.Legible) (same : left.text = right.text) : left = right := by
  have chars := congrArg String.toList same
  cases legible with
  | programWide name solid plain =>
    cases otherLegible with
    | programWide other otherSolid otherPlain => exact congrArg ofName same
    | byExpression other expr otherSolid solidExpr otherPlain =>
      rw [toList_text_ofName, toList_text_ofExpr solidExpr.1] at chars
      exact absurd (chars ▸ List.mem_append_right _ List.mem_cons_self) plain
  | byExpression name expr solid solidExpr plain =>
    cases otherLegible with
    | programWide other otherSolid otherPlain =>
      rw [toList_text_ofName, toList_text_ofExpr solidExpr.1] at chars
      exact absurd (chars ▸ List.mem_append_right _ List.mem_cons_self) otherPlain
    | byExpression other otherExpr otherSolid otherSolidExpr otherPlain =>
      rw [toList_text_ofExpr solidExpr.1, toList_text_ofExpr otherSolidExpr.1] at chars
      obtain ⟨names, behind⟩ := eq_of_firstMark plain otherPlain chars
      rw [String.toList_injective names,
        String.toList_injective (List.append_cancel_right behind)]

end Lock

namespace Holdings

/-! ## Entries -/

/-- An entry is printed as its lock and, in brackets, the digits of its count. -/
theorem toList_entryText (entry : Lock × Nat) : (entryText entry).toList =
    entry.1.text.toList ++ '[' :: (Nat.toDigits 10 entry.2 ++ [']']) := by
  simp [entryText]

/-- The digits of a count hold no other character. -/
theorem notMem_toDigits (mark : Char) (noDigit : mark.isDigit = false) (count : Nat) :
    mark ∉ Nat.toDigits 10 count := fun member =>
  Bool.false_ne_true
    (noDigit.symm.trans (Nat.isDigit_of_mem_toDigits (by decide) (by decide) member))

/-- An entry with a legible lock is shown without a space. -/
theorem space_notMem_entryText {entry : Lock × Nat} (legible : entry.1.Legible) :
    ' ' ∉ (entryText entry).toList := by
  rw [toList_entryText]
  simp [legible.space_notMem, notMem_toDigits ' ' (by decide)]

/-- Entries with legible locks are shown alike only if they are one entry. -/
theorem eq_of_entryText {entry other : Lock × Nat} (legible : entry.1.Legible)
    (otherLegible : other.1.Legible) (same : entryText entry = entryText other) :
    entry = other := by
  have chars := congrArg String.toList same
  rw [toList_entryText, toList_entryText] at chars
  have bracket : ∀ count, '[' ∉ Nat.toDigits 10 count ++ [']'] := fun count => by
    simp [notMem_toDigits '[' (by decide)]
  obtain ⟨locks, behind⟩ := eq_of_lastMark (bracket _) (bracket _) chars
  have counts : entry.2 = other.2 := calc
    entry.2 = Nat.ofDigitChars 10 (Nat.toDigits 10 entry.2) 0 :=
      Nat.ofDigitChars_ten_toDigits.symm
    _ = Nat.ofDigitChars 10 (Nat.toDigits 10 other.2) 0 := by
      rw [List.append_cancel_right behind]
    _ = other.2 := Nat.ofDigitChars_ten_toDigits
  exact Prod.ext (legible.eq_of_text otherLegible (String.toList_injective locks)) counts

/-! ## Holdings -/

/-- Rows of entries with legible locks are shown alike, entry by entry, only if they are one row. -/
theorem eq_of_entryTexts {entries others : List (Lock × Nat)}
    (legible : ∀ entry ∈ entries, entry.1.Legible)
    (otherLegible : ∀ entry ∈ others, entry.1.Legible)
    (same : entries.map entryText = others.map entryText) : entries = others := by
  induction entries generalizing others with
  | nil => exact (List.map_eq_nil_iff.mp same.symm).symm
  | cons entry rest inductionHypothesis =>
    cases others with
    | nil => cases same
    | cons other otherRest =>
      obtain ⟨first, legibleRest⟩ := List.forall_mem_cons.mp legible
      obtain ⟨otherFirst, otherLegibleRest⟩ := List.forall_mem_cons.mp otherLegible
      obtain ⟨here, behind⟩ := List.cons.inj same
      rw [eq_of_entryText first otherFirst here,
        inductionHypothesis legibleRest otherLegibleRest behind]

/-- The phrase for no locks is not how some locks are shown. -/
theorem text_ne_of_held {holdings : Holdings} (held : holdings.entries ≠ []) :
    holdings.text ≠ Holdings.empty.text := by
  obtain ⟨front, ends⟩ := holdings.text_ends_of_held held
  intro phrase
  have last := congrArg (fun text => text.toList.getLast?) (ends.symm.trans phrase)
  simp [text, isEmpty, empty] at last

/-- Holdings of legible locks are shown alike only if they are the same. -/
theorem eq_of_text {left right : Holdings}
    (legible : ∀ entry ∈ left.entries, entry.1.Legible)
    (otherLegible : ∀ entry ∈ right.entries, entry.1.Legible)
    (same : left.text = right.text) : left = right := by
  by_cases held : left.entries = []
  · obtain rfl : left = .empty := congrArg Holdings.mk held
    by_cases otherHeld : right.entries = []
    · exact (congrArg Holdings.mk otherHeld).symm
    · exact absurd same.symm (text_ne_of_held otherHeld)
  · have otherHeld : right.entries ≠ [] := by
      intro none
      obtain rfl : right = .empty := congrArg Holdings.mk none
      exact text_ne_of_held held same
    have unspaced : ∀ entries : List (Lock × Nat), (∀ entry ∈ entries, entry.1.Legible) →
        ∀ word ∈ entries.map entryText, ' ' ∉ word.toList := by
      intro entries allLegible word member
      obtain ⟨entry, listed, rfl⟩ := List.mem_map.mp member
      exact space_notMem_entryText (allLegible entry listed)
    rw [text, text, if_neg (by simpa [isEmpty] using held),
      if_neg (by simpa [isEmpty] using otherHeld)] at same
    have texts := eq_of_intercalate (by simpa using held) (by simpa using otherHeld)
      (unspaced _ legible) (unspaced _ otherLegible) same
    exact congrArg Holdings.mk (eq_of_entryTexts legible otherLegible texts)

end Holdings

namespace State

/-- A printed state tells what it holds. States that hold only legible locks are printed alike
exactly if they hold the same: the same locks with the same counts, whatever they return to.

Proof: the phrase for no locks does not end in a bracket, as all others do. The entries are told
apart by the space, the lock of an entry from its count by the last opening bracket, and the name
of a lock from its expression by the first opening parenthesis. -/
theorem printed_alike_iff {left right : State}
    (legible : ∀ entry ∈ left.holdings.entries, entry.1.Legible)
    (otherLegible : ∀ entry ∈ right.holdings.entries, entry.1.Legible) :
    left.text = right.text ↔ left.holdings = right.holdings := by
  constructor
  · exact Holdings.eq_of_text legible otherLegible
  · intro same
    rw [text, text, same]

/-- One lock whose expression reads like the end of an entry and the beginning of another, and the
two locks that it reads like. A space is all that differs in what is printed. -/
theorem lookalikes_printed_apart :
    State.text ⟨⟨0, ⟨[(.ofExpr "a" "b)[1],c(d", 1)]⟩⟩, []⟩ ≠
      State.text ⟨⟨0, ⟨[(.ofExpr "a" "b", 1), (.ofExpr "c" "d", 1)]⟩⟩, []⟩ := by
  have written : ∀ name expr, Trace.IsWord name → Trace.IsWord expr → '(' ∉ name.toList →
      (Lock.ofExpr name expr).Legible := fun name expr isName isExpr =>
    (Lock.Representable.byExpression name expr isName isExpr).legible
  have legible : ∀ entry ∈ [(Lock.ofExpr "a" "b)[1],c(d", 1)], entry.1.Legible := by
    rw [List.forall_mem_singleton]
    apply written <;> simp [Trace.IsWord, Trace.isBlank]
  have otherLegible : ∀ entry ∈ [(Lock.ofExpr "a" "b", 1), (Lock.ofExpr "c" "d", 1)],
      entry.1.Legible := by
    rw [List.forall_mem_cons, List.forall_mem_singleton]
    constructor <;> apply written <;> simp [Trace.IsWord, Trace.isBlank]
  rw [ne_eq, printed_alike_iff legible otherLegible]
  decide

-- A name that holds a parenthesis is not told from a name with an expression.
example : State.text ⟨⟨0, ⟨[(.ofName "a(b)", 1)]⟩⟩, []⟩ =
    State.text ⟨⟨0, ⟨[(.ofExpr "a" "b", 1)]⟩⟩, []⟩ := rfl

end State

end HeldLocks
