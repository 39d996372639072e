import HeldLocks.Lock

/-!
# The order of texts as an order of bytes

Locks are named by texts, and texts are compared by their code points. Where a text is stored it is
a string of bytes, in the encoding UTF-8, and it is the bytes that are compared: by the first in
which two strings differ, and by length if the shorter is the beginning of the longer. The two come
to the same order (`Bytes.compareBytes_encode`). A character with a larger code point is encoded by
bytes that are larger at the first difference, and there is a difference before either character
ends.

Not every string of bytes encodes a text. But the bytes may be taken for code points themselves, and
then every string of bytes is a text in its own way, with the same order
(`Bytes.compare_widen`). So what holds of all texts and their order holds of all strings of bytes.
-/

namespace HeldLocks.Bytes

/-! ## Sequences of numbers -/

/-- Compare two sequences by the first numbers in which they differ, as far as both go. -/
def compareShared : List Nat → List Nat → Ordering
  | left :: lefts, right :: rights => (compare left right).then (compareShared lefts rights)
  | _, _ => .eq

/-- Compare two sequences by the first numbers in which they differ, and else by length. -/
def compareUnits (left right : List Nat) : Ordering :=
  (compareShared left right).then (compare left.length right.length)

/-- The first units decide unless they are the same. -/
theorem compareUnits_cons (left right : Nat) (lefts rights : List Nat) :
    compareUnits (left :: lefts) (right :: rights) =
      (compare left right).then (compareUnits lefts rights) := by
  have lengths : compare (lefts.length + 1) (rights.length + 1) =
      compare lefts.length rights.length := by
    simp only [Nat.compare_eq_ite_lt, Nat.add_lt_add_iff_right]
  rw [compareUnits, compareUnits, compareShared, List.length_cons, List.length_cons, lengths,
    Ordering.then_assoc]

/-- What two sequences begin with alike takes no part. -/
theorem compareUnits_append (shared left right : List Nat) :
    compareUnits (shared ++ left) (shared ++ right) = compareUnits left right := by
  induction shared with
  | nil => rfl
  | cons unit rest inductionHypothesis =>
    rw [List.cons_append, List.cons_append, compareUnits_cons, Std.ReflOrd.compare_self,
      inductionHypothesis]
    rfl

/-- Changing the sides reverses the result. -/
theorem compareUnits_swap (left right : List Nat) :
    compareUnits left right = (compareUnits right left).swap := by
  induction left generalizing right with
  | nil => cases right <;> rfl
  | cons unit rest inductionHypothesis =>
    cases right with
    | nil => rfl
    | cons other others =>
      rw [compareUnits_cons, compareUnits_cons, inductionHypothesis, Ordering.swap_then,
        Std.OrientedOrd.eq_swap (a := unit)]

/-! ## Texts by code points -/

/-- The code points of a text. -/
def codes (text : String) : List Nat := text.toList.map Char.toNat

/-- Lists of characters are compared by the characters' code points. -/
theorem compareOfLessAndEq_codes (lefts rights : List Char) :
    compareOfLessAndEq lefts rights =
      compareUnits (lefts.map Char.toNat) (rights.map Char.toNat) := by
  induction lefts generalizing rights with
  | nil => cases rights <;> rfl
  | cons first rest inductionHypothesis =>
    cases rights with
    | nil => rfl
    | cons other others =>
      have decided : first :: rest < other :: others ↔
          first < other ∨ first = other ∧ rest < others := List.cons_lt_cons_iff
      rw [List.map_cons, List.map_cons, compareUnits_cons, ← inductionHypothesis]
      rcases Nat.lt_trichotomy first.toNat other.toNat with before | same | after
      · rw [Nat.compare_eq_lt.mpr before]
        exact if_pos (decided.mpr (Or.inl before))
      · obtain rfl := Char.toNat_inj.mp same
        rw [Std.ReflOrd.compare_self]
        simp [compareOfLessAndEq]
      · rw [Nat.compare_eq_gt.mpr after]
        have apart : first ≠ other := fun same => Nat.lt_irrefl _ (same ▸ after)
        have notBefore : ¬ first < other := Nat.lt_asymm after
        rw [compareOfLessAndEq, if_neg (by simp [decided, notBefore, apart]),
          if_neg (by simp [apart])]
        rfl

/-- Texts are compared by their code points. -/
theorem compare_eq_compareUnits (left right : String) :
    compare left right = compareUnits (codes left) (codes right) := by
  rw [codes, codes, ← compareOfLessAndEq_codes]
  change compareOfLessAndEq left right = _
  have listed : left < right ↔ left.toList < right.toList := Iff.rfl
  simp only [compareOfLessAndEq, String.toList_inj, listed]

/-! ## Texts by their encoding -/

/-- Every code point is below the end of the Unicode range. -/
theorem toNat_lt (char : Char) : char.val.toNat < 1114112 := by
  rcases char.valid with low | ⟨_, high⟩
  · exact Nat.lt_trans low (by decide)
  · exact high

/-- The six bits of a byte that continues a character, and the three of one that begins a character
of four bytes, stay in the byte beside the mark that precedes them. -/
theorem mod_byte (digit : Nat) : (digit % 64 + 128) % 256 = digit % 64 + 128 ∧
    (digit % 8 + 240) % 256 = digit % 8 + 240 := by
  omega

/-- A code point is cut into pieces of six bits, and three bits are enough for the last. -/
theorem pieces (code : Nat) (bounded : code < 1114112) :
    code / 64 / 64 = code / 4096 ∧ code / 4096 / 64 = code / 262144 ∧
      code / 262144 % 8 = code / 262144 :=
  ⟨Nat.div_div_eq_div_mul code 64 64, Nat.div_div_eq_div_mul code 4096 64,
    Nat.mod_eq_of_lt (by omega)⟩

/-- A character with a smaller code point is encoded by bytes that come first, whatever follows on
either side. -/
theorem compareUnits_encoded_of_lt (left right : Char) (smaller : left.val.toNat < right.val.toNat)
    (lefts rights : List Nat) :
    compareUnits ((String.utf8EncodeChar left).map UInt8.toNat ++ lefts)
      ((String.utf8EncodeChar right).map UInt8.toNat ++ rights) = .lt := by
  have leftPieces := pieces left.val.toNat (toNat_lt left)
  have rightPieces := pieces right.val.toNat (toNat_lt right)
  have bounded := toNat_lt right
  simp only [String.utf8EncodeChar]
  generalize left.val.toNat = code at *
  generalize right.val.toNat = other at *
  -- Each character has one of four lengths. The shorter has the smaller first byte, and of two of
  -- one length the pieces that differ first decide.
  repeat' split
  all_goals
    simp only [List.map_cons, List.map_nil, List.cons_append, List.nil_append, compareUnits_cons,
      mod_byte, Ordering.then_eq_lt, Nat.compare_eq_lt, Nat.compare_eq_eq, UInt8.toNat_ofNat',
      Nat.reducePow]
    omega

/-- The bytes of characters that are encoded one after another. -/
def byteCodes (chars : List Char) : List Nat :=
  (chars.flatMap String.utf8EncodeChar).map UInt8.toNat

/-- The bytes of a text are those of its first character, and then those of the rest. -/
theorem byteCodes_cons (char : Char) (rest : List Char) :
    byteCodes (char :: rest) = (String.utf8EncodeChar char).map UInt8.toNat ++ byteCodes rest := by
  rw [byteCodes, List.flatMap_cons, List.map_append, byteCodes]

/-- Every character takes a byte at least, so where characters remain there are bytes. -/
theorem compareUnits_nil_byteCodes (char : Char) (rest : List Char) :
    compareUnits [] (byteCodes (char :: rest)) = .lt := by
  rw [byteCodes_cons]
  cases encoded : String.utf8EncodeChar char with
  | nil => exact absurd encoded String.utf8EncodeChar_ne_nil
  | cons byte bytes => rfl

/-- The bytes of two lists of characters compare as the characters do. -/
theorem compareUnits_byteCodes (lefts rights : List Char) :
    compareUnits (byteCodes lefts) (byteCodes rights) =
      compareUnits (lefts.map Char.toNat) (rights.map Char.toNat) := by
  induction lefts generalizing rights with
  | nil =>
    cases rights with
    | nil => rfl
    | cons other others => exact compareUnits_nil_byteCodes other others
  | cons first rest inductionHypothesis =>
    cases rights with
    | nil =>
      rw [compareUnits_swap]
      exact congrArg Ordering.swap (compareUnits_nil_byteCodes first rest)
    | cons other others =>
      rw [List.map_cons, List.map_cons, compareUnits_cons, byteCodes_cons, byteCodes_cons]
      rcases Nat.lt_trichotomy first.toNat other.toNat with before | same | after
      · rw [Nat.compare_eq_lt.mpr before, compareUnits_encoded_of_lt first other before]
        rfl
      · obtain rfl := Char.toNat_inj.mp same
        rw [Std.ReflOrd.compare_self, compareUnits_append, inductionHypothesis]
        rfl
      · rw [Nat.compare_eq_gt.mpr after, compareUnits_swap,
          compareUnits_encoded_of_lt other first after]
        rfl

/-! ## Strings of bytes -/

/-- Compare two strings of bytes by the first bytes in which they differ, and else by length. -/
def compareBytes (left right : List UInt8) : Ordering :=
  compareUnits (left.map UInt8.toNat) (right.map UInt8.toNat)

/-- The comparison as an integer: -1, 0 or 1. -/
def compareInt (left right : List UInt8) : Int :=
  match compareBytes left right with
  | .lt => -1
  | .eq => 0
  | .gt => 1

/-- The bytes that encode a text. -/
def encode (text : String) : List UInt8 := text.toUTF8.data.toList

/-- A text is encoded character by character. -/
theorem encode_eq_flatMap (text : String) :
    encode text = text.toList.flatMap String.utf8EncodeChar := by
  rw [encode, String.toUTF8_eq_toByteArray, ← String.utf8Encode_toList, List.utf8Encode,
    List.toList_data_toByteArray]

/-- Texts are in the order of their encodings. -/
theorem compareBytes_encode (left right : String) :
    compareBytes (encode left) (encode right) = compare left right := by
  rw [compareBytes, encode_eq_flatMap, encode_eq_flatMap, compare_eq_compareUnits]
  exact compareUnits_byteCodes left.toList right.toList

/-- A string of bytes as a text in which each byte is the code point of a character. -/
def widen (bytes : List UInt8) : String := String.ofList (bytes.map Char.ofUInt8)

/-- Widening keeps the values of bytes as code points. -/
theorem codes_widen (bytes : List UInt8) : codes (widen bytes) = bytes.map UInt8.toNat := by
  rw [codes, widen, String.toList_ofList, List.map_map]
  rfl

/-- Any two strings of bytes are in the order of the texts they are taken for. -/
theorem compare_widen (left right : List UInt8) :
    compare (widen left) (widen right) = compareBytes left right := by
  rw [compare_eq_compareUnits, codes_widen, codes_widen, compareBytes]

/-- No two sequences of bytes are widened to the same text. -/
theorem widen_injective {left right : List UInt8} (same : widen left = widen right) :
    left = right := by
  have sameCodes := congrArg codes same
  rw [codes_widen, codes_widen] at sameCodes
  exact List.map_inj_right (fun _ _ => UInt8.toNat_inj.mp) |>.mp sameCodes

end HeldLocks.Bytes
