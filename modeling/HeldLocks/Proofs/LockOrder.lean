import HeldLocks.LockSet
import HeldLocks.Proofs.ByteOrder
import HeldLocks.Proofs.Precedence
import Mathlib.Data.List.Basic
import Mathlib.Data.Set.List

/-!
# The order of locks

Every table of held locks and every set of locks relies on two things: that locks are in one total
order, and that the order calls two locks equal only if they are one lock. A comparison gives an
integer, and `OrdersTotally` says what these two things ask of it. The comparison of locks satisfies
it (`Lock.ordersTotally`), and then the set of a list is a listing of the list: ascending, with the
same members, and with one element for each lock that the list names (`LockSet.lists_ofList`).

The name and the expression of a `Lock` are texts. Those of a `StoredLock` are strings of bytes, and
not all of them encode a text, so there are more stored locks than locks. But a string of bytes can
be taken for a text of its own, byte by byte, and a stored lock for a lock, without a change in the
outcome of any comparison (`StoredLock.compareInt_lock`). So stored locks are in a total order
because locks are. On the stored locks that do encode locks it is the order of these
(`Lock.compareInt_stored`).
-/

namespace HeldLocks

variable {α β : Type}

/-! ## Comparisons that give integers -/

/-- A comparison with three outcomes that puts everything in one order, and calls equal only what
is. -/
structure OrdersTotally (compareTo : α → α → Int) : Prop where
  /-- The outcomes are -1, 0 and 1. -/
  outcome (x y : α) : compareTo x y = -1 ∨ compareTo x y = 0 ∨ compareTo x y = 1
  /-- Comparing the other way round gives the opposite. -/
  swap (x y : α) : compareTo x y = -(compareTo y x)
  /-- Zero is for equal things, and for these only. -/
  zero_iff (x y : α) : compareTo x y = 0 ↔ x = y
  /-- What comes before something comes before what this comes before. -/
  trans (x y z : α) : compareTo x y < 0 → compareTo y z < 0 → compareTo x z < 0

/-- Things that can be taken for others, different ones for different ones, are in a total order if
the others are. -/
theorem OrdersTotally.comap {compareTo : β → β → Int} (total : OrdersTotally compareTo)
    {taken : α → β} (injective : Function.Injective taken) :
    OrdersTotally fun x y => compareTo (taken x) (taken y) where
  outcome x y := total.outcome (taken x) (taken y)
  swap x y := total.swap (taken x) (taken y)
  zero_iff x y := (total.zero_iff (taken x) (taken y)).trans injective.eq_iff
  trans x y z := total.trans (taken x) (taken y) (taken z)

variable [DecidableEq α]

/-- A list is an ascending listing of what another one names. -/
structure ListsOnce (compareTo : α → α → Int) (given listed : List α) : Prop where
  /-- Everything comes before all that stands after it. -/
  ascending : listed.Pairwise fun x y => compareTo x y < 0
  /-- What is listed is what is given. -/
  mem_iff (x : α) : x ∈ listed ↔ x ∈ given
  /-- There is one element for each different thing that is given. -/
  length : listed.length = given.eraseDups.length

/-- A list without its repetitions has none. -/
theorem nodup_eraseDups (given : List α) : given.eraseDups.Nodup := by
  cases given with
  | nil => exact List.nodup_nil
  | cons first rest =>
    rw [List.eraseDups_cons, List.nodup_cons, List.mem_eraseDups]
    exact ⟨by simp, nodup_eraseDups _⟩
termination_by given.length
decreasing_by exact Nat.lt_succ_of_le (List.length_filter_le _ rest)

/-- An ascending list with the members of another lists it: ascending, it has no repetition, and so
the length is the number of members. -/
theorem ListsOnce.of_ascending {compareTo : α → α → Int} (total : OrdersTotally compareTo)
    {given listed : List α} (ascending : listed.Pairwise fun x y => compareTo x y < 0)
    (members : ∀ x, x ∈ listed ↔ x ∈ given) : ListsOnce compareTo given listed := by
  refine ⟨ascending, members, ?_⟩
  have once : listed.Nodup := ascending.imp fun {x y} before same => by
    have level := (total.zero_iff x y).mpr same
    omega
  have alike := (List.perm_ext_iff_of_nodup once (nodup_eraseDups given)).mpr fun x =>
    (members x).trans List.mem_eraseDups.symm
  exact alike.length_eq

/-! ## Locks -/

/-- Locks whose parts are texts are ordered totally. -/
theorem Lock.ordersTotally : OrdersTotally Lock.compareInt where
  outcome x y := by
    rw [compareInt]
    cases compare x y <;> simp
  swap := compareInt_swap
  zero_iff := compareInt_eq_zero_iff
  trans x y z first second := by
    rw [compareInt_neg_iff] at first second ⊢
    exact Lock.lt_trans first second

/-- The set of a list of locks lists it. -/
theorem LockSet.lists_ofList (locks : List Lock) :
    ListsOnce Lock.compareInt locks (ofList locks).elements :=
  .of_ascending Lock.ordersTotally
    ((ascending_ofList locks).imp fun {x y} => (Lock.compareInt_neg_iff x y).mpr)
    (mem_ofList locks)

/-! ## Stored locks -/

/-- A lock as it is stored. The name and the expression are strings of bytes, and any will do. -/
structure StoredLock where
  /-- The family of primitives that operate on the lock. -/
  name : List UInt8
  /-- The expression that denotes the lock, empty if there is none. -/
  expr : List UInt8
  /-- How far the name reaches. -/
  scope : Scope
deriving DecidableEq

namespace StoredLock

/-- Compare by name, then by expression, then by the difference of the scopes' ranks. -/
def compareInt (x y : StoredLock) : Int :=
  if Bytes.compareInt x.name y.name ≠ 0 then Bytes.compareInt x.name y.name
  else if Bytes.compareInt x.expr y.expr ≠ 0 then Bytes.compareInt x.expr y.expr
  else x.scope.rank - y.scope.rank

/-- The lock for which a stored one is taken, byte by byte. -/
def lock (stored : StoredLock) : Lock :=
  ⟨Bytes.widen stored.name, Bytes.widen stored.expr, stored.scope⟩

/-- Stored locks that differ are taken for locks that differ. -/
theorem lock_injective : Function.Injective lock := by
  intro x y same
  obtain ⟨sameName, sameExpr, sameScope⟩ := Lock.mk.injEq .. ▸ same
  cases x
  cases y
  rw [StoredLock.mk.injEq]
  exact ⟨Bytes.widen_injective sameName, Bytes.widen_injective sameExpr, sameScope⟩

/-- Two locks compare as two stored ones do if their names and expressions do and the scopes are
the same. -/
theorem compareInt_eq_of_parts {left right : Lock} {x y : StoredLock}
    (names : compare left.name right.name = Bytes.compareBytes x.name y.name)
    (exprs : compare left.expr right.expr = Bytes.compareBytes x.expr y.expr)
    (leftScope : left.scope = x.scope) (rightScope : right.scope = y.scope) :
    left.compareInt right = x.compareInt y := by
  rw [Lock.compareInt, Lock.compare_def, names, exprs, leftScope, rightScope, compareInt,
    Bytes.compareInt, Bytes.compareInt]
  cases Bytes.compareBytes x.name y.name with
  | lt => rfl
  | gt => rfl
  | eq =>
    cases Bytes.compareBytes x.expr y.expr with
    | lt => rfl
    | gt => rfl
    | eq => cases x.scope <;> cases y.scope <;> rfl

/-- They compare as the locks they are taken for. -/
theorem compareInt_lock (x y : StoredLock) : x.lock.compareInt y.lock = x.compareInt y :=
  compareInt_eq_of_parts (Bytes.compare_widen x.name y.name) (Bytes.compare_widen x.expr y.expr)
    rfl rfl

/-- So locks whose parts are any bytes are ordered totally. -/
theorem ordersTotally : OrdersTotally compareInt := by
  have taken := Lock.ordersTotally.comap lock_injective
  simpa only [compareInt_lock] using taken

/-- The set of the locks for which stored ones are taken lists the stored ones. -/
theorem lists_ofList (given : List StoredLock) : ∃ listed : List StoredLock,
    (LockSet.ofList (given.map lock)).elements = listed.map lock ∧
      ListsOnce compareInt given listed := by
  have lists := LockSet.lists_ofList (given.map lock)
  have inRange : (LockSet.ofList (given.map lock)).elements ∈ Set.range (List.map lock) := by
    rw [Set.range_list_map]
    intro element inside
    obtain ⟨stored, _, rfl⟩ := List.mem_map.mp ((lists.mem_iff element).mp inside)
    exact ⟨stored, rfl⟩
  obtain ⟨listed, same⟩ := inRange
  rw [← same] at lists
  refine ⟨listed, same.symm, .of_ascending ordersTotally ?_ ?_⟩
  · simpa only [List.pairwise_map, compareInt_lock] using lists.ascending
  · intro stored
    have members := lists.mem_iff stored.lock
    simpa only [List.mem_map_of_injective lock_injective] using members

end StoredLock

/-- A lock as it is stored, with name and expression encoded. -/
def Lock.stored (lock : Lock) : StoredLock :=
  ⟨Bytes.encode lock.name, Bytes.encode lock.expr, lock.scope⟩

/-- Stored as their encodings, locks compare as they do as texts. -/
theorem Lock.compareInt_stored (x y : Lock) : x.stored.compareInt y.stored = x.compareInt y :=
  (StoredLock.compareInt_eq_of_parts (Bytes.compareBytes_encode x.name y.name).symm
    (Bytes.compareBytes_encode x.expr y.expr).symm rfl rfl).symm

/-! ## The order and the sets -/

/-- Locks are totally ordered, and the order agrees with equality.

* The comparison of locks gives -1, 0 or 1, the opposite the other way round, and zero for equal
  locks only. To come before is transitive, and it is what a negative outcome says.
* The set of a list of locks is ascending, has exactly the locks of the list, and has as many
  elements as the list names different locks.
* The same is true of stored locks, whose names and expressions are any strings of bytes, and of the
  sets of the locks for which they are taken.
* Stored locks compare as these locks do, and locks compare as they do when they are stored.

Proof: texts are compared by their code points, so a text for which a string of bytes is taken
compares as the string does. The comparison of locks is made of comparisons of their parts, and each
law holds of it because it holds of those. What is strictly ascending has no repetition, and two
lists without repetition that have the same members have the same length. -/
theorem locks_totally_ordered :
    OrdersTotally Lock.compareInt ∧
    (∀ x y : Lock, x < y ↔ x.compareInt y < 0) ∧
    (∀ locks : List Lock, ListsOnce Lock.compareInt locks (LockSet.ofList locks).elements) ∧
    OrdersTotally StoredLock.compareInt ∧
    (∀ given : List StoredLock, ∃ listed : List StoredLock,
      (LockSet.ofList (given.map StoredLock.lock)).elements = listed.map StoredLock.lock ∧
        ListsOnce StoredLock.compareInt given listed) ∧
    (∀ x y : StoredLock, x.lock.compareInt y.lock = x.compareInt y) ∧
    ∀ x y : Lock, x.stored.compareInt y.stored = x.compareInt y :=
  ⟨Lock.ordersTotally, fun x y => (Lock.compareInt_neg_iff x y).symm, LockSet.lists_ofList,
    StoredLock.ordersTotally, StoredLock.lists_ofList, StoredLock.compareInt_lock,
    Lock.compareInt_stored⟩

/-- Three locks share a name of one byte with which no text is encoded. The scope parts the first
two, and an empty expression puts both before the third. So the first comes before the third, and a
list that gives one of them twice has a set of three. -/
theorem unreadable_locks_listed :
    StoredLock.compareInt ⟨[255], [], .programWide⟩ ⟨[255], [], .byExpression⟩ < 0 ∧
    StoredLock.compareInt ⟨[255], [], .byExpression⟩ ⟨[255], [0], .programWide⟩ < 0 ∧
    StoredLock.compareInt ⟨[255], [], .programWide⟩ ⟨[255], [0], .programWide⟩ < 0 ∧
    (LockSet.ofList (([⟨[255], [0], .programWide⟩, ⟨[255], [], .byExpression⟩,
      ⟨[255], [], .programWide⟩, ⟨[255], [], .byExpression⟩] : List StoredLock).map
        StoredLock.lock)).elements.length = 3 := by
  obtain ⟨_, _, _, total, sets, _⟩ := locks_totally_ordered
  have byScope :
      StoredLock.compareInt ⟨[255], [], .programWide⟩ ⟨[255], [], .byExpression⟩ < 0 := by decide
  have byExpr :
      StoredLock.compareInt ⟨[255], [], .byExpression⟩ ⟨[255], [0], .programWide⟩ < 0 := by decide
  refine ⟨byScope, byExpr, total.trans _ _ _ byScope byExpr, ?_⟩
  obtain ⟨listed, same, lists⟩ := sets [⟨[255], [0], .programWide⟩, ⟨[255], [], .byExpression⟩,
    ⟨[255], [], .programWide⟩, ⟨[255], [], .byExpression⟩]
  rw [same, List.length_map, lists.length]
  decide

end HeldLocks
