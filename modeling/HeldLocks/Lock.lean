/-!
# Locks

A lock is named by the family of primitives that operate on it, such as `mutex` or
`spin`. A family with one lock for the whole program needs nothing more; otherwise
the expression at the place of use tells its locks apart, as in `mutex(dev->lock)`.

Locks are ordered by name, then expression, then scope. Every table of held locks is
kept in this order, so the order has to be total and may call two locks equal only if
they are one lock: the instances `Std.TransOrd Lock` and `Std.LawfulEqOrd Lock` say so.
-/

namespace HeldLocks

/-- How far the name of a lock reaches. The constructors stand in ascending order. -/
inductive Scope where
  /-- One lock for the whole program. -/
  | programWide
  /-- A lock denoted by an expression at the place of use. -/
  | byExpression
deriving DecidableEq, Hashable

namespace Scope

/-- The place of a scope among the scopes. -/
def rank : Scope → Nat
  | programWide => 0
  | byExpression => 1

/-- The rank determines the scope. -/
theorem rank_injective (x y : Scope) (sameRank : x.rank = y.rank) : x = y := by
  cases x <;> cases y <;> simp_all [rank]

end Scope

/-- A lock that a program acquires and releases. The three parts are independent: an
    expression may stand beside a program-wide scope, and may be empty beside either. -/
structure Lock where
  /-- The family of primitives that operate on the lock. -/
  name : String
  /-- The expression that denotes the lock, empty if there is none. -/
  expr : String
  /-- How far the name reaches. -/
  scope : Scope
deriving DecidableEq, Hashable

namespace Lock

/-- The program-wide lock of a family. -/
def ofName (name : String) : Lock := ⟨name, "", .programWide⟩

/-- The lock of a family that an expression denotes. -/
def ofExpr (name expr : String) : Lock := ⟨name, expr, .byExpression⟩

/-- The name, followed by the expression in parentheses if there is one. The scope is
    not shown. -/
def text (lock : Lock) : String :=
  if lock.expr = "" then lock.name else lock.name ++ "(" ++ lock.expr ++ ")"

/-- Name first, then expression, then scope. Strings compare by code points. -/
instance : Ord Lock where
  compare := compareLex (compareOn name)
    (compareLex (compareOn expr) (compareOn fun lock => lock.scope.rank))

/-- The order is total and transitive because each of its three keys is. -/
instance : Std.TransOrd Lock :=
  inferInstanceAs (Std.TransCmp (compareLex (compareOn name)
    (compareLex (compareOn expr) (compareOn fun lock => lock.scope.rank))))

/-- The comparison spelled out. -/
theorem compare_def (x y : Lock) : compare x y =
    (compare x.name y.name).then
      ((compare x.expr y.expr).then (compare x.scope.rank y.scope.rank)) := rfl

/-- A lock compares as equal with itself only. -/
instance : Std.LawfulEqOrd Lock where
  compare_self := Std.ReflOrd.compare_self
  eq_of_compare {x y} same := by
    rw [compare_def, Ordering.then_eq_eq, Ordering.then_eq_eq] at same
    obtain ⟨name, expr, scope⟩ := same
    cases x
    cases y
    simp only [Std.LawfulEqOrd.compare_eq_iff_eq] at name expr scope
    rw [name, expr, Scope.rank_injective _ _ scope]

/-- A lock is below another if the comparison puts it there. -/
instance : LT Lock where
  lt x y := compare x y = .lt

/-- The order of locks is decided by the comparison. -/
instance (x y : Lock) : Decidable (x < y) := inferInstanceAs (Decidable (compare x y = .lt))

/-- What it means for a lock to be below another. -/
theorem lt_def (x y : Lock) : x < y ↔ compare x y = .lt := Iff.rfl

/-- The order of locks is transitive, as that of their ranks is. -/
protected theorem lt_trans {x y z : Lock} (first : x < y) (second : y < z) : x < z :=
  Std.TransCmp.lt_trans first second

/-- No lock is below itself. -/
protected theorem lt_irrefl (x : Lock) : ¬ x < x := by
  rw [lt_def, Std.ReflOrd.compare_self]
  exact Ordering.noConfusion

/-- The larger lock is the one that the comparison puts second. -/
theorem compare_eq_gt_iff (x y : Lock) : compare x y = .gt ↔ y < x := by
  rw [lt_def, Std.OrientedOrd.eq_swap, Ordering.swap_eq_gt]

/-- The comparison as an integer: -1, 0 or 1. -/
def compareInt (x y : Lock) : Int :=
  match compare x y with
  | .lt => -1
  | .eq => 0
  | .gt => 1

end Lock

end HeldLocks
