import HeldLocks.Draft.Basic

/-!
# Edits

An edit is one change of a draft, as a value. Applying it is the only thing here that can
be refused, and for two reasons: the draft has been built, or a negative count is asked
for. A draft that has been built refuses first.
-/

namespace HeldLocks

/-- A use of a draft that its rules exclude. -/
inductive Misuse where
  /-- A draft that has been built was changed or built again. -/
  | usedAfterBuild
  /-- A lock was to be given a negative count. -/
  | negativeCount
deriving DecidableEq

/-- The wording of a misuse. -/
def Misuse.message : Misuse → String
  | usedAfterBuild => "lock state builder used after build()"
  | negativeCount => "negative lock counter"

/-- One change of a draft: each constructor stands for the change of the same name in
    `HeldLocks.Draft.Basic`. Three of them look at another state, the root, which is given
    itself or by a name for it. -/
inductive Edit (Root : Type) where
  | acquire (lock : Lock)
  | release (lock : Lock)
  | forget (lock : Lock)
  | assign (lock : Lock) (count : Int)
  | restore (lock : Lock)
  | restoreAll
  | forgetAll
  | save
  | abort
  | detach
  | drop (locks : LockSet)
  | flatten (kept : LockSet)
  | attach (root : Root)
  | reinstate (root : Root) (used : LockSet)
  | reapply (root : Root) (used : LockSet)
deriving DecidableEq

namespace Edit

/-- Look up the root of an edit. Nothing comes out if there is no such root. -/
def resolve? {Name Root : Type} (find? : Name → Option Root) : Edit Name → Option (Edit Root)
  | acquire lock => some (acquire lock)
  | release lock => some (release lock)
  | forget lock => some (forget lock)
  | assign lock count => some (assign lock count)
  | restore lock => some (restore lock)
  | restoreAll => some restoreAll
  | forgetAll => some forgetAll
  | detach => some detach
  | drop locks => some (drop locks)
  | flatten kept => some (flatten kept)
  | attach root => (find? root).map attach
  | reinstate root used => (find? root).map (reinstate · used)
  | reapply root used => (find? root).map (reapply · used)
  | save => some save
  | abort => some abort

/-- The state that an edit looks at, if it looks at one. -/
def root? {Root : Type} : Edit Root → Option Root
  | attach root | reinstate root _ | reapply root _ => some root
  | _ => none

/-- Why no draft accepts an edit, if none does. -/
def refusal? {Root : Type} : Edit Root → Option Misuse
  | assign _ (.negSucc _) => some .negativeCount
  | _ => none

end Edit

namespace Draft

/-- What an edit does to a draft that accepts it. -/
def change (draft : Draft) : Edit State → Draft
  | .acquire lock => draft.acquire lock 1
  | .release lock => draft.release lock 1
  | .forget lock => draft.forget lock
  | .assign lock count => draft.assign lock count.toNat
  | .restore lock => draft.restore lock
  | .restoreAll => draft.restoreAll
  | .forgetAll => draft.forgetAll
  | .detach => draft.detach
  | .drop locks => draft.drop locks
  | .flatten kept => draft.flatten kept
  | .attach root => draft.attach root
  | .reinstate root used => draft.reinstate root used
  | .reapply root used => draft.reapply root used
  | .save => draft.save
  | .abort => draft.abort

/-- Apply an edit. A built draft accepts none, and no draft accepts a negative count. -/
def edit (draft : Draft) (edit : Edit State) : Except Misuse Draft :=
  if draft.status = .built then .error .usedAfterBuild
  else match edit.refusal? with
    | some misuse => .error misuse
    | none => .ok (draft.change edit)

/-- Apply edits in order, up to the first that is refused. -/
def editAll (draft : Draft) (edits : List (Edit State)) : Except Misuse Draft :=
  edits.foldlM edit draft

end Draft

end HeldLocks
