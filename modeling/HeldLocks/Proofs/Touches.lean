import HeldLocks.Proofs.Edits
import HeldLocks.Proofs.Workshops

/-!
# Acquisitions and releases one by one

A draft records its acquisitions and releases in runs, and an assignment makes a run in one go. This
module takes the runs apart. `Draft.log` lists every acquisition and release on its own, as the
single edit that it is, and the two changes that work by acquiring and releasing are compared with
such edits made one after the other.

An assignment fixes at the outset, by the count that it finds, how often it acquires or releases.
Made one by one, these edits are the turns of two loops. They move the count by one each, and the
last of them comes to the holdings that the run comes to (`Draft.Canonical.assign_eq_loops`,
`Draft.Canonical.assigned`). Flattening fixes at the outset which locks it
takes up, and then forgets each and acquires it once (`Draft.Canonical.flattened`).
-/

namespace HeldLocks

/-! ## The log -/

namespace Draft

/-- The single edits that a run stands for. -/
def Touch.edits : Touch → List (Edit State)
  | acquired lock times => List.replicate times (.acquire lock)
  | released lock times => List.replicate times (.release lock)

/-- All acquisitions and releases of a draft one by one, the earliest first. -/
def log (draft : Draft) : List (Edit State) := draft.touches.reverse.flatMap Touch.edits

/-- What is added to the record is added to the log, in the order in which it happened. -/
theorem log_of_touches {before after : Draft} {added : List Touch}
    (touches : after.touches = added ++ before.touches) :
    after.log = before.log ++ added.reverse.flatMap Touch.edits := by
  rw [log, touches, List.reverse_append, List.flatMap_append]
  rfl

/-- Acquiring is noted once with the number of times, and not at all for no time. -/
theorem touches_acquire (draft : Draft) (lock : Lock) (times : Nat) :
    (draft.acquire lock times).touches =
      (if times = 0 then [] else [.acquired lock times]) ++ draft.touches := by
  rw [acquire]
  split <;> rfl

/-- So is releasing. -/
theorem touches_release (draft : Draft) (lock : Lock) (times : Nat) :
    (draft.release lock times).touches =
      (if times = 0 then [] else [.released lock times]) ++ draft.touches := by
  rw [release]
  split <;> rfl

/-- In the log, acquiring stands as often as it happens. -/
theorem log_acquire (draft : Draft) (lock : Lock) (times : Nat) :
    (draft.acquire lock times).log = draft.log ++ List.replicate times (.acquire lock) := by
  rw [log_of_touches (draft.touches_acquire lock times)]
  split
  next none => rw [none]; rfl
  next => simp only [List.reverse_singleton, List.flatMap_singleton, Touch.edits]

/-- So does releasing. -/
theorem log_release (draft : Draft) (lock : Lock) (times : Nat) :
    (draft.release lock times).log = draft.log ++ List.replicate times (.release lock) := by
  rw [log_of_touches (draft.touches_release lock times)]
  split
  next none => rw [none]; rfl
  next => simp only [List.reverse_singleton, List.flatMap_singleton, Touch.edits]

/-- Flattening is recorded as one acquisition of every lock that it takes up. -/
theorem touches_flatten (draft : Draft) (kept : LockSet) :
    (draft.flatten kept).touches =
      (draft.holdings.locks.diff kept).elements.reverse.map (.acquired · 1) ++ draft.touches := by
  have folded : ∀ (list : List Lock) (start : Draft),
      (list.foldl (fun flattened lock => (flattened.forget lock).acquire lock 1) start).touches =
        list.reverse.map (.acquired · 1) ++ start.touches := by
    intro list
    induction list with
    | nil => intro start; rfl
    | cons lock rest inductionHypothesis =>
      intro start
      rw [List.foldl_cons, inductionHypothesis, touches_acquire, List.reverse_cons,
        List.map_append, List.append_assoc]
      rfl
  exact folded _ draft

end Draft

/-- The report of a change counts what the change has added to the record. -/
theorem Session.changeReport_of_touches {before after : Draft} {added : List Draft.Touch}
    (touches : after.touches = added ++ before.touches) :
    changeReport before after =
      .changed after (added.foldl (fun sum touch => sum + touch.acquisitions) 0)
        (added.foldl (fun sum touch => sum + touch.releases) 0) := by
  have fresh : after.touches.take (after.touches.length - before.touches.length) = added := by
    rw [touches, List.length_append, Nat.add_sub_cancel_right, List.take_left]
  simp only [changeReport, fresh]

/-! ## Single edits -/

/-- Whether an edit is a single acquisition or release. -/
def Edit.Single : Edit State → Prop
  | acquire _ | release _ => True
  | _ => False

/-- A single acquisition or release assigns no negative count. -/
theorem Edit.Single.valid {edit : Edit State} (single : edit.Single) : edit.Valid := by
  cases edit with
  | assign => exact single.elim
  | _ => trivial

/-- It looks at no other state. -/
theorem Edit.Single.rootless {edit : Edit State} (single : edit.Single) :
    ∀ root ∈ edit.root?, root.Canonical := by
  cases edit with
  | acquire | release => exact fun root looked => by cases looked
  | _ => exact single.elim

namespace Draft

/-- A single acquisition or release is logged, and changes nothing besides the holdings. -/
theorem log_change_of_single (draft : Draft) {edit : Edit State} (single : edit.Single) :
    (draft.change edit).log = draft.log ++ [edit] ∧
      (draft.change edit).context = draft.context := by
  cases edit with
  | acquire lock => exact ⟨draft.log_acquire lock 1, draft.context_acquire lock 1⟩
  | release lock => exact ⟨draft.log_release lock 1, draft.context_release lock 1⟩
  | _ => exact single.elim

/-- A row of them is logged as it is. -/
theorem log_changeAll_of_single (draft : Draft) {row : List (Edit State)}
    (single : ∀ edit ∈ row, edit.Single) :
    (draft.changeAll row).log = draft.log ++ row ∧
      (draft.changeAll row).context = draft.context := by
  induction row generalizing draft with
  | nil => exact ⟨(List.append_nil _).symm, rfl⟩
  | cons edit rest inductionHypothesis =>
    obtain ⟨first, others⟩ := List.forall_mem_cons.mp single
    obtain ⟨logged, context⟩ := draft.log_change_of_single first
    obtain ⟨restLogged, restContext⟩ := inductionHypothesis (draft.change edit) others
    rw [changeAll_cons, restLogged, restContext, logged, context, List.append_assoc]
    exact ⟨rfl, rfl⟩

/-- Run from a draft, each edit of a row either acquires the lock and raises its count by one or
releases it and lowers its count by one, and leaves every other count alone. -/
def MovesByOne (lock : Lock) : Draft → List (Edit State) → Prop
  | _, [] => True
  | draft, edit :: rest =>
    ((edit = .acquire lock ∧
        (draft.change edit).holdings.count lock = draft.holdings.count lock + 1) ∨
      (edit = .release lock ∧
        (draft.change edit).holdings.count lock + 1 = draft.holdings.count lock)) ∧
    (∀ other, other ≠ lock →
      (draft.change edit).holdings.count other = draft.holdings.count other) ∧
    MovesByOne lock (draft.change edit) rest

/-- Acquisitions of a lock raise its count one by one, up to their number. -/
theorem movesByOne_acquisitions (draft : Draft) (lock : Lock) (times : Nat) :
    MovesByOne lock draft (List.replicate times (.acquire lock)) ∧
      ∀ tested, (draft.changeAll (List.replicate times (.acquire lock))).holdings.count tested =
        if tested = lock then draft.holdings.count lock + times
        else draft.holdings.count tested := by
  induction times generalizing draft with
  | zero => exact ⟨trivial, fun tested => (ite_eq_right_iff.mpr fun here => here ▸ rfl).symm⟩
  | succ times inductionHypothesis =>
    obtain ⟨moves, counts⟩ := inductionHypothesis (draft.change (.acquire lock))
    have step := draft.count_acquire lock 1
    rw [List.replicate_succ]
    refine ⟨⟨Or.inl ⟨rfl, (step lock).trans (if_pos rfl)⟩,
      fun other apart => (step other).trans (if_neg apart), moves⟩, fun tested => ?_⟩
    rw [changeAll_cons, counts, change, step, step, if_pos rfl]
    split <;> omega

/-- Releases of a lock that is held that often lower its count one by one. -/
theorem movesByOne_releases (draft : Draft) (lock : Lock) (times : Nat)
    (enough : times ≤ draft.holdings.count lock) :
    MovesByOne lock draft (List.replicate times (.release lock)) ∧
      ∀ tested, (draft.changeAll (List.replicate times (.release lock))).holdings.count tested =
        if tested = lock then draft.holdings.count lock - times
        else draft.holdings.count tested := by
  induction times generalizing draft with
  | zero => exact ⟨trivial, fun tested => (ite_eq_right_iff.mpr fun here => here ▸ rfl).symm⟩
  | succ times inductionHypothesis =>
    have step := draft.count_release lock 1
    have lowered : (draft.change (.release lock)).holdings.count lock =
        draft.holdings.count lock - 1 := (step lock).trans (if_pos rfl)
    obtain ⟨moves, counts⟩ := inductionHypothesis (draft.change (.release lock)) (by omega)
    rw [List.replicate_succ]
    refine ⟨⟨Or.inr ⟨rfl, by omega⟩,
      fun other apart => (step other).trans (if_neg apart), moves⟩, fun tested => ?_⟩
    rw [changeAll_cons, counts, lowered, change, step]
    split <;> omega

end Draft

/-! ## Assignments -/

/-- The single edits that bring a lock from one count to another. At most one of the two differences
is positive. -/
def Edit.toward (lock : Lock) (held wanted : Nat) : List (Edit State) :=
  List.replicate (wanted - held) (.acquire lock) ++ List.replicate (held - wanted) (.release lock)

/-- All moves toward a count are single acquisitions or releases. -/
theorem Edit.single_of_mem_toward {lock : Lock} {held wanted : Nat} {edit : Edit State}
    (member : edit ∈ toward lock held wanted) : edit.Single := by
  rcases List.mem_append.mp member with acquired | released
  · rw [List.eq_of_mem_replicate acquired]
    trivial
  · rw [List.eq_of_mem_replicate released]
    trivial

namespace Draft

/-- They lead from the first count to the second one by one. -/
theorem movesByOne_toward (draft : Draft) (lock : Lock) (count : Nat) :
    MovesByOne lock draft (Edit.toward lock (draft.holdings.count lock) count) ∧
      ∀ tested, (draft.changeAll
          (Edit.toward lock (draft.holdings.count lock) count)).holdings.count tested =
        if tested = lock then count else draft.holdings.count tested := by
  rw [Edit.toward]
  rcases Nat.le_total count (draft.holdings.count lock) with fewer | more
  · have run := draft.movesByOne_releases lock _ (Nat.sub_le (draft.holdings.count lock) count)
    rw [Nat.sub_sub_self fewer] at run
    rwa [Nat.sub_eq_zero_of_le fewer]
  · have run := draft.movesByOne_acquisitions lock (count - draft.holdings.count lock)
    rw [Nat.add_sub_cancel' more] at run
    rwa [Nat.sub_eq_zero_of_le more, List.replicate_zero, List.append_nil]

/-- A loop of acquisitions makes them one after the other. -/
theorem acquireEach_eq_changeAll (draft : Draft) (lock : Lock) (times : Nat) :
    draft.acquireEach lock times = draft.changeAll (List.replicate times (.acquire lock)) := by
  induction times generalizing draft with
  | zero => rfl
  | succ times inductionHypothesis =>
    rw [acquireEach, inductionHypothesis, List.replicate_succ, changeAll_cons]
    rfl

/-- So does a loop of releases. -/
theorem releaseEach_eq_changeAll (draft : Draft) (lock : Lock) (times : Nat) :
    draft.releaseEach lock times = draft.changeAll (List.replicate times (.release lock)) := by
  induction times generalizing draft with
  | zero => rfl
  | succ times inductionHypothesis =>
    rw [releaseEach, inductionHypothesis, List.replicate_succ, changeAll_cons]
    rfl

/-- So do the two loops of an assignment. -/
theorem assignEach_eq_changeAll (draft : Draft) (lock : Lock) (count : Nat) :
    draft.assignEach lock count =
      draft.changeAll (Edit.toward lock (draft.holdings.count lock) count) := by
  rw [assignEach, releaseEach_eq_changeAll, acquireEach_eq_changeAll, Edit.toward, changeAll,
    changeAll, changeAll, List.foldl_append]

/-- The record of an assignment. -/
theorem touches_assign (draft : Draft) (lock : Lock) (count : Nat) :
    (draft.assign lock count).touches =
      ((if draft.holdings.count lock - count = 0 then []
          else [.released lock (draft.holdings.count lock - count)]) ++
        if count - draft.holdings.count lock = 0 then []
          else [.acquired lock (count - draft.holdings.count lock)]) ++ draft.touches := by
  simp only [assign, touches_release, touches_acquire, List.append_assoc]

/-- The log of an assignment lists its acquisitions and releases one by one. -/
theorem log_assign (draft : Draft) (lock : Lock) (count : Nat) :
    (draft.assign lock count).log =
      draft.log ++ Edit.toward lock (draft.holdings.count lock) count := by
  simp only [assign, log_release, log_acquire, Edit.toward, List.append_assoc]

/-- An assignment comes to what its two loops come to: the same holdings, the same acquisitions and
releases in the same order, and nothing else changed. -/
theorem Canonical.assign_eq_loops {draft : Draft} (canonical : draft.Canonical) (lock : Lock)
    (count : Nat) :
    (draft.assignEach lock count).holdings = (draft.assign lock count).holdings ∧
      (draft.assignEach lock count).context = (draft.assign lock count).context ∧
      (draft.assignEach lock count).log = (draft.assign lock count).log := by
  have single : ∀ edit ∈ Edit.toward lock (draft.holdings.count lock) count, edit.Single :=
    fun edit member => Edit.single_of_mem_toward member
  obtain ⟨logged, context⟩ := draft.log_changeAll_of_single single
  have looped : (draft.changeAll
      (Edit.toward lock (draft.holdings.count lock) count)).Canonical := by
    refine changeAll_keeps Draft.Canonical ?_ draft canonical
    intro reached reachedCanonical edit member
    exact reachedCanonical.change edit (single edit member).rootless
  have after := canonical.assign lock count
  rw [assignEach_eq_changeAll]
  refine ⟨looped.holdings.ext after.holdings fun tested => ?_, ?_, ?_⟩
  · rw [(draft.movesByOne_toward lock count).2, count_assign]
  · rw [context, context_assign]
  · rw [logged, log_assign]

/-- What the assignment of a count comes to, one acquisition or release at a time. -/
structure Assigned (draft : Draft) (lock : Lock) (count : Nat) (after : Draft) : Prop where
  /-- As many acquisitions or releases of the lock are made as the counts differ by, and no
  others. -/
  logged : after.log = draft.log ++ Edit.toward lock (draft.holdings.count lock) count
  /-- They are reported by their numbers. -/
  reported : Session.changeReport draft after =
    .changed after (count - draft.holdings.count lock) (draft.holdings.count lock - count)
  /-- Each of them moves the count of the lock by one. -/
  moves : MovesByOne lock draft (Edit.toward lock (draft.holdings.count lock) count)
  /-- Made by one edit each, they come to the same. -/
  played : ∃ last, draft.editAll (Edit.toward lock (draft.holdings.count lock) count) = .ok last ∧
    last.holdings = after.holdings ∧ last.context = after.context ∧ last.log = after.log
  /-- The lock has the count. -/
  reached : after.holdings.count lock = count
  /-- It is held unless the count is zero. -/
  held_iff : lock ∈ after.holdings ↔ 0 < count
  /-- Every other lock has the count that it had. -/
  others : ∀ other, other ≠ lock → after.holdings.count other = draft.holdings.count other
  /-- Every other lock is held if it was. -/
  others_held : ∀ other, other ≠ lock → (other ∈ after.holdings ↔ other ∈ draft.holdings)
  /-- Nothing changes besides the holdings. -/
  context : after.context = draft.context

/-- Assigning is reported as the acquisitions and releases that it takes. -/
theorem changeReport_assign (draft : Draft) (lock : Lock) (count : Nat) :
    Session.changeReport draft (draft.assign lock count) =
      .changed (draft.assign lock count) (count - draft.holdings.count lock)
        (draft.holdings.count lock - count) := by
  rw [Session.changeReport_of_touches (draft.touches_assign lock count)]
  split <;> split <;> simp_all [Touch.acquisitions, Touch.releases]

/-- A canonical draft that is open is assigned a count by single acquisitions or releases. -/
theorem Canonical.assigned {draft : Draft} (canonical : draft.Canonical)
    (unbuilt : draft.status ≠ .built) (lock : Lock) (count : Nat) :
    draft.Assigned lock count (draft.assign lock count) := by
  have after := canonical.assign lock count
  have counts := draft.count_assign lock count
  have reached : (draft.assign lock count).holdings.count lock = count :=
    (counts lock).trans (if_pos rfl)
  have others (other : Lock) (apart : other ≠ lock) :
      (draft.assign lock count).holdings.count other = draft.holdings.count other :=
    (counts other).trans (if_neg apart)
  have moves := (draft.movesByOne_toward lock count).1
  have accepted := draft.editAll_of_valid unbuilt
    fun edit (member : edit ∈ Edit.toward lock (draft.holdings.count lock) count) =>
      (Edit.single_of_mem_toward member).valid
  rw [← assignEach_eq_changeAll] at accepted
  refine ⟨draft.log_assign lock count, draft.changeReport_assign lock count, moves,
    ⟨_, accepted, canonical.assign_eq_loops lock count⟩, reached, ?_, others, ?_,
    draft.context_assign lock count⟩
  · rw [after.holdings.mem_iff_count_pos, reached]
  · intro other apart
    rw [after.holdings.mem_iff_count_pos, canonical.holdings.mem_iff_count_pos, others other apart]

/-! ## Flattening -/

/-- What flattening comes to, lock by lock. -/
structure Flattened (draft : Draft) (kept : LockSet) (locks : List Lock) (after : Draft) :
    Prop where
  /-- The locks taken up are those held outside the set at the outset. -/
  mem_iff : ∀ lock, lock ∈ locks ↔ lock ∈ draft.holdings ∧ lock ∉ kept
  /-- None is taken up twice. -/
  distinct : locks.Nodup
  /-- Each is acquired once, and nothing else is acquired or released. -/
  logged : after.log = draft.log ++ locks.map .acquire
  /-- These acquisitions are reported by their number. -/
  reported : Session.changeReport draft after = .changed after locks.length 0
  /-- To forget each lock and to acquire it, by one edit each, comes to the same. -/
  played : draft.editAll (locks.flatMap fun lock => [.forget lock, .acquire lock]) = .ok after
  /-- The locks taken up have the count one. -/
  once : ∀ lock ∈ locks, after.holdings.count lock = 1
  /-- Every other lock, held or not, has the count that it had. -/
  others : ∀ lock, lock ∉ locks → after.holdings.count lock = draft.holdings.count lock
  /-- The held locks are those that were held. -/
  held_iff : ∀ lock, lock ∈ after.holdings ↔ lock ∈ draft.holdings
  /-- Nothing changes besides the holdings. -/
  context : after.context = draft.context

/-- In the log, flattening stands as one acquisition of each lock that it takes up. -/
theorem log_flatten (draft : Draft) (kept : LockSet) :
    (draft.flatten kept).log =
      draft.log ++ (draft.holdings.locks.diff kept).elements.map .acquire := by
  rw [log_of_touches (draft.touches_flatten kept), ← List.map_reverse, List.reverse_reverse,
    List.flatMap_map, List.map_eq_flatMap]
  rfl

/-- It is reported as that many acquisitions. -/
theorem changeReport_flatten (draft : Draft) (kept : LockSet) :
    Session.changeReport draft (draft.flatten kept) =
      .changed (draft.flatten kept) (draft.holdings.locks.diff kept).elements.length 0 := by
  have summed : ∀ (locks : List Lock) (sum : Nat),
      (locks.map (Touch.acquired · 1)).foldl (fun sum touch => sum + touch.acquisitions) sum =
          sum + locks.length ∧
        (locks.map (Touch.acquired · 1)).foldl (fun sum touch => sum + touch.releases) sum =
          sum := by
    intro locks
    induction locks with
    | nil => exact fun _ => ⟨rfl, rfl⟩
    | cons lock rest inductionHypothesis =>
      intro sum
      obtain ⟨acquired, _⟩ := inductionHypothesis (sum + 1)
      obtain ⟨_, released⟩ := inductionHypothesis sum
      rw [List.length_cons, ← Nat.add_assoc, Nat.add_right_comm]
      exact ⟨acquired, released⟩
  obtain ⟨acquired, released⟩ := summed (draft.holdings.locks.diff kept).elements.reverse 0
  rw [Session.changeReport_of_touches (draft.touches_flatten kept), acquired, released,
    List.length_reverse, Nat.zero_add]

/-- Flattening is a row of edits, two for each lock. -/
theorem changeAll_flattening (draft : Draft) (kept : LockSet) :
    draft.changeAll ((draft.holdings.locks.diff kept).elements.flatMap
      fun lock => [.forget lock, .acquire lock]) = draft.flatten kept := by
  rw [changeAll, List.foldl_flatMap]
  rfl

/-- A canonical draft that is open is flattened lock by lock. -/
theorem Canonical.flattened {draft : Draft} (canonical : draft.Canonical)
    (unbuilt : draft.status ≠ .built) (kept : LockSet) :
    draft.Flattened kept (draft.holdings.locks.diff kept).elements (draft.flatten kept) := by
  have member (lock : Lock) : lock ∈ (draft.holdings.locks.diff kept).elements ↔
      lock ∈ draft.holdings ∧ lock ∉ kept :=
    LockSet.mem_diff draft.holdings.locks kept lock
  have counts := draft.count_flatten kept
  have valid : ∀ edit ∈ (draft.holdings.locks.diff kept).elements.flatMap
      fun lock => [Edit.forget lock, .acquire lock], edit.Valid := by
    intro edit listed
    obtain ⟨lock, _, either⟩ := List.mem_flatMap.mp listed
    rcases List.mem_cons.mp either with rfl | acquired
    · trivial
    · obtain rfl := List.mem_singleton.mp acquired
      trivial
  refine ⟨member, ?_, draft.log_flatten kept, draft.changeReport_flatten kept, ?_, ?_, ?_, ?_,
    draft.context_flatten kept⟩
  · exact canonical.holdings.nodup_locks.filter _
  · rw [draft.editAll_of_valid unbuilt valid, changeAll_flattening]
  · intro lock taken
    rw [counts, if_pos ((member lock).mp taken)]
  · intro lock untouched
    rw [counts, if_neg fun taken => untouched ((member lock).mpr taken)]
  · intro lock
    rw [(canonical.flatten kept).holdings.mem_iff_count_pos, counts]
    split
    next taken => exact iff_of_true Nat.one_pos taken.1
    next => exact (canonical.holdings.mem_iff_count_pos lock).symm

end Draft

namespace Workshop

/-- Assigning and flattening work by single acquisitions and releases. Every draft of a workshop
that is not built, whatever was done with it and whether or not its path is ruled out, accepts the
assignment of any count to any lock. As many acquisitions or releases of that lock are made as the
count differs from the one at the outset, each moves the count by one, and the last of them reaches
it. Every such draft also accepts to be flattened for any set of locks. Each lock held outside the
set is acquired once, and nothing is released; those locks come to the count one.

Proof: by induction on the number of acquisitions or releases in a run. The record of a draft keeps
runs, and taken apart they are the edits that would have led to the same holdings one by one. -/
theorem counts_changed_one_by_one {workshop : Workshop} (reachable : workshop.Reachable)
    {draft : Draft} (opened : draft ∈ workshop.drafts) (unbuilt : draft.status ≠ .built) :
    (∀ lock (count : Nat), ∃ after, draft.edit (.assign lock count) = .ok after ∧
      draft.Assigned lock count after) ∧
    (∀ kept, ∃ locks after, draft.edit (.flatten kept) = .ok after ∧
      draft.Flattened kept locks after) := by
  obtain ⟨wellFormed, grounded⟩ := reachable.sound
  have canonical := wellFormed.canonical_draft (grounded draft opened)
  constructor
  · intro lock count
    exact ⟨_, draft.edit_of_valid _ unbuilt (Int.natCast_nonneg count),
      canonical.assigned unbuilt lock count⟩
  · intro kept
    exact ⟨_, _, draft.edit_of_valid _ unbuilt trivial, canonical.flattened unbuilt kept⟩

/-- A draft holds `a` three times and `b` once, and its path is ruled out. Assigning `a` the count
one releases it twice. Flattening for `b` acquires `a` once, after it is forgotten. Assigning `b`
the count zero leaves no entry of it. -/
theorem ruled_out_draft_changed :
    ∃ draft lowered flattened emptied,
      (Draft.ofState (.empty 0)).editAll
          [.acquire (.ofName "b"), .assign (.ofName "a") 3, .abort] = .ok draft ∧
        draft.status = .infeasible ∧
        draft.edit (.assign (.ofName "a") 1) = .ok lowered ∧
        lowered.log = draft.log ++ [.release (.ofName "a"), .release (.ofName "a")] ∧
        draft.edit (.flatten (.ofList [.ofName "b"])) = .ok flattened ∧
        flattened.log = draft.log ++ [.acquire (.ofName "a")] ∧
        flattened.holdings.count (.ofName "a") = 1 ∧
        draft.edit (.assign (.ofName "b") 0) = .ok emptied ∧
        Lock.ofName "b" ∉ emptied.holdings := by
  have rootless : ∀ root ∈ (none : Option State), root ∈ Session.start.states :=
    fun root looked => nomatch looked
  have started := Reachable.start.next (.opening [] (List.mem_cons_self (a := State.empty 0)))
  have edited := (started.next (.edit [] [] (.acquire (.ofName "b")) rootless rfl)).next
    (.edit [] [] (.assign (.ofName "a") 3) rootless rfl)
  have ruledOut := edited.next (.edit [] [] .abort rootless rfl)
  obtain ⟨assigns, flattens⟩ :=
    counts_changed_one_by_one ruledOut List.mem_cons_self Draft.Status.noConfusion
  obtain ⟨lowered, lowering, assigned⟩ := assigns (.ofName "a") 1
  obtain ⟨emptied, emptying, cleared⟩ := assigns (.ofName "b") 0
  obtain ⟨locks, flattened, flattening, taken⟩ := flattens (.ofList [.ofName "b"])
  have onlyOne : locks = [.ofName "a"] := by
    refine List.perm_singleton.mp ((List.perm_ext_iff_of_nodup taken.distinct
      (List.pairwise_singleton _ _)).mpr fun lock => ?_)
    rw [taken.mem_iff, LockSet.mem_ofList, List.mem_singleton, List.mem_singleton]
    constructor
    · rintro ⟨held, outside⟩
      have listed : lock ∈ [Lock.ofName "a", Lock.ofName "b"] := held
      rcases List.mem_cons.mp listed with same | other
      · exact same
      · exact absurd (List.mem_singleton.mp other) outside
    · rintro rfl
      exact ⟨List.mem_cons_self, by decide⟩
  subst onlyOne
  exact ⟨_, lowered, flattened, emptied, rfl, rfl, lowering, assigned.logged, flattening,
    taken.logged, taken.once _ List.mem_cons_self, emptying,
    fun held => absurd (cleared.held_iff.mp held) (Nat.lt_irrefl 0)⟩

end Workshop

end HeldLocks
