import HeldLocks.Proofs.Sessions

/-!
# Sequences of edits

An open draft refuses an edit only if it asks for a negative count. So a sequence of edits
either is refused for that reason or acts as the plain fold `Draft.changeAll`, and what one
edit keeps the whole sequence keeps. `State.edited` is the successor of a state under a
sequence of edits.

Whether the successor returns from a call is decided on the way and not at the end: a lock
must be restored at a point where the draft would return somewhere (`Draft.Unwinds`). What
happens to the chain before or after does not matter, so a call may be opened or closed by
later edits and the mark stays (`Draft.restored_changeAll_iff`).
-/

namespace HeldLocks

namespace Edit

/-- Whether an edit asks for no negative count. -/
def Valid : Edit State → Prop
  | assign _ count => 0 ≤ count
  | _ => True

/-- An edit that assigns no negative count is not refused. -/
theorem refusal?_of_valid (edit : Edit State) (valid : edit.Valid) : edit.refusal? = none := by
  cases edit with
  | assign lock count =>
    cases count with
    | ofNat count => rfl
    | negSucc count => exact absurd valid (Int.not_le.mpr (Int.negSucc_lt_zero count))
  | _ => rfl

/-- One that does is refused for that. -/
theorem refusal?_of_invalid (edit : Edit State) (invalid : ¬ edit.Valid) :
    edit.refusal? = some .negativeCount := by
  cases edit with
  | assign lock count =>
    cases count with
    | ofNat count => exact absurd (Int.natCast_nonneg count) invalid
    | negSucc count => rfl
  | _ => exact absurd trivial invalid

end Edit

namespace Draft

/-! ## Edits without refusals -/

/-- What a sequence of edits does to a draft that refuses none of them. -/
def changeAll (draft : Draft) (edits : List (Edit State)) : Draft := edits.foldl change draft

/-- A list of edits is carried out edit by edit. -/
theorem changeAll_cons (draft : Draft) (edit : Edit State) (rest : List (Edit State)) :
    draft.changeAll (edit :: rest) = (draft.change edit).changeAll rest := rfl

/-- What every edit of a sequence keeps, the sequence keeps. -/
theorem changeAll_keeps (Kept : Draft → Prop) {edits : List (Edit State)}
    (changeKeeps : ∀ draft, Kept draft → ∀ edit ∈ edits, Kept (draft.change edit))
    (draft : Draft) (kept : Kept draft) : Kept (draft.changeAll edits) :=
  List.foldlRecOn edits change kept changeKeeps

/-- An open draft accepts a valid edit. -/
theorem edit_of_valid (draft : Draft) (edit : Edit State) (unbuilt : draft.status ≠ .built)
    (valid : edit.Valid) : draft.edit edit = .ok (draft.change edit) := by
  simp only [Draft.edit, unbuilt, if_false, edit.refusal?_of_valid valid]

/-- An open draft refuses an edit that asks for a negative count. -/
theorem edit_of_invalid (draft : Draft) (edit : Edit State) (unbuilt : draft.status ≠ .built)
    (invalid : ¬ edit.Valid) : draft.edit edit = .error .negativeCount := by
  simp only [Draft.edit, unbuilt, if_false, edit.refusal?_of_invalid invalid]

/-- A list of requests is answered one by one, until one is refused. -/
theorem editAll_cons (draft : Draft) (edit : Edit State) (rest : List (Edit State)) :
    draft.editAll (edit :: rest) = (draft.edit edit >>= fun next => next.editAll rest) :=
  List.foldlM_cons

/-- An open draft accepts a sequence of valid edits. -/
theorem editAll_of_valid (draft : Draft) {edits : List (Edit State)}
    (unbuilt : draft.status ≠ .built) (valid : ∀ edit ∈ edits, edit.Valid) :
    draft.editAll edits = .ok (draft.changeAll edits) :=
  foldlM_of_valid status_change_ne_built edit_of_valid draft unbuilt valid

/-- An open draft refuses any other sequence, and always for one reason. -/
theorem editAll_of_invalid (draft : Draft) {edits : List (Edit State)}
    (unbuilt : draft.status ≠ .built) (invalid : ¬ ∀ edit ∈ edits, edit.Valid) :
    draft.editAll edits = .error .negativeCount :=
  foldlM_of_invalid status_change_ne_built edit_of_valid edit_of_invalid draft unbuilt invalid

/-! ## What a sequence makes of the rest of a draft -/

/-- No edits change which state the draft is of. -/
theorem origin_changeAll (draft : Draft) (edits : List (Edit State)) :
    (draft.changeAll edits).origin = draft.origin := by
  apply changeAll_keeps (fun reached => reached.origin = draft.origin) _ draft rfl
  intro reached same edit _
  rw [origin_change, same]

/-- No sequence of edits ends the work. -/
theorem status_changeAll_ne_built (draft : Draft) (edits : List (Edit State))
    (unbuilt : draft.status ≠ .built) : (draft.changeAll edits).status ≠ .built :=
  changeAll_keeps (fun reached => reached.status ≠ .built)
    (fun reached kept edit _ => status_change_ne_built reached edit kept) draft unbuilt

/-- Edits that do not abort leave the stage alone. -/
theorem status_changeAll (draft : Draft) {edits : List (Edit State)}
    (feasible : .abort ∉ edits) : (draft.changeAll edits).status = draft.status := by
  apply changeAll_keeps (fun reached => reached.status = draft.status) _ draft rfl
  intro reached same edit member
  rw [status_change]
  cases edit with
  | abort => exact absurd member feasible
  | _ => exact same

/-- Whether a sequence of edits restores a lock at a point where the draft would return
somewhere. -/
def Unwinds (draft : Draft) (edits : List (Edit State)) : Prop :=
  ∃ earlier lock later met, edits = earlier ++ .restore lock :: later ∧
    draft.editAll earlier = .ok met ∧ met.saved ≠ []

/-- Without edits nothing is unwound. -/
theorem not_unwinds_nil (draft : Draft) : ¬ draft.Unwinds [] := by
  rintro ⟨earlier, lock, later, met, split, _⟩
  exact List.append_ne_nil_of_right_ne_nil earlier (List.cons_ne_nil _ later) split.symm

/-- The first edit of a sequence unwinds, or leaves it to the others. -/
theorem unwinds_cons (draft : Draft) (edit : Edit State) (rest : List (Edit State))
    (unbuilt : draft.status ≠ .built) (valid : edit.Valid) :
    draft.Unwinds (edit :: rest) ↔
      ((∃ lock, edit = .restore lock) ∧ draft.saved ≠ []) ∨
        (draft.change edit).Unwinds rest := by
  have accepted := edit_of_valid draft edit unbuilt valid
  constructor
  · rintro ⟨earlier, lock, later, met, split, ran, opened⟩
    cases earlier with
    | nil =>
      obtain ⟨rfl, rfl⟩ := List.cons.inj split
      obtain rfl := Except.ok.inj ran
      exact Or.inl ⟨⟨lock, rfl⟩, opened⟩
    | cons first others =>
      obtain ⟨rfl, rfl⟩ := List.cons.inj split
      rw [editAll_cons, accepted] at ran
      exact Or.inr ⟨others, lock, later, met, rfl, ran, opened⟩
  · rintro (⟨⟨lock, rfl⟩, opened⟩ | ⟨earlier, lock, later, met, rfl, ran, opened⟩)
    · exact ⟨[], lock, rest, draft, rfl, rfl, opened⟩
    · refine ⟨edit :: earlier, lock, later, met, rfl, ?_, opened⟩
      rw [editAll_cons, accepted]
      exact ran

/-- The mark is set after a sequence of edits exactly if it was set before or the sequence
unwinds. -/
theorem restored_changeAll_iff (draft : Draft) {edits : List (Edit State)}
    (unbuilt : draft.status ≠ .built) (valid : ∀ edit ∈ edits, edit.Valid) :
    (draft.changeAll edits).restored = true ↔
      draft.restored = true ∨ draft.Unwinds edits := by
  induction edits generalizing draft with
  | nil => simp only [changeAll, List.foldl_nil, not_unwinds_nil, or_false]
  | cons edit rest inductionHypothesis =>
    obtain ⟨first, others⟩ := List.forall_mem_cons.mp valid
    have here : (draft.change edit).restored = true ↔
        draft.restored = true ∨ (∃ lock, edit = .restore lock) ∧ draft.saved ≠ [] := by
      rw [restored_change]
      cases edit <;> simp
    rw [changeAll_cons, inductionHypothesis _ (status_change_ne_built draft edit unbuilt) others,
      here, unwinds_cons draft edit rest unbuilt first, or_assoc]

end Draft

/-! ## The successor under edits -/

namespace State

/-- The successor of a state under a sequence of edits, made under the given number if it is
new. There is none if the edits rule the path out. -/
def edited (state : State) (fresh : Nat) (edits : List (Edit State)) :
    Except Misuse (Option State) := do
  let draft ← (Draft.ofState state).editAll edits
  let (outcome, _) ← draft.build fresh
  return outcome

/-- A fresh draft is not built. -/
theorem status_ofState (state : State) : (Draft.ofState state).status ≠ .built :=
  Draft.Status.noConfusion

/-- A sequence of valid edits is never refused, so it has an outcome. -/
theorem edited_of_valid (state : State) (fresh : Nat) {edits : List (Edit State)}
    (valid : ∀ edit ∈ edits, edit.Valid) :
    state.edited fresh edits = .ok (((Draft.ofState state).changeAll edits).outcome fresh) := by
  have accepted := (Draft.ofState state).editAll_of_valid state.status_ofState valid
  have built := Draft.build_of_unbuilt ((Draft.ofState state).changeAll edits) fresh
    (Draft.status_changeAll_ne_built _ edits state.status_ofState)
  simp only [edited, accepted, built, bind, Except.bind, pure, Except.pure]

/-- Edits that are not all valid are refused for the negative count. -/
theorem edited_of_invalid (state : State) (fresh : Nat) {edits : List (Edit State)}
    (invalid : ¬ ∀ edit ∈ edits, edit.Valid) :
    state.edited fresh edits = .error .negativeCount := by
  have refused := (Draft.ofState state).editAll_of_invalid state.status_ofState invalid
  simp only [edited, refused, bind, Except.bind]

end State

/-- Edits whose roots are recorded keep a draft grounded. -/
theorem Session.WellFormed.grounds_changeAll {session : Session}
    (wellFormed : session.WellFormed) {draft : Draft} (grounds : session.Grounds draft)
    {edits : List (Edit State)}
    (roots : ∀ edit ∈ edits, ∀ root ∈ edit.root?, root ∈ session.states) :
    session.Grounds (draft.changeAll edits) := by
  apply Draft.changeAll_keeps session.Grounds _ draft grounds
  intro reached reachedGrounds edit member
  exact wellFormed.grounds_change reachedGrounds edit (roots edit member)

end HeldLocks
