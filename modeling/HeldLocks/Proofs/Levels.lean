import HeldLocks.Proofs.Sessions

/-!
# Agreement level by level

Two chains are compared level by level, up to the first number that both share. In a session
this shortcut never changes the answer: one number is one state, and one state has one chain
below it. So chains of recorded states agree exactly if they hold the same at every level
(`Session.WellFormed.sameChain_iff`), and recorded states are the same exactly if their
levels are equal (`Session.WellFormed.same_iff`).

With that, a grounded draft can be told by what it holds. Its successor holds what the draft
holds and, at every level, what the remaining chain holds, be it the origin itself or new
(`Session.WellFormed.levels_successor`). It is the origin itself exactly if that is what the
origin holds (`Session.WellFormed.unchanged_iff`).
-/

namespace HeldLocks

/-- The levels of a state are its own holdings and the levels of what it returns to. -/
theorem State.levels_def (state : State) :
    state.levels = state.holdings :: state.saved.map Snapshot.holdings := rfl

namespace Draft

/-- A draft in which nothing has changed is succeeded by the state it is of. -/
theorem successor_of_unchanged (draft : Draft) (fresh : Nat)
    (unchanged : draft.unchanged = true) : draft.successor fresh = draft.origin :=
  if_pos unchanged

/-- Any other is succeeded by a new state. -/
theorem successor_of_changed (draft : Draft) (fresh : Nat)
    (changed : ¬ draft.unchanged = true) :
    draft.successor fresh = ⟨⟨fresh, draft.holdings⟩, draft.remaining⟩ :=
  if_neg changed

/-- The successor has the number of its origin exactly if the draft has led back to it, and
then it is the origin itself. Any other successor has the number given for it. -/
theorem identical_successor_iff (draft : Draft) {fresh : Nat}
    (unused : draft.origin.serial < fresh) :
    (draft.successor fresh).identical draft.origin = true ↔ draft.unchanged = true := by
  rw [State.identical, beq_iff_eq]
  constructor
  · intro sameSerial
    apply Classical.byContradiction
    intro changed
    rw [successor_of_changed draft fresh changed] at sameSerial
    exact Nat.ne_of_gt unused sameSerial
  · intro unchanged
    rw [successor_of_unchanged draft fresh unchanged]

/-- A draft is built into its origin exactly if it has led back to it. -/
theorem successor_eq_origin_iff (draft : Draft) {fresh : Nat}
    (unused : draft.origin.serial < fresh) :
    draft.successor fresh = draft.origin ↔ draft.unchanged = true := by
  constructor
  · intro itself
    rw [← draft.identical_successor_iff unused, itself, State.identical, beq_self_eq_true]
  · exact draft.successor_of_unchanged fresh

/-- A successor is the origin of its draft or has the number given for it. -/
theorem successor_eq_or_serial (draft : Draft) (fresh : Nat) :
    draft.successor fresh = draft.origin ∨ (draft.successor fresh).serial = fresh := by
  by_cases unchanged : draft.unchanged = true
  · exact Or.inl (draft.successor_of_unchanged fresh unchanged)
  · rw [draft.successor_of_changed fresh unchanged]
    exact Or.inr rfl

/-- No state is made that is the same as the one it is made from: the successor is the same
as its origin only where it is the origin. -/
theorem same_successor_iff (draft : Draft) {fresh : Nat}
    (unused : draft.origin.serial < fresh) :
    (draft.successor fresh).same draft.origin = true ↔ draft.unchanged = true := by
  constructor
  · intro same
    apply Classical.byContradiction
    intro changed
    -- A new state differs from the origin in its number, so all levels are compared.
    have apart : (fresh == draft.origin.serial) = false := by
      simp only [beq_eq_false_iff_ne]
      exact Nat.ne_of_gt unused
    rw [successor_of_changed draft fresh changed, State.same, State.chain, State.chain,
      sameChain, apart, Bool.false_or] at same
    exact changed same
  · intro unchanged
    rw [successor_of_unchanged draft fresh unchanged, State.same, sameChain_self]

end Draft

namespace Session

/-- A chain is recorded if the state on top of it is, or if there is none. -/
def Recorded (session : Session) (chain : List Snapshot) : Prop :=
  ∀ top, State.ofChain? chain = some top → top ∈ session.states

namespace WellFormed

variable {session : Session}

/-- In a session one number is one state. -/
theorem eq_of_serial (wellFormed : session.WellFormed) {left right : State}
    (leftMade : left ∈ session.states) (rightMade : right ∈ session.states)
    (sameSerial : left.serial = right.serial) : left = right := by
  obtain ⟨place, here, rfl⟩ := List.getElem_of_mem leftMade
  obtain ⟨other, there, rfl⟩ := List.getElem_of_mem rightMade
  rw [wellFormed.numbered place _ (List.getElem?_eq_getElem here),
    wellFormed.numbered other _ (List.getElem?_eq_getElem there)] at sameSerial
  subst sameSerial
  rfl

/-- The chain of a recorded state is recorded. -/
theorem recorded_chain {state : State} (made : state ∈ session.states) :
    session.Recorded state.chain := by
  rintro top ⟨⟩
  exact made

/-- So is the chain that it returns to. -/
theorem recorded_saved (wellFormed : session.WellFormed) {state : State}
    (made : state ∈ session.states) : session.Recorded state.saved :=
  fun caller returns => (wellFormed.linked state made caller returns).1

/-- What lies below the top of a recorded chain is recorded. -/
theorem recorded_below (wellFormed : session.WellFormed) {top : Snapshot}
    {below : List Snapshot} (recorded : session.Recorded (top :: below)) :
    session.Recorded below :=
  wellFormed.recorded_saved (recorded ⟨top, below⟩ rfl)

/-- Recorded chains agree exactly if they hold the same at every level. Where they share a
number they share a state, and so all that lies below it. -/
theorem sameChain_iff (wellFormed : session.WellFormed) {left right : List Snapshot}
    (leftRecorded : session.Recorded left) (rightRecorded : session.Recorded right) :
    sameChain left right = true ↔
      left.map Snapshot.holdings = right.map Snapshot.holdings := by
  refine ⟨?_, sameChain_of_holdings left right⟩
  intro agree
  induction left generalizing right with
  | nil => rw [eq_nil_of_sameChain agree]
  | cons upper lefts inductionHypothesis =>
    cases right with
    | nil => exact nomatch agree
    | cons other rights =>
      simp only [sameChain, Bool.or_eq_true, Bool.and_eq_true, beq_iff_eq] at agree
      rcases agree with sameSerial | ⟨here, below⟩
      · have oneState : (⟨upper, lefts⟩ : State) = ⟨other, rights⟩ :=
          wellFormed.eq_of_serial (leftRecorded _ rfl) (rightRecorded _ rfl) sameSerial
        obtain ⟨rfl, rfl⟩ := State.mk.inj oneState
        rfl
      · have further := inductionHypothesis (wellFormed.recorded_below leftRecorded)
          (wellFormed.recorded_below rightRecorded) below
        rw [List.map_cons, List.map_cons, here, further]

/-- Recorded states are the same exactly if their levels are equal. -/
theorem same_iff (wellFormed : session.WellFormed) {left right : State}
    (leftMade : left ∈ session.states) (rightMade : right ∈ session.states) :
    left.same right = true ↔ left.levels = right.levels :=
  wellFormed.sameChain_iff (recorded_chain leftMade) (recorded_chain rightMade)

/-- Recorded states return to the same exactly if they do so at every level. -/
theorem sameSaved_iff (wellFormed : session.WellFormed) {left right : State}
    (leftMade : left ∈ session.states) (rightMade : right ∈ session.states) :
    left.sameSaved right = true ↔
      left.saved.map Snapshot.holdings = right.saved.map Snapshot.holdings :=
  wellFormed.sameChain_iff (wellFormed.recorded_saved leftMade)
    (wellFormed.recorded_saved rightMade)

/-! ## Successors of grounded drafts -/

variable {draft : Draft}

/-- A grounded draft has led back to its origin exactly if it holds what the origin holds
and would return to what holds the same at every level. -/
theorem unchanged_iff (wellFormed : session.WellFormed) (grounds : session.Grounds draft) :
    draft.unchanged = true ↔ draft.holdings = draft.origin.holdings ∧
      draft.remaining.map Snapshot.holdings = draft.origin.saved.map Snapshot.holdings := by
  rw [Draft.unchanged, Bool.and_eq_true, beq_iff_eq,
    wellFormed.sameChain_iff (wellFormed.remaining_made grounds)
      (wellFormed.recorded_saved grounds.origin)]

/-- The successor of a grounded draft holds, at every level, what the draft holds and would
return to, even where it is the origin itself. -/
theorem levels_successor (wellFormed : session.WellFormed) (grounds : session.Grounds draft)
    (fresh : Nat) : (draft.successor fresh).levels =
      draft.holdings :: draft.remaining.map Snapshot.holdings := by
  rw [Draft.successor]
  split
  next shared =>
    obtain ⟨holdings, saved⟩ := (wellFormed.unchanged_iff grounds).mp shared
    rw [State.levels_def, holdings, saved]
  next => rfl

/-- A batch leads to the very state it started from exactly if no level has changed. -/
theorem identical_after_iff (wellFormed : session.WellFormed) {state next : State}
    (made : state ∈ session.states) {effects : List Effect}
    (ran : state.after session.fresh effects = .ok (some next)) :
    next.identical state = true ↔ next.levels = state.levels := by
  obtain rfl := State.successor_of_after state next session.fresh effects ran
  have grounds := wellFormed.grounds_meetAll (wellFormed.grounds_ofState made) effects
  have itsOrigin : ((Draft.ofState state).meetAll effects).origin = state :=
    (Draft.ofState state).origin_meetAll effects
  generalize (Draft.ofState state).meetAll effects = draft at *
  subst itsOrigin
  rw [draft.identical_successor_iff (wellFormed.serial_lt_fresh made),
    wellFormed.unchanged_iff grounds, wellFormed.levels_successor grounds, State.levels_def,
    List.cons.injEq]

end WellFormed

end Session

end HeldLocks
