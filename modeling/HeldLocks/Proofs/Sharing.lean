import HeldLocks.Proofs.Edits
import HeldLocks.Proofs.Levels

/-!
# Sharing

A draft whose work has led back to its origin is built into the origin itself, any other
draft into a new state. `Session.build_shares_iff_same` says that this is exact for every
sequence of edits: what is built holds and returns to what the draft says, and it is the
origin itself exactly if it is the same as the origin. Neither is a second copy of the origin
ever made, nor a change ever swallowed.

What the draft returns to need not be the chain of the origin for that, as long as it holds
the same at every level. A chain of other states that were made alike will do.
-/

namespace HeldLocks

namespace Draft

/-- A sequence of valid edits that unwinds takes the top off what the draft would return to,
and any other leaves it. -/
theorem remaining_changeAll (draft : Draft) {edits : List (Edit State)}
    (unmarked : draft.restored = false) (unbuilt : draft.status ≠ .built)
    (valid : ∀ edit ∈ edits, edit.Valid) :
    (draft.Unwinds edits →
        (draft.changeAll edits).remaining = (draft.changeAll edits).saved.tail) ∧
      (¬ draft.Unwinds edits →
        (draft.changeAll edits).remaining = (draft.changeAll edits).saved) := by
  have marked := draft.restored_changeAll_iff unbuilt valid
  rw [unmarked] at marked
  constructor
  · intro unwinds
    rw [remaining, marked.mpr (Or.inr unwinds), if_pos rfl]
  · intro kept
    rw [remaining, if_neg]
    exact fun isMarked => kept ((marked.mp isMarked).resolve_left Bool.false_ne_true)

/-- An open draft that no edit aborts is built into its successor. -/
theorem build_of_feasible (draft : Draft) (fresh : Nat) (stage : draft.status = .editing) :
    draft.build fresh = .ok (some (draft.successor fresh), draft.finished) := by
  simp only [build, stage]

end Draft

namespace Session

/-- Sharing is exact. Edits of a fresh draft of a recorded state, in any order and with any
recorded roots, are accepted unless they ask for a negative count, and then built into a
state. It holds what the draft holds. It returns to what the draft returns to, level by
level: to what lies below the top of that chain if some edit restored a lock while there was
somewhere to return to, and otherwise to the chain as it stands. It is the origin itself
exactly if it is the same as the origin, that is exactly if neither holdings nor levels
differ; and otherwise it is new. -/
theorem build_shares_iff_same {session : Session} (reachable : session.Reachable)
    {origin : State} (made : origin ∈ session.states) {edits : List (Edit State)}
    (valid : ∀ edit ∈ edits, edit.Valid) (feasible : .abort ∉ edits)
    (roots : ∀ edit ∈ edits, ∀ root ∈ edit.root?, root ∈ session.states) :
    ∃ draft finished result link,
      (Draft.ofState origin).editAll edits = .ok draft ∧
      draft.build session.fresh = .ok (some result, finished) ∧
      ((Draft.ofState origin).Unwinds edits → link = draft.saved.tail) ∧
      (¬ (Draft.ofState origin).Unwinds edits → link = draft.saved) ∧
      result.holdings = draft.holdings ∧
      sameChain result.saved link = true ∧
      result.saved.map Snapshot.holdings = link.map Snapshot.holdings ∧
      (result.identical origin = true ↔ result.same origin = true) ∧
      (result.identical origin = true ↔ draft.holdings = origin.holdings ∧
        link.map Snapshot.holdings = origin.saved.map Snapshot.holdings) ∧
      (result = origin ∨ result.serial = session.fresh) := by
  have wellFormed := reachable.wellFormed
  have unbuilt := origin.status_ofState
  have accepted := (Draft.ofState origin).editAll_of_valid unbuilt valid
  obtain ⟨popped, kept⟩ := (Draft.ofState origin).remaining_changeAll rfl unbuilt valid
  have stage := (Draft.ofState origin).status_changeAll feasible
  have itsOrigin : ((Draft.ofState origin).changeAll edits).origin = origin :=
    (Draft.ofState origin).origin_changeAll edits
  have grounds := wellFormed.grounds_changeAll (wellFormed.grounds_ofState made) roots
  generalize (Draft.ofState origin).changeAll edits = draft at *
  subst itsOrigin
  have older : draft.origin.serial < session.fresh := wellFormed.serial_lt_fresh made
  have levels := wellFormed.levels_successor grounds session.fresh
  obtain ⟨holdings, saved⟩ := List.cons.inj levels
  have shared := draft.identical_successor_iff older
  refine ⟨draft, _, _, draft.remaining, accepted, draft.build_of_feasible _ stage, popped,
    kept, holdings, sameChain_of_holdings _ _ saved, saved, ?_, ?_, ?_⟩
  · rw [shared, draft.same_successor_iff older]
  · rw [shared, wellFormed.unchanged_iff grounds]
  · by_cases unchanged : draft.unchanged = true
    · exact Or.inl (draft.successor_of_unchanged _ unchanged)
    · rw [draft.successor_of_changed _ unchanged]
      exact Or.inr rfl

/-- Work that leads back to its origin by a detour. Two states were made alike, and a call
was opened from each. A draft of the state inside the first call acquires a lock, takes on
what the state inside the second call returns to, and gives the lock back. It would then
return to another state than its origin does, but to one that holds the same, and so the
origin is shared. -/
theorem detour_shares_origin :
    ∃ draft finished result,
      (Draft.ofState ⟨⟨3, ⟨[(.ofName "a", 1)]⟩⟩, [⟨1, ⟨[(.ofName "a", 1)]⟩⟩]⟩).editAll
          [.acquire (.ofName "b"),
            .attach ⟨⟨4, ⟨[(.ofName "a", 1)]⟩⟩, [⟨2, ⟨[(.ofName "a", 1)]⟩⟩]⟩,
            .release (.ofName "b")] = .ok draft ∧
        draft.build 5 = .ok (some result, finished) ∧
        draft.saved = [⟨2, ⟨[(.ofName "a", 1)]⟩⟩] ∧
        result = ⟨⟨3, ⟨[(.ofName "a", 1)]⟩⟩, [⟨1, ⟨[(.ofName "a", 1)]⟩⟩]⟩ := by
  obtain ⟨session, reachable, unused, originMade, rootMade⟩ : ∃ session : Session,
      session.Reachable ∧ session.fresh = 5 ∧
        ⟨⟨3, ⟨[(.ofName "a", 1)]⟩⟩, [⟨1, ⟨[(.ofName "a", 1)]⟩⟩]⟩ ∈ session.states ∧
        ⟨⟨4, ⟨[(.ofName "a", 1)]⟩⟩, [⟨2, ⟨[(.ofName "a", 1)]⟩⟩]⟩ ∈ session.states :=
    ⟨(start.run [.effects 0 [.acquire (.ofName "a") 0], .effects 0 [.acquire (.ofName "a") 0],
      .effects 1 [.save], .effects 2 [.save]]).2, ⟨_, rfl⟩, rfl,
      List.mem_of_getElem? (i := 3) rfl, List.mem_of_getElem? (i := 4) rfl⟩
  have valid : ∀ edit ∈ [Edit.acquire (.ofName "b"),
      .attach ⟨⟨4, ⟨[(.ofName "a", 1)]⟩⟩, [⟨2, ⟨[(.ofName "a", 1)]⟩⟩]⟩,
      .release (.ofName "b")], edit.Valid := by
    simp [Edit.Valid]
  have roots : ∀ edit ∈ [Edit.acquire (.ofName "b"),
      .attach ⟨⟨4, ⟨[(.ofName "a", 1)]⟩⟩, [⟨2, ⟨[(.ofName "a", 1)]⟩⟩]⟩,
      .release (.ofName "b")], ∀ root ∈ edit.root?, root ∈ session.states := by
    simpa [Edit.root?] using rootMade
  obtain ⟨draft, finished, result, link, edited, built, _, kept, _, _, _, _, shared, place⟩ :=
    build_shares_iff_same reachable originMade valid (by simp) roots
  obtain rfl := Except.ok.inj edited
  have unmarked : link = [⟨2, ⟨[(.ofName "a", 1)]⟩⟩] := by
    refine kept ?_
    rintro ⟨earlier, lock, later, _, split, _⟩
    have member := List.mem_append_right earlier (List.mem_cons_self (a := Edit.restore lock)
      (l := later))
    rw [← split] at member
    simp at member
  have itself := shared.mpr ⟨rfl, by rw [unmarked]; rfl⟩
  rw [unused] at built place
  refine ⟨_, finished, result, rfl, built, rfl, place.resolve_right ?_⟩
  intro isNew
  rw [State.identical, isNew] at itself
  cases itself

end Session

end HeldLocks
