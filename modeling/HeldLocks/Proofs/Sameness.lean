import HeldLocks.Proofs.Ancestors

/-!
# What being the same means

Two states are the same if they hold the same and return to the same, level by level, until
their chains end, and they end together. `State.getElem?_levels` ties the levels to the links:
those of a state are what is read when its links are followed one by one.

The comparison is not made in full. Where it meets one number on both sides it looks no
further, at whatever level that is. `sameChainUsing` is the comparison with these shortcuts
left to choice: a level with one number on both sides is taken for settled or compared like any
other. More shortcuts can only make more chains agree (`sameChainUsing_mono`), and with none
exactly those agree that hold the same at every level (`sameChainUsing_never_iff`). In a session
taking every shortcut makes no more chains agree than taking none, so the choice never matters
(`Session.WellFormed.sameChainUsing_eq`).

A hash of a state may be put together in any way from the number of its locks and its entries
in order (`Holdings.digest`); what the state returns to has no part in it.
-/

namespace HeldLocks

/-! ## Levels along the links -/

namespace State

/-- The ancestors of a state stand on top of what remains of its chain. -/
theorem ancestor?_eq_ofChain? (state : State) (links : Nat) :
    state.ancestor? links = ofChain? (state.chain.drop links) := by
  induction links with
  | zero => rfl
  | succ links inductionHypothesis =>
    rw [ancestor?, inductionHypothesis, ← List.tail_drop]
    cases state.chain.drop links with
    | nil => rfl
    | cons top below => rfl

/-- The levels of a state are the holdings that are met along its links, and there are as many
of them as the links lead to states. -/
theorem getElem?_levels (state : State) (links : Nat) :
    state.levels[links]? = (state.ancestor? links).map fun ancestor => ancestor.holdings := by
  rw [levels, List.getElem?_map, ← List.head?_drop, ancestor?_eq_ofChain?]
  cases state.chain.drop links with
  | nil => rfl
  | cons top below => rfl

end State

/-! ## Shortcuts -/

/-- Whether two chains agree, if a number that both have at one level settles the rest only
where the choice says so. -/
def sameChainUsing (takes : Snapshot → Snapshot → Bool) :
    List Snapshot → List Snapshot → Bool
  | [], [] => true
  | left :: lefts, right :: rights =>
    (takes left right && left.serial == right.serial) ||
      (left.holdings == right.holdings && sameChainUsing takes lefts rights)
  | _, _ => false

/-- Taking every shortcut is how chains are compared. -/
theorem sameChainUsing_always (left right : List Snapshot) :
    sameChainUsing (fun _ _ => true) left right = sameChain left right := by
  induction left generalizing right with
  | nil => cases right <;> rfl
  | cons upper lefts inductionHypothesis =>
    cases right with
    | nil => rfl
    | cons other rights =>
      rw [sameChainUsing, sameChain, inductionHypothesis rights, Bool.true_and]

/-- With more shortcuts at least as many chains agree. -/
theorem sameChainUsing_mono {fewer more : Snapshot → Snapshot → Bool}
    (included : ∀ left right, fewer left right = true → more left right = true)
    (left right : List Snapshot) (agree : sameChainUsing fewer left right = true) :
    sameChainUsing more left right = true := by
  induction left generalizing right with
  | nil =>
    cases right with
    | nil => rfl
    | cons other rights => exact nomatch agree
  | cons upper lefts inductionHypothesis =>
    cases right with
    | nil => exact nomatch agree
    | cons other rights =>
      simp only [sameChainUsing, Bool.or_eq_true, Bool.and_eq_true] at agree ⊢
      exact agree.imp (And.imp_left (included upper other))
        (And.imp_right (inductionHypothesis rights))

/-- Without shortcuts chains agree exactly if they hold the same at every level. -/
theorem sameChainUsing_never_iff (left right : List Snapshot) :
    sameChainUsing (fun _ _ => false) left right = true ↔
      left.map Snapshot.holdings = right.map Snapshot.holdings := by
  induction left generalizing right with
  | nil => cases right <;> simp [sameChainUsing]
  | cons upper lefts inductionHypothesis =>
    cases right with
    | nil => simp [sameChainUsing]
    | cons other rights =>
      rw [List.map_cons, List.map_cons, List.cons.injEq, ← inductionHypothesis]
      simp [sameChainUsing]

/-! ## Hashes -/

/-- A hash of holdings: begun with their size, and taken on by one entry after the other. How
either is done is left open. -/
def Holdings.digest {Code : Type} (begun : Nat → Code) (mix : Code → Lock → Nat → Code)
    (holdings : Holdings) : Code :=
  holdings.entries.foldl (fun code entry => mix code entry.1 entry.2) (begun holdings.size)

namespace Session

variable {session : Session}

/-- Recorded chains agree, whichever shortcuts are taken, exactly if they do when all are: a
choice lies between taking none and taking all, and in a session these two come out alike. -/
theorem WellFormed.sameChainUsing_eq (wellFormed : session.WellFormed)
    {left right : List Snapshot} (leftRecorded : session.Recorded left)
    (rightRecorded : session.Recorded right) (takes : Snapshot → Snapshot → Bool) :
    sameChainUsing takes left right = sameChain left right := by
  rw [Bool.eq_iff_iff]
  constructor
  · intro agree
    rw [← sameChainUsing_always]
    exact sameChainUsing_mono (fun _ _ _ => rfl) left right agree
  · intro agree
    have levels := (wellFormed.sameChain_iff leftRecorded rightRecorded).mp agree
    have inFull := (sameChainUsing_never_iff left right).mpr levels
    refine sameChainUsing_mono ?_ left right inFull
    exact fun _ _ taken => absurd taken Bool.false_ne_true

/-- Being the same compares whole chains. In every session:

* Recorded states are the same exactly if their levels are equal, from the state itself down to
  the last that it returns to, so that the chains are of one length; and what they return to is
  the same exactly if the levels below their own are equal. Levels are what is read along links.
* Neither answer changes if some, all or none of the levels with one number on both sides are
  taken for settled.
* Being the same is an equivalence of the recorded states.
* States that are the same compare as zero and have equal hashes, however these are made.

Proof: in a session one number is one state with one chain below it, so a shortcut is taken only
where what it skips is equal. -/
theorem same_compares_whole_chains (reachable : session.Reachable) :
    (∀ (state : State) links,
      state.levels[links]? = (state.ancestor? links).map fun ancestor => ancestor.holdings) ∧
    (∀ left ∈ session.states, ∀ right ∈ session.states,
      (left.same right = true ↔ left.levels = right.levels) ∧
      (left.sameSaved right = true ↔ left.levels.tail = right.levels.tail) ∧
      (∀ takes, sameChainUsing takes left.chain right.chain = left.same right ∧
        sameChainUsing takes left.saved right.saved = left.sameSaved right) ∧
      (left.same right = true →
        left.holdings.compareInt right.holdings = 0 ∧ hash left = hash right ∧
          ∀ (Code : Type) (begun : Nat → Code) (mix : Code → Lock → Nat → Code),
            left.holdings.digest begun mix = right.holdings.digest begun mix)) ∧
    Equivalence fun left right : { state // state ∈ session.states } =>
      left.val.same right.val = true := by
  have wellFormed := reachable.wellFormed
  refine ⟨State.getElem?_levels, ?_, ?_⟩
  · intro left leftMade right rightMade
    have same := wellFormed.same_iff leftMade rightMade
    refine ⟨same, wellFormed.sameSaved_iff leftMade rightMade, ?_, ?_⟩
    · intro takes
      exact ⟨wellFormed.sameChainUsing_eq (WellFormed.recorded_chain leftMade)
          (WellFormed.recorded_chain rightMade) takes,
        wellFormed.sameChainUsing_eq (wellFormed.recorded_saved leftMade)
          (wellFormed.recorded_saved rightMade) takes⟩
    · intro areSame
      have holdings : left.holdings = right.holdings := (List.cons.inj (same.mp areSame)).1
      refine ⟨(Holdings.compareInt_eq_zero_iff _ _).mpr holdings, ?_, ?_⟩
      · exact congrArg (hash : Holdings → UInt64) holdings
      · intro Code begun mix
        rw [holdings]
  · constructor
    · exact fun state => sameChain_self state.val.chain
    · intro left right same
      rw [wellFormed.same_iff left.property right.property] at same
      exact (wellFormed.same_iff right.property left.property).mpr same.symm
    · intro left middle right first second
      rw [wellFormed.same_iff left.property middle.property] at first
      rw [wellFormed.same_iff middle.property right.property] at second
      exact (wellFormed.same_iff left.property right.property).mpr (first.trans second)

/-- Two calls were opened alike from the first state, and in each a further call. The states in
the inner calls share a number at the last of their three levels only, and are the same with and
without the shortcut there. The state in an outer call holds the same as either, but is not the
same, since its chain is shorter. -/
theorem calls_sharing_last_level_same :
    ∃ left right outer : State,
      left.chain.map Snapshot.serial = [3, 1, 0] ∧
      right.chain.map Snapshot.serial = [4, 2, 0] ∧
      left.same right = true ∧
      sameChainUsing (fun _ _ => false) left.chain right.chain = true ∧
      left.holdings.compareInt right.holdings = 0 ∧
      outer.holdings = left.holdings ∧ ¬ left.same outer = true := by
  obtain ⟨session, reachable, leftMade, rightMade, outerMade⟩ : ∃ session : Session,
      session.Reachable ∧
        ⟨⟨3, ⟨[(.ofName "a", 1)]⟩⟩, [⟨1, ⟨[(.ofName "a", 1)]⟩⟩, ⟨0, .empty⟩]⟩ ∈ session.states ∧
        ⟨⟨4, ⟨[(.ofName "a", 1)]⟩⟩, [⟨2, ⟨[(.ofName "a", 1)]⟩⟩, ⟨0, .empty⟩]⟩ ∈ session.states ∧
        ⟨⟨1, ⟨[(.ofName "a", 1)]⟩⟩, [⟨0, .empty⟩]⟩ ∈ session.states :=
    ⟨(start.run [.effects 0 [.save, .acquire (.ofName "a") 0],
      .effects 0 [.acquire (.ofName "a") 0, .save], .effects 1 [.save], .effects 2 [.save]]).2,
      ⟨_, rfl⟩, List.mem_of_getElem? (i := 3) rfl, List.mem_of_getElem? (i := 4) rfl,
      List.mem_of_getElem? (i := 1) rfl⟩
  obtain ⟨_, compared, _⟩ := same_compares_whole_chains reachable
  obtain ⟨same, _, shortcuts, equal⟩ := compared _ leftMade _ rightMade
  have areSame := same.mpr rfl
  refine ⟨_, _, ⟨⟨1, ⟨[(.ofName "a", 1)]⟩⟩, [⟨0, .empty⟩]⟩, rfl, rfl, areSame,
    (shortcuts fun _ _ => false).1.trans areSame, (equal areSame).1, rfl, ?_⟩
  rw [(compared _ leftMade _ outerMade).1]
  decide

end Session

end HeldLocks
