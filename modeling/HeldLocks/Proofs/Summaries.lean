import HeldLocks.Proofs.CounterReductions
import HeldLocks.Proofs.CounterReplays

/-!
# Sharing the summary of a block

The summary of a block is what its replay from a reduced state came to. It is found again
by the key of the reduced state, so it may have been made for one caller and be used for
another. This is exact for blocks that do what they do to their own locks only: the reduced
replay is ruled out at the step at which the caller's own would be, and otherwise expands to
the state that the caller's own ends in.

The argument goes lock by lock. Two reduced states with one key count every lock alike, and
a reduced state has the caller's counts inside the block. So the two replays agree inside
the block, by `Trace.Confined.agreeing`. Outside the block both leave the counts as they
were, by `Trace.Confined.framed`: the caller's own replay ends with the caller's counts, and
the reduced one with what the block sees of them, from which the caller regains its own.

On counters of 32 bits the two replays leave the range together, since they agree inside the block
(`Trace.Confined.overflows_of_agreeing`). The expansion leaves it exactly where it adds to the
largest counter (`Session.overflows_iff_of_seen`).
-/

namespace HeldLocks

namespace Reduction

/-- An expanded state holds what a final state holds if the two ends agree inside the block
and each is outside as its own beginning: the exit as the caller is seen, and the final
state as the caller is. -/
theorem holdings_expand (reduction : Reduction) (fresh : Nat) {caller exit final : State}
    (callerCanonical : caller.Canonical) (exitCanonical : exit.Canonical)
    (finalCanonical : final.Canonical) (block : LockSet)
    (inside : exit.holdings.AgreeOn block final.holdings)
    (seenOutside : ∀ lock, lock ∉ block →
      exit.holdings.count lock = reduction.seen (caller.holdings.count lock))
    (keptOutside : ∀ lock, lock ∉ block →
      final.holdings.count lock = caller.holdings.count lock) :
    (reduction.expand fresh caller block exit).holdings = final.holdings := by
  have callerHoldings : caller.holdings.Canonical :=
    callerCanonical caller.toSnapshot List.mem_cons_self
  have finalHoldings : final.holdings.Canonical :=
    finalCanonical final.toSnapshot List.mem_cons_self
  have expandedHoldings : (reduction.expand fresh caller block exit).holdings.Canonical :=
    canonical_expand reduction fresh callerCanonical exitCanonical block _ List.mem_cons_self
  apply expandedHoldings.ext finalHoldings
  intro lock
  rw [count_expand reduction fresh callerHoldings]
  by_cases member : lock ∈ block
  · rw [if_pos member, inside lock member]
  · rw [if_neg member, seenOutside lock member, keptOutside lock member, regained_seen]

end Reduction

/-! ## Leaving the range of counters together -/

/-- Drafts that agree on a block overflow together under a batch confined to it. -/
theorem Draft.overflows_of_agreeing {block : LockSet} {effects : List Effect}
    (confined : ∀ effect ∈ effects, effect.ConfinedTo block) {left right : Draft}
    (agree : left.holdings.AgreeOn block right.holdings) (overflows : left.Overflows effects) :
    right.Overflows effects := by
  rw [← List.map_id effects] at overflows ⊢
  refine overflows.transfer (fun left right =>
    left.holdings.AgreeOn block right.holdings) ?_ ?_ agree
  · intro effect member left right agree overflows
    cases effect with
    | acquire lock bound =>
      exact ⟨(agree lock (confined _ member)).symm.trans overflows.1, overflows.2⟩
    | _ => exact overflows
  · intro effect member left right agree _ lock inside
    have isLocal := (confined effect member).isLocal
    rw [id, count_meet left isLocal, count_meet right isLocal, agree lock inside]

/-- States that agree on a block overflow together under a trace confined to it. -/
theorem Trace.Confined.overflows_of_agreeing {block : LockSet} {steps : List Step}
    (confined : Confined block steps) {fresh other : Nat} {left right : State}
    (agree : left.holdings.AgreeOn block right.holdings)
    (overflows : Overflows fresh left steps) : Overflows other right steps := by
  rw [← List.map_id steps] at overflows ⊢
  refine overflows.transfer (fun _ left _ right =>
    left.holdings.AgreeOn block right.holdings) ?_ ?_ agree
  · exact fun step member _ left _ right agree =>
      Draft.overflows_of_agreeing (confined step member) agree
  · intro step member fresh left other right next agree _ stepped
    rcases State.agree_after (confined step member) left right agree fresh other with
      ⟨ruledOut, _⟩ | ⟨leftNext, rightNext, leftStepped, rightStepped, nextAgree⟩
    · cases ruledOut.symm.trans stepped
    · obtain rfl := Option.some.inj (Except.ok.inj (leftStepped.symm.trans stepped))
      exact ⟨rightNext, rightStepped, nextAgree⟩

namespace Session

section Sharing

variable {session : Session} {summarised caller : State} {reduction : Reduction}
  {block : LockSet} {reducedFresh callerFresh : Nat}

/-- Of a reduced state a caller with the same key knows the counts: in the block they are its own,
and outside they are what the block sees of them. -/
theorem WellFormed.count_of_sameKey (wellFormed : session.WellFormed)
    (callerMade : caller ∈ session.states)
    (sameKey : Reduction.key (reduction.reduce reducedFresh summarised block) =
      Reduction.key (reduction.reduce callerFresh caller block)) (lock : Lock) :
    (reduction.reduce reducedFresh summarised block).holdings.count lock =
      if lock ∈ block then caller.holdings.count lock
      else reduction.seen (caller.holdings.count lock) := by
  have sameHoldings : (reduction.reduce reducedFresh summarised block).holdings =
      (reduction.reduce callerFresh caller block).holdings := sameKey
  rw [sameHoldings]
  exact reduction.count_reduce callerFresh (wellFormed.canonical caller callerMade) block lock

/-- With counts of any size, a summary that was made for the one caller serves the other. The exit
holds, outside the block, what the block has seen. -/
theorem WellFormed.serves_exactly (wellFormed : session.WellFormed)
    (summarisedMade : summarised ∈ session.states) (callerMade : caller ∈ session.states)
    (sameKey : Reduction.key (reduction.reduce reducedFresh summarised block) =
      Reduction.key (reduction.reduce callerFresh caller block))
    {body : List Trace.Step} (confined : Trace.Confined block body)
    (insideFresh directFresh expandedFresh : Nat) :
    ∃ inside direct,
      Trace.replay insideFresh (reduction.reduce reducedFresh summarised block) body =
          .ok inside ∧
        Trace.replay directFresh caller body = .ok direct ∧
        inside.map Option.isSome = direct.map Option.isSome ∧
        ∀ exit,
          Trace.exit? (reduction.reduce reducedFresh summarised block) inside = some exit →
            (∀ lock, lock ∉ block →
              exit.holdings.count lock = reduction.seen (caller.holdings.count lock)) ∧
            ∃ final, Trace.exit? caller direct = some final ∧
              (reduction.expand expandedFresh caller block exit).holdings = final.holdings ∧
              (reduction.expand expandedFresh caller block exit).saved = final.saved := by
  have callerCanonical := wellFormed.canonical_chain callerMade
  have reducedCanonical := reduction.canonical_reduce reducedFresh
    (wellFormed.canonical_chain summarisedMade) block
  have reducedCount := wellFormed.count_of_sameKey callerMade sameKey
  have agree : (reduction.reduce reducedFresh summarised block).holdings.AgreeOn block
      caller.holdings := by
    intro lock member
    rw [reducedCount, if_pos member]
  obtain ⟨inside, direct, insideRan, directRan, sameSteps, sameEnd⟩ :=
    confined.agreeing insideFresh directFresh _ caller agree
  refine ⟨inside, direct, insideRan, directRan, sameSteps, ?_⟩
  intro exit exits
  obtain ⟨final, ends, agreeAtEnd⟩ := sameEnd exit exits
  obtain ⟨exitCanonical, exitFramed⟩ :=
    confined.framed insideFresh reducedCanonical insideRan exits
  obtain ⟨finalCanonical, finalFramed⟩ :=
    confined.framed directFresh callerCanonical directRan ends
  have closed : exit.saved = [] :=
    exitFramed.saved.trans (reduction.saved_reduce reducedFresh summarised block)
  have seenOutside : ∀ lock, lock ∉ block →
      exit.holdings.count lock = reduction.seen (caller.holdings.count lock) := by
    intro lock outside
    rw [exitFramed.counts lock outside, reducedCount, if_neg outside]
  refine ⟨seenOutside, final, ends, ?_, ?_⟩
  · exact reduction.holdings_expand expandedFresh callerCanonical exitCanonical finalCanonical
      block agreeAtEnd seenOutside finalFramed.counts
  · rw [reduction.saved_expand expandedFresh caller block exit closed, finalFramed.saved]

end Sharing

/-- An expansion after a block that has left what it saw overflows exactly where it adds to the
largest counter: counts were flattened, and the caller holds some lock outside the block that
often. -/
theorem overflows_iff_of_seen {reduction : Reduction} {caller exit : State} (fits : caller.Fits)
    {block : LockSet} (seenOutside : ∀ lock, lock ∉ block →
      exit.holdings.count lock = reduction.seen (caller.holdings.count lock)) :
    reduction.Overflows caller block exit ↔
      reduction.dropUnused = false ∧ reduction.flattenCounts = true ∧
        ∃ lock, lock ∉ block ∧ caller.holdings.count lock = Trace.maxCounter := by
  refine and_congr_right fun kept => and_congr_right fun flattened => ?_
  have callerCanonical := fits.canonical caller.toSnapshot List.mem_cons_self
  have most := (fits.within caller.toSnapshot List.mem_cons_self).count_le
  have sees : ∀ held, reduction.seen held = min held 1 := by
    intro held
    rw [Reduction.seen, kept, flattened]
    rfl
  constructor
  · rintro ⟨lock, held, outside, tooLarge⟩
    have inRange := most lock
    rw [seenOutside lock outside, sees] at tooLarge
    exact ⟨lock, outside, by omega⟩
  · rintro ⟨lock, outside, largest⟩
    have positive : 0 < caller.holdings.count lock := largest ▸ (by decide : 0 < Trace.maxCounter)
    refine ⟨lock, (callerCanonical.mem_iff_count_pos lock).mpr positive, outside, ?_⟩
    rw [seenOutside lock outside, sees]
    omega

/-- Callers whose reduced states have one key can share the summary of a block. Let a trace be
confined to the block, and let both callers' counts, and what the trace assigns, be in the range of
32 bits, as they are in a program (`Session.ReachableOnWords.reachable_and_fits`).

* The one caller's state is reduced in range. Replays of the trace from there and from the other
  caller leave the range together: exactly if an acquisition in the other caller's replay meets
  its lock at the largest counter.
* Otherwise the replay from the reduced state is ruled out at exactly the step at which the replay
  from the other caller is, if one is ruled out at all.
* If it is feasible, then expanding what it ends in for the other caller leaves the range exactly
  if counts were flattened and that caller holds some lock outside the block at the largest
  counter; and else it gives the state that the replay from that caller ends in, with the same
  holdings, and returning to the same chain.

The numbers given to the states on the way do not matter.

Proof: lock by lock, as the module says, for counts of any size; and as long as nothing overflows,
what is done on counters is what is done with such counts. -/
theorem summary_serves_caller {session : Session} (reachable : session.Reachable)
    {summarised caller : State} (summarisedMade : summarised ∈ session.states)
    (callerMade : caller ∈ session.states) (summarisedFits : summarised.Fits)
    (callerFits : caller.Fits) (reduction : Reduction) (block : LockSet)
    (reducedFresh callerFresh insideFresh directFresh expandedFresh : Nat)
    (sameKey : Reduction.key (reduction.reduce reducedFresh summarised block) =
      Reduction.key (reduction.reduce callerFresh caller block))
    {body : List Trace.Step} (confined : Trace.Confined block body)
    (effectsFit : ∀ step ∈ body, ∀ effect ∈ step.effects, effect.Fits) :
    reduction.reduceOnWords? reducedFresh summarised block =
        some (reduction.reduce reducedFresh summarised block) ∧
      (Trace.Overflows directFresh caller body →
        Trace.replayOnWords? insideFresh (reduction.reduce reducedFresh summarised block) body =
            none ∧
          Trace.replayOnWords? directFresh caller body = none) ∧
      (¬ Trace.Overflows directFresh caller body →
        ∃ inside direct,
          Trace.replayOnWords? insideFresh (reduction.reduce reducedFresh summarised block) body =
              some inside ∧
            Trace.replayOnWords? directFresh caller body = some direct ∧
            Trace.replay insideFresh (reduction.reduce reducedFresh summarised block) body =
              .ok inside ∧
            Trace.replay directFresh caller body = .ok direct ∧
            inside.map Option.isSome = direct.map Option.isSome ∧
            ∀ exit,
              Trace.exit? (reduction.reduce reducedFresh summarised block) inside = some exit →
                (reduction.expandOnWords? expandedFresh caller block exit = none ↔
                  reduction.dropUnused = false ∧ reduction.flattenCounts = true ∧
                    ∃ lock, lock ∉ block ∧ caller.holdings.count lock = Trace.maxCounter) ∧
                ∃ final, Trace.exit? caller direct = some final ∧
                  ∀ expanded,
                    reduction.expandOnWords? expandedFresh caller block exit = some expanded →
                      expanded = reduction.expand expandedFresh caller block exit ∧
                        expanded.holdings = final.holdings ∧ expanded.saved = final.saved ∧
                        expanded.same final = true) := by
  have wellFormed := reachable.wellFormed
  obtain ⟨reduced, reducedFits⟩ := reduction.reduceOnWords?_eq reducedFresh summarisedFits block
  obtain ⟨inside, direct, insideRan, directRan, sameSteps, ends⟩ := wellFormed.serves_exactly
    summarisedMade callerMade sameKey confined insideFresh directFresh expandedFresh
  have agree : (reduction.reduce reducedFresh summarised block).holdings.AgreeOn block
      caller.holdings := by
    intro lock member
    rw [wellFormed.count_of_sameKey callerMade sameKey, if_pos member]
  have overflowsBack : Trace.Overflows insideFresh
      (reduction.reduce reducedFresh summarised block) body →
        Trace.Overflows directFresh caller body := confined.overflows_of_agreeing agree
  have agreeBack : caller.holdings.AgreeOn block
      (reduction.reduce reducedFresh summarised block).holdings :=
    fun lock member => (agree lock member).symm
  obtain ⟨insideLeaves, insideStays⟩ := Trace.replayOnWords?_eq reducedFits effectsFit insideRan
  obtain ⟨directLeaves, directStays⟩ := Trace.replayOnWords?_eq callerFits effectsFit directRan
  refine ⟨reduced, fun overflows => ⟨insideLeaves (confined.overflows_of_agreeing agreeBack
    overflows), directLeaves overflows⟩, fun fitting => ?_⟩
  obtain ⟨insideSame, insideFits⟩ := insideStays fun overflows => fitting (overflowsBack overflows)
  refine ⟨inside, direct, insideSame, (directStays fitting).1, insideRan, directRan, sameSteps, ?_⟩
  intro exit exits
  obtain ⟨seenOutside, final, isFinal, holdings, saved⟩ := ends exit exits
  have exitFits : exit.Fits := by
    rcases Trace.eq_or_mem_of_exit? exits with rfl | reached
    · exact reducedFits
    · exact insideFits exit reached
  refine ⟨?_, final, isFinal, ?_⟩
  · rw [reduction.expandOnWords?_eq_none_iff expandedFresh callerFits block exitFits]
    exact overflows_iff_of_seen callerFits seenOutside
  · intro expanded stays
    obtain ⟨leaves, same⟩ :=
      reduction.expandOnWords?_eq expandedFresh callerFits block exitFits
    have inRange : ¬ reduction.Overflows caller block exit := by
      intro overflows
      rw [leaves overflows] at stays
      cases stays
    obtain rfl := Option.some.inj ((same inRange).1.symm.trans stays)
    exact ⟨rfl, holdings, saved, State.same_of_holdings _ final holdings saved⟩

/-- A summary with flattened counts that was made outside any call serves a caller inside a
call, who holds another lock more often. -/
theorem summary_serves_inner_call :
    Reduction.key (Reduction.reduce ⟨false, true⟩ 3
        ⟨⟨1, ⟨[(.ofName "a", 1), (.ofName "b", 2)]⟩⟩, []⟩ (.ofList [.ofName "a"])) =
      Reduction.key (Reduction.reduce ⟨false, true⟩ 3
        ⟨⟨2, ⟨[(.ofName "a", 1), (.ofName "b", 3)]⟩⟩,
          [⟨1, ⟨[(.ofName "a", 1), (.ofName "b", 2)]⟩⟩]⟩ (.ofList [.ofName "a"])) ∧
    ∃ exit final expanded,
      exit.holdings = ⟨[(.ofName "a", 2), (.ofName "b", 1)]⟩ ∧
      final.holdings = ⟨[(.ofName "a", 2), (.ofName "b", 3)]⟩ ∧
      Reduction.expandOnWords? ⟨false, true⟩ 6 ⟨⟨2, ⟨[(.ofName "a", 1), (.ofName "b", 3)]⟩⟩,
        [⟨1, ⟨[(.ofName "a", 1), (.ofName "b", 2)]⟩⟩]⟩ (.ofList [.ofName "a"]) exit =
          some expanded ∧
      expanded.same final = true := by
  have reachable : (start.run [
      .effects 0 [.acquire (.ofName "a") 0, .assign (.ofName "b") 2],
      .effects 1 [.save, .acquire (.ofName "b") 0]]).2.Reachable := ⟨_, rfl⟩
  have summarisedMade : ⟨⟨1, ⟨[(.ofName "a", 1), (.ofName "b", 2)]⟩⟩, []⟩ ∈
      (start.run [.effects 0 [.acquire (.ofName "a") 0, .assign (.ofName "b") 2],
        .effects 1 [.save, .acquire (.ofName "b") 0]]).2.states :=
    List.mem_cons_of_mem _ List.mem_cons_self
  have callerMade : ⟨⟨2, ⟨[(.ofName "a", 1), (.ofName "b", 3)]⟩⟩,
      [⟨1, ⟨[(.ofName "a", 1), (.ofName "b", 2)]⟩⟩]⟩ ∈
        (start.run [.effects 0 [.acquire (.ofName "a") 0, .assign (.ofName "b") 2],
          .effects 1 [.save, .acquire (.ofName "b") 0]]).2.states :=
    List.mem_cons_of_mem _ (List.mem_cons_of_mem _ List.mem_cons_self)
  have confined : Trace.Confined (.ofList [.ofName "a"])
      [⟨1, [.acquire (.ofName "a") 0]⟩, ⟨2, [.check (.ofName "a") 2 true]⟩] := by
    simp [Trace.Confined, Effect.ConfinedTo, LockSet.mem_ofList]
  have effectsFit : ∀ step ∈ [(⟨1, [.acquire (.ofName "a") 0]⟩ : Trace.Step),
      ⟨2, [.check (.ofName "a") 2 true]⟩], ∀ effect ∈ step.effects, effect.Fits := by
    simp [Effect.Fits]
  have sameKey : Reduction.key (Reduction.reduce ⟨false, true⟩ 3
        ⟨⟨1, ⟨[(.ofName "a", 1), (.ofName "b", 2)]⟩⟩, []⟩ (.ofList [.ofName "a"])) =
      Reduction.key (Reduction.reduce ⟨false, true⟩ 3
        ⟨⟨2, ⟨[(.ofName "a", 1), (.ofName "b", 3)]⟩⟩,
          [⟨1, ⟨[(.ofName "a", 1), (.ofName "b", 2)]⟩⟩]⟩ (.ofList [.ofName "a"])) := by
    decide
  obtain ⟨_, leaves, stays⟩ := summary_serves_caller reachable summarisedMade callerMade
    (State.fits_of_entries (reachable.wellFormed.canonical_chain summarisedMade) (by decide))
    (State.fits_of_entries (reachable.wellFormed.canonical_chain callerMade) (by decide))
    ⟨false, true⟩ (.ofList [.ofName "a"]) 3 3 4 4 6 sameKey confined effectsFit
  obtain ⟨inside, direct, _, _, insideRan, directRan, _, ends⟩ :=
    stays fun overflows => absurd (leaves overflows).2 (by decide +kernel)
  obtain rfl := Except.ok.inj insideRan
  obtain rfl := Except.ok.inj directRan
  obtain ⟨_, final, isFinal, expands⟩ := ends _ rfl
  obtain rfl := Option.some.inj isFinal
  obtain ⟨expanded, isExpanded⟩ := Option.ne_none_iff_exists'.mp
    (by decide +kernel : Reduction.expandOnWords? ⟨false, true⟩ 6
      ⟨⟨2, ⟨[(.ofName "a", 1), (.ofName "b", 3)]⟩⟩,
        [⟨1, ⟨[(.ofName "a", 1), (.ofName "b", 2)]⟩⟩]⟩ (.ofList [.ofName "a"])
      ⟨⟨4, ⟨[(.ofName "a", 2), (.ofName "b", 1)]⟩⟩, []⟩ ≠ none)
  exact ⟨sameKey, _, _, expanded, rfl, rfl, isExpanded, (expands expanded isExpanded).2.2.2⟩

end Session

end HeldLocks
