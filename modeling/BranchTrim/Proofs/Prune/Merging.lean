import BranchTrim.Proofs.Prune.Leftovers

/-!
How far merging goes. A cut folds blocks into the block where it is made and nowhere else; a sweep
that removes anything folds all that can be folded. So pruning may leave a block that could be
folded into another one, but only if there was more than one way to that block before, and the sweep
had nothing to remove.
-/

set_option autoImplicit false

namespace BranchTrim

namespace Function

variable {f g : Function} {oracle : Oracle} {o : Outcome} {i n : Nat}

/-- The only edge into a block comes from another block that ends in a jump. -/
def Mergeable (f : Function) (i : Nat) : Prop :=
  i ≠ f.entry ∧ ∃ head ∈ f.singlePredecessor? i, head ≠ i ∧
    (f.jumpTarget? head).isSome = true

instance (f : Function) (i : Nat) : Decidable (f.Mergeable i) :=
  inferInstanceAs (Decidable (_ ∧ ∃ head ∈ f.singlePredecessor? i, _))

def FullyMerged (f : Function) : Prop :=
  ∀ i ∈ f.blockIds, ¬ f.Mergeable i

instance (f : Function) : Decidable f.FullyMerged :=
  inferInstanceAs (Decidable (∀ i ∈ f.blockIds, _))

/-- Edges from more than one block lead to a block. -/
def IsJoin (f : Function) (n : Nat) : Prop :=
  ∃ j k, j ≠ k ∧ n ∈ f.graph.targets j ∧ n ∈ f.graph.targets k

private theorem mem_predecessors_of_single {head : Nat}
    (single : f.singlePredecessor? i = some head) :
    head ∈ f.predecessors i := by
  unfold singlePredecessor? at single
  split at single
  · next pred only =>
    obtain rfl := Option.some.inj single
    simp [only]
  · cases single

private theorem mergeable_iff (hf : f.graph.Consistent) :
    f.Mergeable i ↔ ∃ head p b, f.Foldable head i p b := by
  constructor
  · rintro ⟨inner, head, single, other, jumps⟩
    obtain ⟨target, jumps⟩ := Option.isSome_iff_exists.mp jumps
    obtain ⟨p, found, jump⟩ := jumpTarget?_eq_some_iff.mp jumps
    have leads : i ∈ f.graph.targets head :=
      hf.mem_sources.mp (mem_predecessors_of_single single)
    obtain rfl : i = target := by
      rw [Graph.targets_of_block? found, jump] at leads
      simpa [Terminator.targets, Terminator.arms] using leads
    obtain ⟨b, next_found⟩ := Graph.contains_iff.mp (hf.contains_target leads)
    exact ⟨head, p, b, found, next_found, jump, other.symm, inner,
      (singlePredecessor?_eq_some_iff hf found jump).mp single⟩
  · rintro ⟨head, p, b, fold⟩
    refine ⟨fold.next_ne_entry, head, ?_, fold.next_ne_head.symm, ?_⟩
    · exact (singlePredecessor?_eq_some_iff hf fold.head_found fold.jump).mpr fold.only
    · rw [jumpTarget?_eq_some_iff.mpr ⟨p, fold.head_found, fold.jump⟩]
      rfl

private theorem Mergeable.mem_blockIds (hf : f.graph.Consistent) (mergeable : f.Mergeable i) :
    i ∈ f.blockIds := by
  obtain ⟨_, _, _, fold⟩ := (mergeable_iff hf).mp mergeable
  exact (f.graph.mem_ids i).mpr (Graph.contains_of_block? fold.next_found)

private theorem fullyMerged_iff (hf : f.graph.Consistent) :
    f.FullyMerged ↔ ∀ i, ¬ f.IsHead i := by
  constructor
  · rintro merged head ⟨i, p, b, fold⟩
    have mergeable : f.Mergeable i := (mergeable_iff hf).mpr ⟨head, p, b, fold⟩
    exact merged i (mergeable.mem_blockIds hf) mergeable
  · intro no_head i _ mergeable
    obtain ⟨head, p, b, fold⟩ := (mergeable_iff hf).mp mergeable
    exact no_head head ⟨i, p, b, fold⟩

section Walk

private theorem Moves.isJoin {m : Move} (move : f.Moves g m) (join : g.IsJoin n) : f.IsJoin n := by
  have lost : ∀ {j}, n ∈ g.graph.targets j → g.graph.block? j ≠ none := by
    intro j leads gone
    obtain ⟨b, found, _⟩ := Graph.mem_targets.mp leads
    rw [gone] at found
    cases found
  obtain ⟨j, k, ne, first, second⟩ := join
  rcases move.edge first with leads | ⟨next, fold, gone, _, leads⟩
  · rcases move.edge second with leads' | ⟨next', _, gone', _, leads'⟩
    · exact ⟨j, k, ne, leads, leads'⟩
    · refine ⟨j, next', ?_, leads, leads'⟩
      rintro rfl
      exact lost first gone'
  · rcases move.edge second with leads' | ⟨next', fold', _, _, _⟩
    · refine ⟨next, k, ?_, leads, leads'⟩
      rintro rfl
      exact lost second gone
    · rw [fold] at fold'
      exact absurd (Move.fold.inj fold').1 ne

private theorem Derives.isJoin {allowed : Function → Move → Prop} {moves : List Move}
    (series : f.Derives allowed moves g) (join : g.IsJoin n) : f.IsJoin n := by
  induction series with
  | refl => exact join
  | step _ move _ ih => exact move.isJoin (ih join)

private theorem mergeable_of_cutDecided (hf : f.graph.Consistent)
    (visited : cutDecided oracle true f i = .ok o) (mergeable : o.func.Mergeable n) :
    f.Mergeable n ∨ f.IsJoin n := by
  obtain ⟨derived, _⟩ := of_returns visited (cutDecided_returns hf oracle true i)
  obtain ⟨head, p, b, fold⟩ := (mergeable_iff derived.consistent).mp mergeable
  by_cases at_i : head = i
  · rcases (visit_of_cutDecided visited).unchanged_or_ended hf with same | ended
    · exact Or.inl (same ▸ mergeable)
    · exact absurd ⟨n, p, b, at_i ▸ fold⟩ ended
  -- The visit has not touched the head, so it jumped before; either it was alone then, or
  -- it was not.
  · have same : o.func.graph.block? head = f.graph.block? head := by
      rcases derived.frame fun _ _ decides => site?_of_decides decides at_i with same | gone
      · exact same
      · rw [fold.head_found] at gone
        cases gone
    have found : f.graph.block? head = some p := same.symm.trans fold.head_found
    have leads : n ∈ f.graph.targets head := by
      rw [Graph.targets_of_block? found, fold.jump]
      exact List.mem_singleton.mpr rfl
    by_cases alone : ∀ j, n ∈ f.graph.targets j → j = head
    · left
      obtain ⟨c, next_found⟩ := Graph.contains_iff.mp (hf.contains_target leads)
      exact (mergeable_iff hf).mpr ⟨head, p, c, found, next_found, fold.jump, fold.next_ne_head,
        fold.next_ne_entry, alone⟩
    · right
      push Not at alone
      obtain ⟨j, leads', other⟩ := alone
      exact ⟨j, head, other, leads', leads⟩

private theorem isJoin_of_cutBranches (hf : f.graph.Consistent) (merged : f.FullyMerged)
    (h : f.cutBranches oracle true = .ok o) (mergeable : o.func.Mergeable n) : f.IsJoin n := by
  by_contra no_join
  have kept : ¬ o.func.IsJoin n ∧ ¬ o.func.Mergeable n := by
    refine cutBranches_keeps (fun g => ¬ g.IsJoin n ∧ ¬ g.Mergeable n) ?_ hf h ⟨no_join, ?_⟩
    · rintro g i o hg visited ⟨no_join, unmergeable⟩
      obtain ⟨derived, _⟩ := of_returns visited (cutDecided_returns hg oracle true i)
      obtain ⟨moves, series, _⟩ := derived.moves
      refine ⟨fun join => no_join (series.isJoin join), fun mergeable => ?_⟩
      exact (mergeable_of_cutDecided hg visited mergeable).elim unmergeable no_join
    · exact fun mergeable => merged n (mergeable.mem_blockIds hf) mergeable
  exact kept.2 mergeable

end Walk

section Pruning

theorem fullyMerged_of_sweep (hf : f.graph.Consistent) (left : f.orphans ≠ [])
    (h : f.sweep true = .ok o) : o.func.FullyMerged := by
  obtain ⟨dropped, folded, _, hd, _, merged, returned⟩ := sweep_of_orphans_ne_nil hf left true
  obtain rfl := Except.ok.inj (returned.symm.trans h)
  have derived := of_returns merged (mergeAll_returns hd true)
  exact (fullyMerged_iff derived.consistent).mpr (not_isHead_of_mergeAll hd merged)

/--
Merging is complete up to joins. Pruning leaves a merged function merged if the walk has left
something to be swept, or if no join of the function has become mergeable on the walk, and only
then; all that is left mergeable has been a join.
-/
theorem merging_complete_iff (edges : f.verifyEdges = .ok ()) (merged : f.FullyMerged)
    (oracle : Oracle) :
    ∃ walked o, f.cutBranches oracle true = .ok walked ∧ f.prune oracle .default = .ok o ∧
      (o.func.FullyMerged ↔
        walked.func.verify ≠ .ok () ∨ ∀ i, f.IsJoin i → ¬ walked.func.Mergeable i) ∧
      ∀ i, o.func.Mergeable i → f.IsJoin i := by
  have hf := verifyEdges_eq_ok_iff.mp edges
  obtain ⟨o, pruned⟩ := prune_returns hf oracle .default (by simp [Options.default])
  have ho := (derivedFrom_of_prune hf pruned).consistent
  obtain ⟨walked, swept, walk, sweep, func, _⟩ := stages_of_prune pruned
  have hw := (of_returns walk (cutBranches_returns hf oracle true)).consistent
  refine ⟨walked, o, walk, pruned, ?_⟩
  by_cases left : walked.func.orphans = []
  · have same : o.func = walked.func := by
      rw [sweep_of_orphans_eq_nil left] at sweep
      obtain rfl := Except.ok.inj sweep
      exact func
    have checked : walked.func.verify = .ok () :=
      verify_eq_ok_iff.mpr ⟨hw, (orphans_eq_nil_iff hw).mp left⟩
    rw [same]
    refine ⟨⟨?_, ?_⟩, fun i => isJoin_of_cutBranches hf merged walk⟩
    · intro all
      exact Or.inr fun i _ mergeable => all i (mergeable.mem_blockIds hw) mergeable
    · intro either i _ mergeable
      have joins := either.resolve_left (absurd checked)
      exact joins i (isJoin_of_cutBranches hf merged walk mergeable) mergeable
  · have all : o.func.FullyMerged := by
      rw [func]
      exact fullyMerged_of_sweep hw left sweep
    have unchecked : walked.func.verify ≠ .ok () := by
      intro checked
      exact left ((orphans_eq_nil_iff hw).mpr (verify_eq_ok_iff.mp checked).2)
    refine ⟨iff_of_true all (Or.inl unchecked), fun i mergeable => ?_⟩
    exact absurd mergeable (all i (mergeable.mem_blockIds ho))

theorem merging_complete_iff_lateJoin :
    lateJoin.FullyMerged ∧
      ∃ o, lateJoin.prune (RangeTable.ofList [(0, .singleton 20)]).oracle .default = .ok o ∧
        o.func.FullyMerged := by
  have edges : lateJoin.verifyEdges = .ok () := by decide
  have merged : lateJoin.FullyMerged := by decide
  obtain ⟨walked, o, walk, pruned, complete, _⟩ := merging_complete_iff edges merged
    (RangeTable.ofList [(0, .singleton 20)]).oracle
  have evaluated : (lateJoin.cutBranches (RangeTable.ofList [(0, .singleton 20)]).oracle
      true).toOption.map (fun o => decide o.func.FullyMerged) = some true := by decide +kernel
  rw [walk] at evaluated
  have straight : walked.func.FullyMerged := of_decide_eq_true (Option.some.inj evaluated)
  have hw :=
    (of_returns walk (cutBranches_returns (verifyEdges_eq_ok_iff.mp edges) _ true)).consistent
  refine ⟨merged, o, pruned, complete.mpr (Or.inr fun i _ mergeable => ?_)⟩
  exact straight i (mergeable.mem_blockIds hw) mergeable

/-- The cut in `i` takes an edge from the join `n`, which is left with a single jump into it. -/
theorem prune_leaves_lateJoin_unmerged :
    lateJoin.verify = .ok () ∧ lateJoin.FullyMerged ∧ shortRange.oracle.DependsOnValue ∧
      ∃ o, lateJoin.prune shortRange.oracle .default = .ok o ∧ ¬ o.func.FullyMerged := by
  refine ⟨by decide +kernel, by decide, shortRange.dependsOnValue, ?_⟩
  have edges : lateJoin.verifyEdges = .ok () := by decide
  obtain ⟨o, pruned⟩ :=
    prune_returns (verifyEdges_eq_ok_iff.mp edges) shortRange.oracle .default
    (by simp [Options.default])
  have evaluated : (lateJoin.prune shortRange.oracle .default).toOption.map
      (fun o => decide o.func.FullyMerged) = some false := by decide +kernel
  rw [pruned] at evaluated
  exact ⟨o, pruned, of_decide_eq_false (Option.some.inj evaluated)⟩

end Pruning

end Function

end BranchTrim
