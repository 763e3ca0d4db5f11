import BranchTrim.Proofs.Prune.Accounts
import BranchTrim.Proofs.Prune.Chains
import BranchTrim.Proofs.Prune.Merging
import BranchTrim.Proofs.Prune.Removal

/-!
What the sweep removes: all blocks that the entry does not reach, and none that it reaches. Folding
may take a block that is reached, but then its instructions stay on the chain of another one; so the
chains of what is left have exactly the blocks that the entry reaches.
-/

set_option autoImplicit false

namespace BranchTrim

namespace Function

variable {f g h : Function} {chain : Nat → List Nat} {moves : List Move} {i : Nat}

def OnChain (g : Function) (chain : Nat → List Nat) (i : Nat) : Prop :=
  ∃ j, g.contains j = true ∧ i ∈ chain j

section Drops

private theorem Moves.erases {blocks : List (Nat × Block)} (move : f.Moves g (.drop blocks)) :
    f.Erases g (blocks.map Prod.fst).toFinset (Move.drop blocks).stats := by
  cases move with
  | drop _ found nodup inner _ shape =>
    refine ⟨?_, ?_, ?_⟩
    · intro i member
      have listed := List.mem_toFinset.mp member
      obtain ⟨entry, mem, rfl⟩ := List.mem_map.mp listed
      refine ⟨Graph.contains_of_block? (found entry mem), ?_⟩
      intro same
      exact inner (same ▸ listed)
    · simpa only [List.mem_toFinset] using shape
    · have sizes : (blocks.map Prod.fst).map f.sizeAt = (blocks.map Prod.snd).map Block.size := by
        rw [List.map_map, List.map_map]
        refine List.map_congr_left fun entry mem => ?_
        simp [sizeAt, found entry mem]
      rw [stats_drop, List.sum_toFinset _ nodup, sizes, List.toFinset_card_of_nodup nodup,
        List.length_map]

private theorem mem_unreached_iff (hf : f.graph.Consistent) :
    i ∈ (f.orphanBlocks.map Prod.fst).toFinset ↔ f.contains i = true ∧ ¬ f.Reaches i := by
  rw [List.mem_toFinset, map_fst_orphanBlocks]
  exact mem_orphans_iff hf

end Drops

section Folds

private theorem Derives.total_of_folds
    (series : g.Derives (fun _ m => ∃ i, m.FoldsInto i) moves h) :
    Move.total moves = ⟨0, 0, moves.length, 0⟩ := by
  induction series with
  | refl => rfl
  | @step _ _ _ m _ permitted _ _ ih =>
    obtain ⟨i, folds⟩ := permitted
    cases m with
    | fold head next =>
      rw [Move.total_cons, ih, Stats.add_def]
      simp [Move.stats, Stats.merged, Nat.add_comm]
    | cut => cases folds
    | drop => cases folds

private theorem onChain_fold {head next : Nat} {p b : Block} (fold : g.Foldable head next p b)
    (shape : g.Reshaped h (g.foldedBlocks head next p b)) :
    h.OnChain (joinChains chain head next) i ↔ g.OnChain chain i := by
  have head_live : h.contains head = true := Graph.contains_of_block? (fold.block?_head shape)
  constructor
  · rintro ⟨j, live, mem⟩
    by_cases at_head : j = head
    · rw [joinChains, if_pos at_head] at mem
      rcases List.mem_append.mp mem with mem | mem
      · exact ⟨head, Graph.contains_of_block? fold.head_found, mem⟩
      · exact ⟨next, Graph.contains_of_block? fold.next_found, mem⟩
    · rw [joinChains, if_neg at_head] at mem
      exact ⟨j, (Moves.fold fold shape).contains live, mem⟩
  · rintro ⟨j, live, mem⟩
    by_cases at_head : j = head
    · refine ⟨head, head_live, ?_⟩
      rw [joinChains, if_pos rfl]
      exact List.mem_append_left _ (at_head ▸ mem)
    by_cases at_next : j = next
    · refine ⟨head, head_live, ?_⟩
      rw [joinChains, if_pos rfl]
      exact List.mem_append_right _ (at_next ▸ mem)
    · refine ⟨j, ?_, ?_⟩
      · rwa [contains, Graph.contains, shape.block?_unfolded at_next at_head]
      · rwa [joinChains, if_neg at_head]

private theorem Derives.chained_of_folds
    (series : g.Derives (fun _ m => ∃ i, m.FoldsInto i) moves h) (chained : f.Chained g chain) :
    ∃ chain', f.Chained h chain' ∧ ∀ i, h.OnChain chain' i ↔ g.OnChain chain i := by
  induction series generalizing chain with
  | refl => exact ⟨chain, chained, fun _ => Iff.rfl⟩
  | step permitted move _ ih =>
    obtain ⟨_, folds⟩ := permitted
    cases move with
    | fold fold shape =>
      obtain ⟨chain', chained', same⟩ := ih (chained.fold fold shape)
      exact ⟨chain', chained', fun i => (same i).trans (onChain_fold fold shape)⟩
    | cut => cases folds
    | drop => cases folds

end Folds

section Sweeping

private theorem Erases.contains_iff_reaches {S : Finset ℕ} {stats : Stats}
    (hf : f.graph.Consistent)
    (unreached : ∀ i, i ∈ S ↔ f.contains i = true ∧ ¬ f.Reaches i)
    (erases : f.Erases g S stats) :
    g.contains i = true ↔ f.Reaches i := by
  rw [contains, Graph.contains, erases.shape.block?]
  by_cases member : i ∈ S
  · simp [member, ((unreached i).mp member).2]
  · rw [if_neg member]
    constructor
    · intro live
      by_contra outside
      exact member ((unreached i).mpr ⟨live, outside⟩)
    · exact fun path => path.contains hf

private theorem Erases.chained {S : Finset ℕ} {stats : Stats} (erases : f.Erases g S stats) :
    f.Chained g fun i => [i] := by
  refine f.chained_self.restrict fun i b found => ?_
  rw [erases.shape.block?] at found
  split at found
  · cases found
  · exact found

/-- The sweep erases the blocks out of reach, and then folds; it folds nothing if it
has erased nothing. -/
private theorem stages_of_sweep (hf : f.graph.Consistent) (merge : Bool) :
    ∃ (g : Function) (folds : List Move) (o : Outcome),
      f.sweep merge = .ok o ∧
      f.Erases g (f.orphanBlocks.map Prod.fst).toFinset (Move.drop f.orphanBlocks).stats ∧
      g.Derives (fun _ m => ∃ i, m.FoldsInto i) folds o.func ∧
      o.stats = (Move.drop f.orphanBlocks).stats + Move.total folds ∧
      (merge = false → o.func = g ∧ folds = []) ∧ (f.orphans = [] → o = .unchanged f) := by
  by_cases left : f.orphans = []
  · have none_left : f.orphanBlocks = [] := by simp [orphanBlocks, left]
    rw [none_left]
    exact ⟨f, [], .unchanged f, sweep_of_orphans_eq_nil left merge, f.erases_empty, .refl f, rfl,
      fun _ => ⟨rfl, rfl⟩, fun _ => rfl⟩
  · obtain ⟨dropped, folded, move, hd, stats, merged, swept⟩ :=
      sweep_of_orphans_ne_nil hf left merge
    obtain ⟨_, folds, series, counted⟩ := of_returns merged (mergeAll_returns hd merge)
    refine ⟨dropped.func, folds, _, swept, move.erases, series, ?_, ?_,
      fun empty => absurd empty left⟩
    · rw [← stats, ← counted]
      rfl
    · rintro rfl
      obtain rfl := Except.ok.inj merged
      rw [series.total_of_folds] at counted
      have length : 0 = folds.length := congrArg Stats.blocksMerged counted
      exact ⟨rfl, List.eq_nil_of_length_eq_zero length.symm⟩

/--
The sweep removes exactly the blocks that the entry does not reach, each counted with its
instructions and its terminator. If it is not to merge, or if there is no such block, it changes
nothing else. If it is to merge and has removed a block, it leaves none that can be folded. Blocks
within reach stay, or are folded into others that stay.
-/
theorem sweep_removes_unreached (edges : f.verifyEdges = .ok ()) (merge : Bool) :
    ∃ (S : Finset ℕ) (g : Function) (folds : List Move) (o : Outcome),
      (∀ i, i ∈ S ↔ f.contains i = true ∧ ¬ f.Reaches i) ∧
      f.sweep merge = .ok o ∧
      f.Erases g S { o.stats with blocksMerged := 0 } ∧
      g.Derives (fun _ m => ∃ i, m.FoldsInto i) folds o.func ∧
      o.stats.blocksMerged = folds.length ∧
      (∃ chain, f.Chained o.func chain ∧ ∀ i, o.func.OnChain chain i ↔ f.Reaches i) ∧
      (merge = false → o.func = g ∧ folds = []) ∧ (S = ∅ → o = .unchanged f) ∧
      (merge = true → S.Nonempty → o.func.FullyMerged) := by
  have hf := verifyEdges_eq_ok_iff.mp edges
  obtain ⟨g, folds, o, swept, erases, series, stats, unmerged, idle⟩ := stages_of_sweep hf merge
  have unreached : ∀ i, i ∈ (f.orphanBlocks.map Prod.fst).toFinset ↔ f.contains i = true ∧
      ¬ f.Reaches i :=
    fun i => mem_unreached_iff hf
  have empty_iff : (f.orphanBlocks.map Prod.fst).toFinset = ∅ ↔ f.orphans = [] := by
    rw [List.toFinset_eq_empty_iff, map_fst_orphanBlocks]
  rw [series.total_of_folds, stats_drop, Stats.add_def] at stats
  rw [stats_drop] at erases
  refine ⟨_, g, folds, o, unreached, swept, ?_, series, ?_, ?_, unmerged,
    fun empty => idle (empty_iff.mp empty), ?_⟩
  · rw [stats]
    exact erases
  · rw [stats]
    exact Nat.zero_add _
  · obtain ⟨chain, chained, same⟩ := series.chained_of_folds erases.chained
    refine ⟨chain, chained, fun i => ?_⟩
    have alone : g.OnChain (fun i => [i]) i ↔ g.contains i = true := by simp [OnChain]
    rw [same, alone, erases.contains_iff_reaches hf unreached]
  · rintro rfl nonempty
    exact fullyMerged_of_sweep hf (fun left => nonempty.ne_empty (empty_iff.mpr left)) swept

/-- A function in which a loop that nothing leads to keeps a block from being folded. -/
def sideLoop : Function where
  name := "f"
  params := [0]
  valueNames := ["k"]
  graph := Graph.ofBlocks
    [⟨"entry", [], .branch (.var 0) 3 5⟩, ⟨"low", [], .jump 2⟩, ⟨"end", [], .ret none⟩,
      ⟨"top", [⟨none, .call "g" []⟩], .jump 1⟩,
      ⟨"loop", [⟨none, .call "h" []⟩], .branch (.var 0) 1 4⟩, ⟨"exit", [], .ret none⟩]
  entry_live := rfl
  params_numbered := by decide

theorem sweep_removes_unreached_sideLoop :
    ∃ (S : Finset ℕ) (g : Function) (folds : List Move) (o : Outcome),
      S.card = 1 ∧ folds.length = 2 ∧
      (∀ i, i ∈ S ↔ sideLoop.contains i = true ∧ ¬ sideLoop.Reaches i) ∧
      sideLoop.sweep true = .ok o ∧ sideLoop.Erases g S { o.stats with blocksMerged := 0 } ∧
      g.Derives (fun _ m => ∃ i, m.FoldsInto i) folds o.func ∧ o.func.FullyMerged := by
  obtain ⟨S, g, folds, o, unreached, swept, erases, series, merges, _, _, _, merged⟩ :=
    sweep_removes_unreached (f := sideLoop) (by decide) true
  have evaluated : (sideLoop.sweep true).toOption.map Outcome.stats = some ⟨2, 1, 2, 0⟩ := by
    decide +kernel
  rw [swept] at evaluated
  have stats : o.stats = ⟨2, 1, 2, 0⟩ := Option.some.inj evaluated
  have card : S.card = 1 := by
    have counted := congrArg Stats.blocksEliminated erases.counted
    rw [stats] at counted
    exact counted.symm
  rw [stats] at merges
  exact ⟨S, g, folds, o, card, merges.symm, unreached, swept, erases, series,
    merged rfl (Finset.card_pos.mp (by omega))⟩

end Sweeping

end Function

end BranchTrim
