import BranchTrim.Proofs.Flow.Reach
import BranchTrim.Proofs.Prune.Steps
import BranchTrim.Prune.Sweep

/-!
The sweep on a consistent graph. Blocks that the entry does not reach may lead to each other,
so they are detached and then removed one by one; in the end this is a single move that drops
all of them.
-/

set_option autoImplicit false

namespace BranchTrim

namespace Function

variable {f : Function}

private def detached (b : Block) : Block :=
  { b with term := .ret none }

private theorem detach_returns (hf : f.graph.Consistent) {i : Nat} {b : Block}
    (found : f.graph.block? i = some b) :
    ∃ g, f.detach i = .ok g ∧ g.graph.Consistent ∧ f.Reshaped g fun j =>
      if i = j then some (detached b) else f.graph.block? j := by
  obtain ⟨g, set⟩ := setTerminator_returns found (.ret none)
    (by simp [Terminator.targets, Terminator.arms])
  obtain ⟨c, found', _, _, _, shape⟩ := setTerminator_shape set
  obtain rfl : b = c := Option.some.inj (found.symm.trans found')
  refine ⟨g, ?_, consistent_setTerminator hf set, shape⟩
  simp [detach, set]

private theorem detachAll_returns (hf : f.graph.Consistent) (ids : List Nat)
    (live : ∀ i ∈ ids, f.graph.contains i = true) :
    ∃ g, ids.foldlM detach f = .ok g ∧ g.graph.Consistent ∧ f.Reshaped g fun j =>
      if j ∈ ids then (f.graph.block? j).map detached else f.graph.block? j := by
  induction ids generalizing f with
  | nil => exact ⟨f, rfl, hf, rfl, rfl, rfl, fun j => by simp⟩
  | cons i ids ih =>
    obtain ⟨b, found⟩ := Graph.contains_iff.mp (live i List.mem_cons_self)
    obtain ⟨g, first, hg, shape⟩ := detach_returns hf found
    have still_live : ∀ j ∈ ids, g.graph.contains j = true := by
      intro j mem
      obtain ⟨c, found'⟩ := Graph.contains_iff.mp (live j (List.mem_cons_of_mem i mem))
      refine Graph.contains_iff.mpr ?_
      rw [shape.block?]
      split
      · exact ⟨_, rfl⟩
      · exact ⟨c, found'⟩
    obtain ⟨h, rest, hh, shape'⟩ := ih hg still_live
    refine ⟨h, by simp [List.foldlM_cons, first, rest], hh, ?_⟩
    have both := shape.trans shape'
    refine ⟨both.name, both.params, both.valueNames, fun j => ?_⟩
    rw [shape'.block?, shape.block?]
    by_cases at_i : i = j
    · subst at_i
      simp [found, detached]
    · simp [at_i, Ne.symm at_i]

private theorem removeOrphans_returns (hf : f.graph.Consistent) (blocks : List (Nat × Block))
    (found : ∀ entry ∈ blocks, f.graph.block? entry.1 = some entry.2)
    (nodup : (blocks.map Prod.fst).Nodup) (inner : f.entry ∉ blocks.map Prod.fst)
    (alone : ∀ i ∈ blocks.map Prod.fst, ∀ j, i ∉ f.graph.targets j) :
    ∃ o, Outcome.forEach removeOrphan (blocks.map Prod.fst) f = .ok o ∧
      o.func.graph.Consistent ∧
      o.stats = Stats.sum (blocks.map fun entry => .erased entry.2.size) ∧
      f.Reshaped o.func fun j => if j ∈ blocks.map Prod.fst then none else f.graph.block? j := by
  induction blocks generalizing f with
  | nil => exact ⟨_, rfl, hf, rfl, rfl, rfl, rfl, fun j => by simp [Outcome.unchanged]⟩
  | cons entry blocks ih =>
    obtain ⟨i, b⟩ := entry
    simp only [List.map_cons, List.nodup_cons, List.mem_cons, not_or] at nodup inner
    have i_found : f.graph.block? i = some b := found (i, b) List.mem_cons_self
    obtain ⟨g, removed⟩ := removeBlock_returns hf i_found (Ne.symm inner.1)
      (fun j leads => absurd leads (alone i (by simp) j))
    obtain ⟨_, _, _, hg, shape⟩ := removeBlock_shape hf removed
    have rest_found : ∀ entry ∈ blocks, g.graph.block? entry.1 = some entry.2 := by
      intro entry mem
      have other : i ≠ entry.1 := fun same => nodup.1 (same ▸ List.mem_map_of_mem mem)
      rw [shape.block?, if_neg other]
      exact found entry (List.mem_cons_of_mem _ mem)
    have rest_alone : ∀ k ∈ blocks.map Prod.fst, ∀ j, k ∉ g.graph.targets j := by
      intro k mem j leads
      obtain ⟨c, j_found, target⟩ := Graph.mem_targets.mp leads
      rw [shape.block?] at j_found
      split at j_found
      · cases j_found
      · exact alone k (List.mem_cons_of_mem i mem) j
          (Graph.mem_targets.mpr ⟨c, j_found, target⟩)
    obtain ⟨o, returned, ho, stats, shape'⟩ := ih hg rest_found nodup.2 inner.2 rest_alone
    refine ⟨o.after (.erased b.size) [.orphanRemoved b.name], ?_, ho, ?_, ?_⟩
    · simp [Outcome.forEach, removeOrphan, removed, Outcome.andThen, returned]
    · simp [Outcome.after, stats]
    · have both := shape.trans shape'
      refine ⟨both.name, both.params, both.valueNames, fun j => ?_⟩
      refine (shape'.block? j).trans ?_
      rw [shape.block?]
      by_cases at_i : i = j
      · simp [at_i]
      · have only_later : j ∈ ((i, b) :: blocks).map Prod.fst ↔ j ∈ blocks.map Prod.fst := by
          rw [List.map_cons, List.mem_cons]
          exact or_iff_right (Ne.symm at_i)
        simp only [only_later, if_neg at_i]

def orphanBlocks (f : Function) : List (Nat × Block) :=
  f.orphans.filterMap fun i => (f.graph.block? i).map (i, ·)

private theorem mem_orphanBlocks {entry : Nat × Block} :
    entry ∈ f.orphanBlocks ↔ entry.1 ∈ f.orphans ∧
      f.graph.block? entry.1 = some entry.2 := by
  obtain ⟨i, b⟩ := entry
  simp only [orphanBlocks, List.mem_filterMap, Option.map_eq_some_iff, Prod.mk.injEq]
  constructor
  · rintro ⟨j, mem, c, found, rfl, rfl⟩
    exact ⟨mem, found⟩
  · rintro ⟨mem, found⟩
    exact ⟨i, mem, b, found, rfl, rfl⟩

theorem map_fst_orphanBlocks (f : Function) : f.orphanBlocks.map Prod.fst = f.orphans := by
  have live : ∀ i ∈ f.orphans, ∃ b, f.graph.block? i = some b := by
    intro i mem
    exact Graph.contains_iff.mp ((f.graph.mem_ids i).mp (List.mem_filter.mp mem).1)
  unfold orphanBlocks
  generalize f.orphans = ids at live ⊢
  induction ids with
  | nil => rfl
  | cons i ids ih =>
    obtain ⟨b, found⟩ := live i List.mem_cons_self
    have rest := ih fun j mem => live j (List.mem_cons_of_mem i mem)
    simp [found, rest]

private theorem dropOrphans_returns (hf : f.graph.Consistent) (some_left : f.orphans ≠ []) :
    ∃ g o, f.orphans.foldlM detach f = .ok g ∧
      Outcome.forEach removeOrphan f.orphans g = .ok o ∧ o.func.graph.Consistent ∧
      f.Moves o.func (.drop f.orphanBlocks) ∧
      o.stats = (Move.drop f.orphanBlocks).stats := by
  have live : ∀ i ∈ f.orphans, f.graph.contains i = true :=
    fun i mem => ((mem_orphans_iff hf).mp mem).1
  obtain ⟨g, detaching, hg, shape⟩ := detachAll_returns hf f.orphans live
  let blocks := f.orphanBlocks.map fun entry => (entry.1, detached entry.2)
  have ids : blocks.map Prod.fst = f.orphans := by
    rw [List.map_map]
    exact map_fst_orphanBlocks f
  have found : ∀ entry ∈ blocks, g.graph.block? entry.1 = some entry.2 := by
    intro entry mem
    obtain ⟨⟨i, b⟩, listed, rfl⟩ := List.mem_map.mp mem
    obtain ⟨orphan, i_found⟩ := mem_orphanBlocks.mp listed
    rw [shape.block?, if_pos orphan, i_found, Option.map_some]
  -- Every block that led to an orphan was an orphan, and has been detached.
  have alone : ∀ i ∈ blocks.map Prod.fst, ∀ j, i ∉ g.graph.targets j := by
    intro i mem j leads
    rw [ids] at mem
    obtain ⟨c, j_found, target⟩ := Graph.mem_targets.mp leads
    rw [shape.block?] at j_found
    split at j_found
    · obtain ⟨b, _, rfl⟩ := Option.map_eq_some_iff.mp j_found
      simp [detached, Terminator.targets, Terminator.arms] at target
    · next reached =>
      exact reached (mem_orphans_of_leads hf mem (Graph.mem_targets.mpr ⟨c, j_found, target⟩))
  obtain ⟨o, removing, ho, stats, shape'⟩ := removeOrphans_returns hg blocks found
    (by rw [ids]; exact nodup_orphans f) (by rw [ids]; exact entry_not_mem_orphans hf) alone
  rw [ids] at removing shape'
  have nonempty : f.orphanBlocks ≠ [] := by
    intro empty
    exact some_left (by rw [← map_fst_orphanBlocks, empty]; rfl)
  refine ⟨g, o, detaching, removing, ho, ?_, ?_⟩
  · refine .drop nonempty (fun entry mem => (mem_orphanBlocks.mp mem).2) ?_ ?_ ?_ ?_
    · rw [map_fst_orphanBlocks]
      exact nodup_orphans f
    · rw [map_fst_orphanBlocks]
      exact entry_not_mem_orphans hf
    · rw [map_fst_orphanBlocks]
      exact fun t mem j leads => mem_orphans_of_leads hf mem leads
    · have both := shape.trans shape'
      refine ⟨both.name, both.params, both.valueNames, fun j => ?_⟩
      rw [map_fst_orphanBlocks, shape'.block?, shape.block?]
      split <;> simp [*]
  · rw [stats, Move.stats, List.map_map]
    rfl

theorem mergeFrom_returns (hf : f.graph.Consistent) (i : Nat) :
    ∃ o, f.mergeFrom i = .ok o ∧ o.DerivedFrom (fun _ m => m.FoldsInto i) f ∧
      ¬ o.func.IsHead i := by
  unfold mergeFrom
  split
  · next next target =>
    obtain ⟨b, found, jump⟩ := jumpTarget?_eq_some_iff.mp target
    exact mergeChain_returns hf found jump
  · next no_jump => exact ⟨_, rfl, .unchanged hf, not_isHead_of_jumpTarget? no_jump⟩

/-- The second half of the sweep: folding of the chains in what is left. -/
def mergeAll (merge : Bool) (f : Function) : Except Fault Outcome :=
  if merge then Outcome.forEach mergeFrom f.blockIds f else .ok (.unchanged f)

theorem mergeAll_returns (hf : f.graph.Consistent) (merge : Bool) :
    ∃ o, f.mergeAll merge = .ok o ∧ o.DerivedFrom (fun _ m => ∃ i, m.FoldsInto i) f := by
  unfold mergeAll
  split
  · refine Outcome.forEach_returns ?_ f.blockIds f hf
    intro g i hg
    obtain ⟨o, returned, derived, _⟩ := mergeFrom_returns hg i
    exact ⟨o, returned, derived.mono fun _ _ folds => ⟨i, folds⟩⟩
  · exact ⟨_, rfl, .unchanged hf⟩

theorem sweep_of_orphans_eq_nil (none_left : f.orphans = []) (merge : Bool) :
    f.sweep merge = .ok (.unchanged f) := by
  simp only [sweep, none_left]
  cases merge <;> rfl

/-- Where there is something to sweep, the sweep is a drop of all of it, and then folding. -/
theorem sweep_of_orphans_ne_nil (hf : f.graph.Consistent) (some_left : f.orphans ≠ [])
    (merge : Bool) :
    ∃ dropped folded : Outcome, f.Moves dropped.func (.drop f.orphanBlocks) ∧
      dropped.func.graph.Consistent ∧ dropped.stats = (Move.drop f.orphanBlocks).stats ∧
      dropped.func.mergeAll merge = .ok folded ∧
      f.sweep merge = .ok (folded.after dropped.stats dropped.log) := by
  obtain ⟨g, dropped, detaching, removing, hg, move, stats⟩ := dropOrphans_returns hf some_left
  obtain ⟨folded, returned, _⟩ := mergeAll_returns hg merge
  refine ⟨dropped, folded, move, hg, stats, returned, ?_⟩
  have nonempty : f.orphans.isEmpty = false := by
    simpa using some_left
  simp only [mergeAll] at returned
  simp only [sweep, detaching, removing, Outcome.andThen, nonempty, Bool.not_false, Bool.and_true,
    returned, ok_bind, pure_eq_ok]

theorem sweep_returns (hf : f.graph.Consistent) (merge : Bool) :
    ∃ o, f.sweep merge = .ok o ∧
      o.DerivedFrom (fun _ m => m.Drops ∨ ∃ i, m.FoldsInto i) f := by
  by_cases left : f.orphans = []
  · exact ⟨_, sweep_of_orphans_eq_nil left merge, .unchanged hf⟩
  · obtain ⟨dropped, folded, move, hg, stats, returned, swept⟩ :=
      sweep_of_orphans_ne_nil hf left merge
    have derived := of_returns returned (mergeAll_returns hg merge)
    refine ⟨_, swept, ?_⟩
    have counted : dropped.stats = Move.total [.drop f.orphanBlocks] := by
      simp [stats]
    rw [counted]
    exact (derived.mono fun _ _ => Or.inr).after (.single (Or.inl trivial) move)

end Function

end BranchTrim
