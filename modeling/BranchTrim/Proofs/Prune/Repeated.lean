import BranchTrim.Proofs.Prune.Accounts
import BranchTrim.Proofs.Prune.Course
import BranchTrim.Proofs.Prune.Idempotence
import BranchTrim.Proofs.Prune.Straightened
import BranchTrim.Proofs.Prune.Visits

/-!
Pruning again and again. The walk leaves no decided branch, so that a second run is idle unless the
sweep has folded blocks after the walk. Where it has, further runs may find work. But the sweep
alone can only have work in the first run, and each run after that which changes anything cuts a
branch: there are not more such runs than branches.
-/

set_option autoImplicit false

namespace BranchTrim

namespace Function

variable {f g : Function} {oracle : Oracle} {options : Options} {o : Outcome}

section Exhaustion

/-- No block ends with a comparison that ranges decide and a branch on its result. -/
def Exhausted (oracle : Oracle) (f : Function) : Prop :=
  ∀ i b cond whenTrue whenFalse pred lhs rhs, f.graph.block? i = some b →
    b.insts.getLast? = some ⟨some cond, .compare pred lhs rhs⟩ →
    b.term = .branch (.var cond) whenTrue whenFalse →
    Verdict.classify pred (oracle lhs f) (oracle rhs f) = .unknown

private theorem exhausted_of_undecided (undecided : ∀ i, f.decided? oracle i = none) :
    f.Exhausted oracle := by
  intro i b cond whenTrue whenFalse pred lhs rhs found last branch
  have not_excluded : (Verdict.classify pred (oracle lhs f) (oracle rhs f)).infeasible? = none := by
    simpa [decided?, branchComparison?, found, branch, last] using undecided i
  cases verdict : Verdict.classify pred (oracle lhs f) (oracle rhs f) with
  | unknown => rfl
  | alwaysTrue => simp [verdict, Verdict.infeasible?] at not_excluded
  | alwaysFalse => simp [verdict, Verdict.infeasible?] at not_excluded

private theorem undecided_of_prune (hf : f.graph.Consistent) (value : oracle.DependsOnValue)
    (apart : options.mergeBlocks = false ∨ options.sweepUnreachable = false)
    (h : f.prune oracle options = .ok o) (i : Nat) : o.func.decided? oracle i = none := by
  obtain ⟨o₁, o₂, walked, second, func, _⟩ := walk_and_sweep_of_prune h
  have exhausted := decided?_of_cutBranches hf value walked
  rw [func]
  rcases second with ⟨sweeping, swept⟩ | ⟨_, rfl⟩
  · have unmerged : options.mergeBlocks = false := by
      rcases apart with unmerged | unswept
      · exact unmerged
      · rw [sweeping] at unswept
        cases unswept
    have ho₁ := (of_returns walked (cutBranches_returns hf oracle options.mergeBlocks)).consistent
    rw [unmerged] at swept
    cases found : o₂.func.graph.block? i with
    | none => exact decided?_of_absent found
    | some b =>
      have kept := (sweep_unmerged ho₁ swept).1 i b found
      rw [decided?_congr value (found.trans kept.symm)]
      exact exhausted i
  · exact exhausted i

/--
One walk is exhaustive if nothing is folded after it. Pruning that does not merge, or that does
not sweep, leaves no branch that ranges decide, and a second run with the same ranges and
options changes nothing.
-/
theorem one_walk_exhausts (edges : f.verifyEdges = .ok ()) (value : oracle.DependsOnValue)
    (options : Options)
    (apart : options.mergeBlocks = false ∨ options.sweepUnreachable = false) :
    ((options.printAfterAll = true → f.Numbered) → ∃ first second,
      f.prune oracle options = .ok first ∧ first.func.prune oracle options = .ok second) ∧
    ∀ first, f.prune oracle options = .ok first → first.func.Exhausted oracle ∧
      ∀ second, first.func.prune oracle options = .ok second →
        second.stats = .zero ∧ second.func = first.func := by
  have hf := verifyEdges_eq_ok_iff.mp edges
  constructor
  · intro printable
    obtain ⟨first, pruned⟩ := prune_returns hf oracle options printable
    obtain ⟨hg, moves, series, _⟩ := derivedFrom_of_prune hf pruned
    obtain ⟨second, pruned'⟩ := prune_returns hg oracle options
      fun asked => series.numbered (printable asked)
    exact ⟨first, second, pruned, pruned'⟩
  · intro first pruned
    have hg := (derivedFrom_of_prune hf pruned).consistent
    have undecided := undecided_of_prune hf value apart pruned
    refine ⟨exhausted_of_undecided undecided, fun second pruned' => ?_⟩
    exact idle_of_undecided hg undecided (fun sweeping => allReached_of_prune hf sweeping pruned)
      pruned'

theorem one_walk_exhausts_strayLoop :
    ∃ first second,
      strayLoop.prune (RangeTable.ofList [(0, .singleton 3)]).oracle ⟨true, false, true, true⟩ =
        .ok first ∧
      first.func.prune (RangeTable.ofList [(0, .singleton 3)]).oracle
        ⟨true, false, true, true⟩ =
        .ok second ∧
      first.func.Exhausted (RangeTable.ofList [(0, .singleton 3)]).oracle ∧
      second.stats = .zero ∧ second.func = first.func := by
  obtain ⟨returns, idle⟩ := one_walk_exhausts (f := strayLoop) (by decide)
    (RangeTable.ofList [(0, .singleton 3)]).dependsOnValue
      ⟨true, false, true, true⟩ (Or.inr rfl)
  obtain ⟨first, second, pruned, pruned'⟩ := returns (by decide)
  obtain ⟨exhausted, again⟩ := idle first pruned
  exact ⟨first, second, pruned, pruned', exhausted, again second pruned'⟩

end Exhaustion

section Convergence

def pruneTimes (oracle : Oracle) (options : Options) : Nat → Function → Except Fault Function
  | 0, f => .ok f
  | n + 1, f => do pruneTimes oracle options n (← f.prune oracle options).func

private theorem pruneTimes_returns (hf : f.graph.Consistent) (oracle : Oracle) (options : Options)
    (printable : options.printAfterAll = true → f.Numbered) (n : Nat) :
    ∃ g, f.pruneTimes oracle options n = .ok g := by
  induction n generalizing f with
  | zero => exact ⟨f, rfl⟩
  | succ n ih =>
    obtain ⟨o, pruned⟩ := prune_returns hf oracle options printable
    obtain ⟨ho, moves, series, _⟩ := derivedFrom_of_prune hf pruned
    obtain ⟨g, times⟩ := ih ho fun asked => series.numbered (printable asked)
    refine ⟨g, ?_⟩
    simp only [pruneTimes, pruned, ok_bind]
    exact times

private theorem consistent_of_pruneTimes (hf : f.graph.Consistent) {n : Nat}
    (times : f.pruneTimes oracle options n = .ok g) : g.graph.Consistent := by
  induction n generalizing f with
  | zero =>
    cases times
    exact hf
  | succ n ih =>
    obtain ⟨o, pruned, rest⟩ := bind_eq_ok times
    exact ih (derivedFrom_of_prune hf pruned).consistent rest

private theorem pruneTimes_of_unchanged (pruned : f.prune oracle options = .ok o)
    (same : o.func = f) (n : Nat) : f.pruneTimes oracle options n = .ok f := by
  induction n with
  | zero => rfl
  | succ n ih =>
    simp only [pruneTimes, pruned, same, ok_bind]
    exact ih

private theorem stats_eq_zero_iff (hf : f.graph.Consistent) (h : f.prune oracle options = .ok o) :
    o.stats = .zero ↔ o.func = f := by
  have derived := derivedFrom_of_prune hf h
  constructor
  · exact derived.eq_of_stats_eq_zero
  · intro same
    obtain ⟨_, moves, series, counted⟩ := derived
    have accounts := series.accounts
    rw [← counted, same] at accounts
    obtain ⟨blocks, code, branches⟩ := accounts
    simp only [Stats.ext_iff, Stats.zero]
    omega

private theorem unchanged_or_fewer_of_walk (hf : f.graph.Consistent) {merge : Bool}
    (h : f.cutBranches oracle merge = .ok o) :
    o.func = f ∨ o.func.branchCount < f.branchCount := by
  refine cutBranches_keeps (fun g => g = f ∨ g.branchCount < f.branchCount) ?_ hf h (Or.inl rfl)
  intro g i o _ visited before
  rcases (visit_of_cutDecided visited).unchanged_or_fewer with same | fewer
  · rwa [same]
  · rcases before with rfl | fewer'
    · exact Or.inr fewer
    · exact Or.inr (Nat.lt_trans fewer fewer')

/-- Where nothing is left to be swept, pruning changes nothing or leaves fewer branches. -/
private theorem unchanged_or_fewer_of_prune (hf : f.graph.Consistent)
    (swept : options.sweepUnreachable = true → f.AllReached)
    (h : f.prune oracle options = .ok o) :
    o.func = f ∨ o.func.branchCount < f.branchCount := by
  obtain ⟨o₁, o₂, walked, second, func, _⟩ := walk_and_sweep_of_prune h
  have walk := unchanged_or_fewer_of_walk hf walked
  rw [func]
  rcases second with ⟨sweeping, sweep⟩ | ⟨_, rfl⟩
  · rcases walk with same | fewer
    · have none_left : o₁.func.orphans = [] := by
        rw [same]
        exact (orphans_eq_nil_iff hf).mpr (swept sweeping)
      rw [sweep_of_orphans_eq_nil none_left] at sweep
      cases sweep
      exact Or.inl same
    · have ho₁ :=
        (of_returns walked (cutBranches_returns hf oracle options.mergeBlocks)).consistent
      obtain ⟨_, moves, series, _⟩ := of_returns sweep (sweep_returns ho₁ options.mergeBlocks)
      have not_more := series.accounts.branches
      exact Or.inr (by omega)
  · exact walk

private theorem unchanged_of_pruneTimes (hf : f.graph.Consistent)
    (swept : options.sweepUnreachable = true → f.AllReached) {n : Nat}
    (enough : f.branchCount ≤ n) (times : f.pruneTimes oracle options n = .ok g)
    (again : g.prune oracle options = .ok o) :
    o.func = g := by
  -- Each run uses up one of the branches that are left, or is the last one to change anything.
  induction n generalizing f with
  | zero =>
    cases times
    rcases unchanged_or_fewer_of_prune hf swept again with same | fewer
    · exact same
    · omega
  | succ n ih =>
    obtain ⟨o₁, first, rest⟩ := bind_eq_ok times
    rcases unchanged_or_fewer_of_prune hf swept first with same | fewer
    · rw [same, pruneTimes_of_unchanged first same] at rest
      obtain rfl : f = g := Except.ok.inj rest
      obtain rfl : o₁ = o := Except.ok.inj (first.symm.trans again)
      exact same
    · have ho₁ := (derivedFrom_of_prune hf first).consistent
      exact ih ho₁ (fun sweeping => allReached_of_prune hf sweeping first) (by omega) rest

/--
Repeated runs converge, whatever the ranges are and even if they change with the function. A run
counts nothing exactly if it changes nothing, and once there have been more runs than the function
has branches, all further runs are such.
-/
theorem repeated_pruning_converges (edges : f.verifyEdges = .ok ()) (oracle : Oracle)
    (options : Options) :
    ((options.printAfterAll = true → f.Numbered) →
      ∀ n, ∃ g, f.pruneTimes oracle options n = .ok g) ∧
    (∀ o, f.prune oracle options = .ok o → (o.stats = .zero ↔ o.func = f)) ∧
    ∀ n g o, f.branchCount + 1 ≤ n → f.pruneTimes oracle options n = .ok g →
      g.prune oracle options = .ok o → o.stats = .zero ∧ o.func = g := by
  have hf := verifyEdges_eq_ok_iff.mp edges
  refine ⟨pruneTimes_returns hf oracle options, fun o => stats_eq_zero_iff hf, ?_⟩
  intro n g o enough times again
  obtain ⟨m, rfl⟩ : ∃ m, n = m + 1 := ⟨n - 1, by omega⟩
  obtain ⟨o₁, first, rest⟩ := bind_eq_ok times
  obtain ⟨ho₁, moves, series, _⟩ := derivedFrom_of_prune hf first
  have not_more := series.accounts.branches
  have same : o.func = g := unchanged_of_pruneTimes ho₁
    (fun sweeping => allReached_of_prune hf sweeping first) (by omega) rest again
  have hg := consistent_of_pruneTimes hf times
  exact ⟨(stats_eq_zero_iff hg again).mpr same, same⟩

theorem repeated_pruning_converges_strayLoop :
    strayLoop.branchCount = 3 ∧ ∃ g o, strayLoop.pruneTimes shifting .default 4 = .ok g ∧
      g.prune shifting .default = .ok o ∧ o.stats = .zero ∧ o.func = g := by
  obtain ⟨returns, _, settled⟩ :=
    repeated_pruning_converges (f := strayLoop) (by decide) shifting
    .default
  have branches : strayLoop.branchCount = 3 := by decide
  obtain ⟨g, times⟩ := returns (by decide) 4
  have hg := consistent_of_pruneTimes (verifyEdges_eq_ok_iff.mp (by decide)) times
  obtain ⟨o, again⟩ := prune_returns hg shifting .default (by simp [Options.default])
  exact ⟨branches, g, o, times, again, settled 4 g o (by omega) times again⟩

end Convergence

end Function

end BranchTrim
