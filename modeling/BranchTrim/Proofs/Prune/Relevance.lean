import BranchTrim.Proofs.Prune.Behaviour
import BranchTrim.Proofs.Prune.Definitions

/-!
What pruning takes notice of. Ranges are asked for where a block compares two values, and neither
cutting nor folding makes a comparison that was not there before. So two oracles that agree on the
values which a function compares prune it in the same way. Checks and printing after the stages
leave no trace in what is pruned.
-/

set_option autoImplicit false

namespace BranchTrim

def Inst.compared (inst : Inst) : List Value :=
  match inst.op with
  | .compare _ lhs rhs => [lhs, rhs]
  | _ => []

private theorem Outcome.forEach_congr (holds : Function → Prop)
    {step step' : Function → Nat → Except Fault Outcome}
    (same : ∀ g i, holds g → step g i = step' g i)
    (keeps : ∀ g i o, holds g → step g i = .ok o → holds o.func) {f : Function}
    (start : holds f) (ids : List Nat) : forEach step ids f = forEach step' ids f := by
  induction ids generalizing f with
  | nil => rfl
  | cons i ids ih =>
    rw [forEach, forEach, ← same f i start]
    cases first : step f i with
    | error fault => rfl
    | ok o =>
      show o.andThen (forEach step ids) = o.andThen (forEach step' ids)
      rw [andThen, andThen, ih (keeps f i o start first)]

private theorem Stage.effect_congr {options options' : Options}
    (merging : options.mergeBlocks = options'.mergeBlocks)
    (sweeping : options.sweepUnreachable = options'.sweepUnreachable) (oracle : Oracle)
    (stage : Stage) : stage.effect oracle options = stage.effect oracle options' := by
  have enabled : stage.isEnabled options = stage.isEnabled options' := by
    cases stage with
    | branches => rfl
    | orphans => exact sweeping
  have work : stage.work oracle options = stage.work oracle options' := by
    cases stage with
    | branches => exact congrArg (Function.cutBranches oracle) merging
    | orphans => exact congrArg Function.sweep merging
  funext f
  rw [effect, effect, enabled, work]

namespace Function

variable {f g : Function} {oracle oracle' : Oracle} {options options' : Options} {merge : Bool}

def comparedValues (f : Function) : List Value :=
  (f.blocks.flatMap Block.insts).flatMap Inst.compared

/-- Two oracles give the same ranges for the values that a function compares. -/
def AgreeOn (oracle oracle' : Oracle) (f : Function) : Prop :=
  ∀ v ∈ f.comparedValues, oracle v f = oracle' v f

instance : Decidable (f.AgreeOn oracle oracle') :=
  inferInstanceAs (Decidable (∀ v ∈ f.comparedValues, _))

private theorem Remains.comparedValues (remains : f.Remains g) :
    g.comparedValues ⊆ f.comparedValues := by
  intro v mem
  obtain ⟨inst, listed, compared⟩ := List.mem_flatMap.mp mem
  exact List.mem_flatMap.mpr ⟨inst, remains.insts.subset listed, compared⟩

private theorem AgreeOn.remains (agree : f.AgreeOn oracle oracle') (value : oracle.DependsOnValue)
    (value' : oracle'.DependsOnValue) (remains : f.Remains g) : g.AgreeOn oracle oracle' := by
  intro v mem
  calc oracle v g = oracle v f := value v g f
    _ = oracle' v f := agree v (remains.comparedValues mem)
    _ = oracle' v g := value' v f g

private theorem mem_comparedValues_of_branchComparison? {i : Nat} {pred : Predicate}
    {lhs rhs : Value} (compares : f.branchComparison? i = some (pred, lhs, rhs)) :
    lhs ∈ f.comparedValues ∧ rhs ∈ f.comparedValues := by
  obtain ⟨b, cond, _, _, found, _, last⟩ := branchComparison?_eq_some compares
  have listed : ⟨some cond, .compare pred lhs rhs⟩ ∈ f.blocks.flatMap Block.insts :=
    List.mem_flatMap.mpr ⟨b, f.mem_blocks.mpr ⟨i, found⟩, List.mem_of_getLast? last⟩
  have every : ∀ v ∈ [lhs, rhs], v ∈ f.comparedValues := fun v operand =>
    List.mem_flatMap.mpr ⟨_, listed, operand⟩
  exact ⟨every lhs (by simp), every rhs (by simp)⟩

private theorem cutDecided_congr (value : oracle.DependsOnValue) (value' : oracle'.DependsOnValue)
    (hf : f.graph.Consistent) (agree : f.AgreeOn oracle oracle') (merge : Bool) (i : Nat) :
    cutDecided oracle merge f i = cutDecided oracle' merge f i := by
  fun_induction cutDecided oracle merge f i with
  | case1 f absent =>
    rw [cutDecided]
    simp only [absent]
  | case2 f pred lhs rhs compares lhsRange rhsRange verdict ih =>
    obtain ⟨left, right⟩ := mem_comparedValues_of_branchComparison? compares
    have lhs_same : lhsRange = oracle' lhs f := agree lhs left
    have rhs_same : rhsRange = oracle' rhs f := agree rhs right
    rw [cutDecided.eq_def oracle']
    simp only [compares, ← lhs_same, ← rhs_same]
    refine bind_congr fun name => ?_
    cases verdict.infeasible? with
    | none => rfl
    | some infeasible =>
      dsimp only
      split
      · rfl
      · next o cutting =>
        obtain ⟨ho, _, series, _⟩ := derivedFrom_of_cut hf cutting
        rw [ih infeasible o cutting ho (agree.remains value value' series.remains)]

private theorem cutBranches_congr (value : oracle.DependsOnValue) (value' : oracle'.DependsOnValue)
    (hf : f.graph.Consistent) (agree : f.AgreeOn oracle oracle') (merge : Bool) :
    f.cutBranches oracle merge = f.cutBranches oracle' merge := by
  let holds (g : Function) : Prop := g.graph.Consistent ∧ g.AgreeOn oracle oracle'
  refine Outcome.forEach_congr holds ?_ ?_ ⟨hf, agree⟩ f.blockIds
  · rintro g i ⟨hg, agree⟩
    exact cutDecided_congr value value' hg agree merge i
  · rintro g i o ⟨hg, agree⟩ visited
    obtain ⟨⟨ho, _, series, _⟩, _⟩ :=
      of_returns visited (cutDecided_returns hg oracle merge i)
    exact ⟨ho, agree.remains value value' series.remains⟩

/-- Pruning is the same under oracles that agree on the compared values, down to its log. -/
private theorem prune_congr (value : oracle.DependsOnValue) (value' : oracle'.DependsOnValue)
    (hf : f.graph.Consistent) (agree : f.AgreeOn oracle oracle') (options : Options) :
    f.prune oracle options = f.prune oracle' options := by
  have walk : Stage.branches.run oracle options f = Stage.branches.run oracle' options f := by
    simp only [Stage.run, Stage.work, cutBranches_congr value value' hf agree]
  have sweep : Stage.orphans.run oracle options = Stage.orphans.run oracle' options := rfl
  simp only [prune, walk, sweep]

private theorem same_of_prune {o o' : Outcome}
    (merging : options.mergeBlocks = options'.mergeBlocks)
    (sweeping : options.sweepUnreachable = options'.sweepUnreachable)
    (pruned : f.prune oracle options = .ok o) (pruned' : f.prune oracle options' = .ok o') :
    o'.stats = o.stats ∧ o'.func = o.func := by
  obtain ⟨o₁, o₂, walked, swept, func, stats⟩ := effects_of_prune pruned
  obtain ⟨o₁', o₂', walked', swept', func', stats'⟩ := effects_of_prune pruned'
  rw [← Stage.effect_congr merging sweeping] at walked' swept'
  obtain rfl : o₁ = o₁' := Except.ok.inj (walked.symm.trans walked')
  obtain rfl : o₂ = o₂' := Except.ok.inj (swept.symm.trans swept')
  exact ⟨stats'.trans stats.symm, func'.trans func.symm⟩

/--
Only the ranges of compared values matter. Two oracles that agree on the operands of the
comparisons of a function, and options that differ in checks and printing only, give the same
statistics and the same function.
-/
theorem pruning_reads_compared_ranges (edges : f.verifyEdges = .ok ()) (numbered : f.Numbered)
    (value : oracle.DependsOnValue) (value' : oracle'.DependsOnValue)
    (agree : f.AgreeOn oracle oracle') (merging : options.mergeBlocks = options'.mergeBlocks)
    (sweeping : options.sweepUnreachable = options'.sweepUnreachable) :
    ∃ o o', f.prune oracle options = .ok o ∧ f.prune oracle' options' = .ok o' ∧
      o'.stats = o.stats ∧ o'.func = o.func := by
  have hf := verifyEdges_eq_ok_iff.mp edges
  obtain ⟨o, pruned⟩ := prune_returns hf oracle options fun _ => numbered
  obtain ⟨o', pruned'⟩ := prune_returns hf oracle' options' fun _ => numbered
  refine ⟨o, o', pruned, pruned', same_of_prune merging sweeping ?_ pruned'⟩
  rw [← prune_congr value value' hf agree, pruned]

/-- Notes ranges also for values that are branched on or computed, but never compared. -/
def idleRanges : RangeTable :=
  ⟨shortRange.entries ++ [(1, ⟨7, 7, by decide⟩), (3, ⟨-1, 0, by decide⟩)]⟩

theorem pruning_reads_compared_ranges_detour :
    shortRange.oracle (.var 3) detour ≠ idleRanges.oracle (.var 3) detour ∧
    ∃ o o', detour.prune shortRange.oracle ⟨true, true, false, false⟩ = .ok o ∧
      detour.prune idleRanges.oracle ⟨true, true, true, true⟩ = .ok o' ∧
      o'.stats = o.stats ∧ o'.func = o.func :=
  ⟨by decide, pruning_reads_compared_ranges (by decide) (by decide) shortRange.dependsOnValue
    idleRanges.dependsOnValue (by decide) rfl rfl⟩

end Function

end BranchTrim
