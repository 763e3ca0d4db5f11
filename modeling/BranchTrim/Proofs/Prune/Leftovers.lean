import BranchTrim.Proofs.Prune.Idempotence
import BranchTrim.Proofs.Prune.Visits
import Mathlib.Data.Fintype.EquivFin

/-!
What a cut leaves behind if nothing is swept. A cut removes the blocks that lose their last edge,
one after the other, and so it leaves no block without an edge into it. A block that the entry no
longer reaches can then be left for one reason only: there is a cycle of such blocks before it.
Where the function has no cycles, the sweep has nothing to do.
-/

set_option autoImplicit false

namespace BranchTrim

namespace Stage

variable {oracle : Oracle} {options : Options} {stage : Stage} {f : Function} {o : Outcome}

private theorem printing_of_run (h : stage.run oracle options f = .ok o)
    (enabled : stage.isEnabled options = true) (stage' : Stage) :
    ∃ log, stage'.printing options o.func = .ok log := by
  unfold run at h
  rw [if_pos enabled] at h
  obtain ⟨o', _, h⟩ := bind_eq_ok h
  obtain ⟨_, _, h⟩ := bind_eq_ok h
  obtain ⟨_, printed, h⟩ := bind_eq_ok h
  cases h
  show ∃ log, stage'.printing options o'.func = .ok log
  unfold printing at printed ⊢
  split
  · next asked =>
    rw [if_pos asked] at printed
    obtain ⟨text, printed, _⟩ := bind_eq_ok printed
    rw [printed]
    exact ⟨_, rfl⟩
  · exact ⟨_, rfl⟩

private theorem run_orphans_of_unswept (oracle : Oracle)
    (unswept : options.sweepUnreachable = false) (f : Function) :
    ∃ log, Stage.orphans.run oracle options f = .ok ⟨f, .zero, log⟩ := by
  unfold run isEnabled
  rw [unswept]
  exact ⟨_, rfl⟩

private theorem run_orphans_of_allReached (oracle : Oracle)
    (sweeping : options.sweepUnreachable = true) (hf : f.graph.Consistent) (all : f.AllReached)
    {printed : List Event} (printing : Stage.orphans.printing options f = .ok printed) :
    ∃ log, Stage.orphans.run oracle options f = .ok ⟨f, .zero, log⟩ := by
  have idle : Stage.orphans.work oracle options f = .ok (.unchanged f) :=
    Function.sweep_of_orphans_eq_nil ((Function.orphans_eq_nil_iff hf).mpr all) _
  unfold run isEnabled
  rw [sweeping, idle]
  refine ⟨.stageStarted .orphans :: [] ++ .blocksLeft f.blockCount :: printed, ?_⟩
  simp [Outcome.unchanged, check_returns hf, printing]

end Stage

namespace Function

variable {f g : Function} {oracle : Oracle} {options : Options} {o : Outcome} {i j k : Nat}

section Feeding

/-- An edge leads to every block but the entry. -/
def Fed (f : Function) : Prop :=
  ∀ i, f.graph.contains i = true → i ≠ f.entry → ∃ j, i ∈ f.graph.targets j

private theorem AllReached.fed (all : f.AllReached) : f.Fed := by
  intro i live inner
  rcases Relation.ReflTransGen.cases_tail (all i live) with here | ⟨j, _, leads⟩
  · exact absurd here inner
  · exact ⟨j, leads⟩

private theorem Fed.predecessors_ne_nil (fed : f.Fed) (hf : f.graph.Consistent)
    (live : f.contains i = true) (inner : i ≠ f.entry) : f.predecessors i ≠ [] := by
  obtain ⟨j, leads⟩ := fed i live inner
  exact List.ne_nil_of_mem (hf.mem_sources.mpr leads)

private theorem fed_of_removeDeadAmong {stack : List Nat} (hf : f.graph.Consistent)
    (waiting : ∀ i, f.graph.contains i = true → i ≠ f.entry →
      (∃ j, i ∈ f.graph.targets j) ∨ i ∈ stack)
    (h : f.removeDeadAmong stack = .ok o) : o.func.Fed := by
  -- The blocks that may have lost their last edge are on the stack.
  fun_induction removeDeadAmong f stack generalizing o with
  | case1 f =>
    cases h
    intro i live inner
    exact (waiting i live inner).resolve_right List.not_mem_nil
  | case2 => cases h
  | case3 f i stack dead b g removed ih =>
    obtain ⟨o', rest, h⟩ := bind_eq_ok h
    cases h
    show o'.func.Fed
    obtain ⟨found, _, _, hg, shape⟩ := removeBlock_shape hf removed
    have elsewhere : ∀ j, i ≠ j → g.graph.block? j = f.graph.block? j := by
      intro j other
      rw [shape.block?, if_neg other]
    refine ih hg ?_ rest
    intro k live inner
    have other : i ≠ k := by
      rintro rfl
      obtain ⟨c, there⟩ := Graph.contains_iff.mp live
      rw [shape.block?, if_pos rfl] at there
      cases there
    rcases waiting k ((moves_removeBlock hf removed).contains live) inner with ⟨j, leads⟩ | mem
    · by_cases at_i : i = j
      · right
        rw [← at_i, Graph.targets_of_block? found] at leads
        simp [leads, Ne.symm other]
      · left
        exact ⟨j, by rwa [Graph.targets_congr (elsewhere j at_i)]⟩
    · right
      rcases List.mem_cons.mp mem with rfl | mem
      · exact absurd rfl other
      · exact List.mem_append_right _ mem
  | case4 f i stack alive ih =>
    refine ih hf ?_ h
    intro k live inner
    rcases waiting k live inner with leads | mem
    · exact Or.inl leads
    · rcases List.mem_cons.mp mem with rfl | mem
      · left
        by_contra unfed
        apply alive
        refine (isDead_iff hf).mpr ⟨Graph.contains_iff.mp live, inner, ?_⟩
        exact fun j leads => absurd ⟨j, leads⟩ unfed
      · exact Or.inr mem

private theorem Fed.fold {head next : Nat} {p b : Block} (fed : f.Fed)
    (fold : f.Foldable head next p b) (shape : f.Reshaped g (f.foldedBlocks head next p b)) :
    g.Fed := by
  intro i live inner
  obtain ⟨c, found⟩ := Graph.contains_iff.mp live
  have ne_next := ne_next_of_found shape found
  obtain ⟨j, leads⟩ := fed i ((Moves.fold fold shape).contains live) inner
  have ne_head : j ≠ head := by
    rintro rfl
    exact ne_next (fold.mem_targets_head.mp leads)
  refine ⟨foldImage head next j, (mem_targets_fold_iff fold shape ne_next).mpr ?_⟩
  rw [foldSource_foldImage ne_head]
  exact ⟨foldImage_ne_next fold.next_ne_head, leads⟩

private theorem Fed.folds {merge : Bool} {moves : List Move} (fed : f.Fed)
    (series : f.Derives (fun _ m => merge = true ∧ m.FoldsInto i) moves g) : g.Fed := by
  induction series with
  | refl => exact fed
  | step permitted move _ ih =>
    cases move with
    | cut => cases permitted.2
    | drop => cases permitted.2
    | fold fold shape => exact ih (fed.fold fold shape)

private theorem Fed.cut {infeasible merge : Bool} (fed : f.Fed) (hf : f.graph.Consistent)
    (cutting : f.cut i infeasible merge = .ok o) : o.func.Fed := by
  obtain ⟨b, cond, whenTrue, whenFalse, found, branch⟩ := branch_of_cut cutting
  obtain ⟨g, dead, removed, last, log, move, hg, others, removing, folded, _, returned⟩ :=
    cut_stages hf found branch infeasible merge
  obtain rfl := Except.ok.inj (returned.symm.trans cutting)
  have swept : removed.func.Fed := by
    refine fed_of_removeDeadAmong hg ?_ removing
    intro k live inner
    obtain ⟨j, leads⟩ := fed k (move.contains live) inner
    rcases others j k leads with still | rfl
    · exact Or.inl ⟨j, still⟩
    · exact Or.inr (List.mem_singleton.mpr rfl)
  obtain ⟨moves, series, _⟩ := folded.moves
  exact swept.folds series

private theorem Fed.visit {merge : Bool} (fed : f.Fed) (visit : Visit oracle merge i f g)
    (hf : f.graph.Consistent) : g.Fed := by
  induction visit with
  | leave => exact fed
  | cut _ cutting _ ih => exact ih (fed.cut hf cutting) (consistent_cut hf cutting)

private theorem Fed.cutBranches {merge : Bool} (fed : f.Fed) (hf : f.graph.Consistent)
    (h : f.cutBranches oracle merge = .ok o) : o.func.Fed := by
  refine cutBranches_keeps Fed ?_ hf h fed
  intro g i o hg visited fed
  exact fed.visit (visit_of_cutDecided visited) hg

end Feeding

section Cycles

def OrphanEdge (f : Function) (i j : Nat) : Prop :=
  j ∈ f.graph.targets i ∧ ¬ f.Reaches i ∧ ¬ f.Reaches j

def Acyclic (f : Function) : Prop :=
  ∀ i, ¬ Relation.TransGen (fun i j => j ∈ f.graph.targets i) i i

private theorem Fed.exists_orphanEdge (fed : f.Fed) (live : f.graph.contains i = true)
    (unreached : ¬ f.Reaches i) : ∃ j, f.OrphanEdge j i := by
  have inner : i ≠ f.entry := by
    rintro rfl
    exact unreached f.reaches_entry
  obtain ⟨j, leads⟩ := fed i live inner
  exact ⟨j, leads, fun path => unreached (path.step leads), unreached⟩

/-- Before every block that the entry does not reach, there is a cycle of such blocks. -/
private theorem Fed.exists_cycle (fed : f.Fed) (hf : f.graph.Consistent)
    (live : f.graph.contains i = true) (unreached : ¬ f.Reaches i) :
    ∃ c, Relation.TransGen f.OrphanEdge c c ∧ f.graph.Leads c i := by
  by_contra acyclic
  push Not at acyclic
  -- Without a cycle, one of the finitely many orphans before the block would be the first.
  let Before := { j // j ∈ f.orphans ∧ f.graph.Leads j i }
  have finite : Finite Before := by
    refine Finite.of_injective (fun j : Before => (⟨j.1, j.2.1⟩ : { j // j ∈ f.orphans })) ?_
    exact fun j k same => Subtype.ext (congrArg (·.1) same)
  have wellFounded : WellFounded fun j k : Before => Relation.TransGen f.OrphanEdge j.1 k.1 := by
    have : IsTrans Before fun j k => Relation.TransGen f.OrphanEdge j.1 k.1 :=
      ⟨fun _ _ _ => Relation.TransGen.trans⟩
    have : Std.Irrefl fun j k : Before => Relation.TransGen f.OrphanEdge j.1 k.1 :=
      ⟨fun j cycle => acyclic j.1 cycle j.2.2⟩
    exact Finite.wellFounded_of_trans_of_irrefl _
  have none_first : ∀ j : Before, False := by
    intro j
    induction j using wellFounded.induction with
    | h j ih =>
      obtain ⟨j, orphan, path⟩ := j
      obtain ⟨there, unreached'⟩ := (mem_orphans_iff hf).mp orphan
      obtain ⟨k, edge⟩ := fed.exists_orphanEdge there unreached'
      exact ih ⟨k, mem_orphans_of_leads hf orphan edge.1, .head edge.1 path⟩ (.single edge)
  exact none_first ⟨i, (mem_orphans_iff hf).mpr ⟨live, unreached⟩, .refl⟩

private theorem Fed.allReached (fed : f.Fed) (hf : f.graph.Consistent) (acyclic : f.Acyclic) :
    f.AllReached := by
  intro i live
  by_contra unreached
  obtain ⟨c, cycle, _⟩ := fed.exists_cycle hf live unreached
  exact acyclic c (Relation.TransGen.mono (fun _ _ edge => edge.1) c c cycle)

/-- An edge after a move was there before, or leads on through the block that the move folds. -/
theorem Moves.edge {m : Move} (move : f.Moves g m) (leads : k ∈ g.graph.targets j) :
    k ∈ f.graph.targets j ∨ ∃ next, m = .fold j next ∧ g.graph.block? next = none ∧
      next ∈ f.graph.targets j ∧ k ∈ f.graph.targets next := by
  cases move with
  | @cut i infeasible b cond whenTrue whenFalse found branch shape =>
    left
    by_cases at_i : i = j
    · subst at_i
      rw [Graph.targets_of_block? (by rw [shape.block?, if_pos rfl])] at leads
      rw [Graph.targets_of_block? found, branch]
      cases infeasible <;> simp_all [Terminator.targets, Terminator.arms]
    · have same : g.graph.block? j = f.graph.block? j := by
        rw [shape.block?, if_neg at_i]
      rwa [Graph.targets_congr same] at leads
  | drop _ _ _ _ _ shape =>
    left
    obtain ⟨b, found, mem⟩ := Graph.mem_targets.mp leads
    rw [shape.block?] at found
    split at found
    · cases found
    · exact Graph.mem_targets.mpr ⟨b, found, mem⟩
  | @fold head next p b fold shape =>
    obtain ⟨c, found, _⟩ := Graph.mem_targets.mp leads
    by_cases at_head : j = head
    · right
      subst at_head
      rw [fold.targets_head shape] at leads
      exact ⟨next, rfl, shape.block?_folded, fold.mem_targets_head.mpr rfl, leads⟩
    · left
      have ne_next := ne_next_of_found shape found
      rwa [Graph.targets_congr (shape.block?_unfolded ne_next at_head)] at leads

private theorem Moves.path_of_edge {m : Move} (move : f.Moves g m)
    (leads : k ∈ g.graph.targets j) :
    Relation.TransGen (fun i j => j ∈ f.graph.targets i) j k := by
  rcases move.edge leads with direct | ⟨next, _, _, first, second⟩
  · exact .single direct
  · exact .head first (.single second)

private theorem Acyclic.derives {allowed : Function → Move → Prop} {moves : List Move}
    (acyclic : f.Acyclic) (series : f.Derives allowed moves g) : g.Acyclic := by
  induction series with
  | refl => exact acyclic
  | step _ move _ ih =>
    refine ih fun i cycle => acyclic i ?_
    exact Relation.TransGen.closed (fun _ _ => move.path_of_edge) i i cycle

private theorem acyclic_of_forward
    (forward : ∀ i ∈ f.blockIds, ∀ t ∈ f.graph.targets i, i < t) :
    f.Acyclic := by
  have upwards : ∀ i j, Relation.TransGen (fun i j => j ∈ f.graph.targets i) i j → i < j := by
    intro i j path
    have step : ∀ i t, t ∈ f.graph.targets i → i < t := fun i t leads =>
      forward i ((f.graph.mem_ids i).mpr (Graph.contains_of_mem_targets leads)) t leads
    induction path with
    | single leads => exact step _ _ leads
    | tail _ leads ih => exact Nat.lt_trans ih (step _ _ leads)
  exact fun i cycle => Nat.lt_irrefl i (upwards i i cycle)

end Cycles

section Sweeping

private theorem prune_of_stages {cut : Outcome} {stats : Stats} {log : List Event}
    (first : Stage.branches.run oracle options f = .ok cut)
    (second : Stage.orphans.run oracle options cut.func = .ok ⟨g, stats, log⟩) :
    ∃ log', f.prune oracle options = .ok ⟨g, cut.stats + stats, log'⟩ := by
  simp only [prune, first, Outcome.andThen, second, ok_bind, pure_eq_ok]
  exact ⟨_, rfl⟩

private theorem prune_of_unswept (hf : f.graph.Consistent)
    (unswept : options.sweepUnreachable = false) (h : f.prune oracle options = .ok o)
    (all : o.func.AllReached) :
    ∃ o', f.prune oracle { options with sweepUnreachable := true } = .ok o' ∧
      o'.func = o.func ∧ o'.stats = o.stats := by
  obtain ⟨cut, first, _⟩ := bind_eq_ok h
  obtain ⟨log, skipped⟩ := Stage.run_orphans_of_unswept oracle unswept cut.func
  obtain ⟨log, same⟩ := prune_of_stages first skipped
  obtain rfl : ⟨cut.func, cut.stats + .zero, log⟩ = o := Except.ok.inj (same.symm.trans h)
  have ho := (derivedFrom_of_prune hf h).consistent
  -- The first stage takes no notice of whether there is to be a sweep.
  let sweeping : Options := { options with sweepUnreachable := true }
  have first' : Stage.branches.run oracle sweeping f = .ok cut := first
  obtain ⟨printed, printing⟩ := Stage.printing_of_run first' rfl .orphans
  obtain ⟨log', idle⟩ := Stage.run_orphans_of_allReached oracle rfl ho all printing
  obtain ⟨log', swept⟩ := prune_of_stages first' idle
  exact ⟨_, swept, rfl, rfl⟩

/--
Counting predecessors finds what the entry does not reach, up to cycles. Pruning without the sweep
leaves an edge into every block but the entry, and a cycle of unreached blocks before every
unreached one. If the function has no cycles, the result has no unreached blocks, and the sweep
would not change it.
-/
theorem leftovers_hang_on_cycles (checked : f.verify = .ok ()) (oracle : Oracle)
    (options : Options) (unswept : options.sweepUnreachable = false) :
    ((options.printAfterAll = true → f.Numbered) → ∃ o, f.prune oracle options = .ok o) ∧
    ∀ o, f.prune oracle options = .ok o →
      (∀ i, o.func.contains i = true → i ≠ o.func.entry → o.func.predecessors i ≠ []) ∧
      (∀ i, o.func.contains i = true → ¬ o.func.Reaches i →
        ∃ c, Relation.TransGen o.func.OrphanEdge c c ∧ o.func.graph.Leads c i) ∧
      (f.Acyclic → o.func.verify = .ok () ∧
        ∃ o', f.prune oracle { options with sweepUnreachable := true } = .ok o' ∧
          o'.func = o.func ∧ o'.stats = o.stats) := by
  obtain ⟨hf, all⟩ := verify_eq_ok_iff.mp checked
  refine ⟨prune_returns hf oracle options, fun o pruned => ?_⟩
  obtain ⟨ho, moves, series, _⟩ := derivedFrom_of_prune hf pruned
  have fed : o.func.Fed := by
    obtain ⟨o₁, o₂, walked, second, func, _⟩ := walk_and_sweep_of_prune pruned
    have walk : o₁.func.Fed := (AllReached.fed all).cutBranches hf walked
    rcases second with ⟨sweeping, _⟩ | ⟨_, rfl⟩
    · rw [unswept] at sweeping
      cases sweeping
    · rwa [func]
  refine ⟨fun i => fed.predecessors_ne_nil ho, fun i => fed.exists_cycle ho, fun acyclic => ?_⟩
  have all' := fed.allReached ho (acyclic.derives series)
  exact ⟨verify_eq_ok_iff.mpr ⟨ho, all'⟩, prune_of_unswept hf unswept pruned all'⟩

/-- A function that joins its ways only where a branch that ranges decide joins them, too. -/
def lateJoin : Function where
  name := "f"
  params := [0, 1]
  valueNames := ["x", "c", "k"]
  graph := Graph.ofBlocks
    [⟨"entry", [], .branch (.var 1) 1 2⟩, ⟨"a", [], .jump 3⟩,
      ⟨"i", [⟨some 2, .compare .slt (.var 0) (.const 10)⟩], .branch (.var 2) 4 3⟩,
      ⟨"n", [], .ret (some (.const 2))⟩, ⟨"o", [], .ret (some (.const 1))⟩]
  entry_live := rfl
  params_numbered := by decide

theorem leftovers_hang_on_cycles_detour :
    (∃ o, detour.prune shortRange.oracle ⟨true, false, true, true⟩ = .ok o ∧
      o.func.contains 1 = true ∧ ¬ o.func.Reaches 1 ∧
      ∃ c, Relation.TransGen o.func.OrphanEdge c c ∧ o.func.graph.Leads c 1) ∧
    ∃ o o', lateJoin.prune shortRange.oracle ⟨true, false, true, true⟩ = .ok o ∧
      o.func.verify = .ok () ∧
      lateJoin.prune shortRange.oracle ⟨true, true, true, true⟩ = .ok o' ∧
      o'.func = o.func ∧ o'.stats = o.stats := by
  constructor
  · obtain ⟨returns, leaves⟩ := leftovers_hang_on_cycles (f := detour) (by decide +kernel)
      shortRange.oracle ⟨true, false, true, true⟩ rfl
    obtain ⟨o, pruned⟩ := returns (by decide)
    have orphans : (detour.prune shortRange.oracle ⟨true, false, true, true⟩).toOption.map
        (fun o => o.func.orphans) = some [1, 2] := by decide +kernel
    rw [pruned] at orphans
    have orphans : o.func.orphans = [1, 2] := Option.some.inj orphans
    have edges : detour.verifyEdges = .ok () := by decide
    have ho := (derivedFrom_of_prune (verifyEdges_eq_ok_iff.mp edges) pruned).consistent
    obtain ⟨live, unreached⟩ :=
      (mem_orphans_iff ho).mp (by simp [orphans] : 1 ∈ o.func.orphans)
    exact ⟨o, pruned, live, unreached, (leaves o pruned).2.1 1 live unreached⟩
  · obtain ⟨returns, leaves⟩ := leftovers_hang_on_cycles (f := lateJoin) (by decide +kernel)
      shortRange.oracle ⟨true, false, true, true⟩ rfl
    obtain ⟨o, pruned⟩ := returns (by decide)
    obtain ⟨checked, o', swept, same⟩ :=
      (leaves o pruned).2.2 (acyclic_of_forward (by decide))
    exact ⟨o, o', pruned, checked, swept, same⟩

end Sweeping

end Function

end BranchTrim
