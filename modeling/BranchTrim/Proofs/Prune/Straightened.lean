import BranchTrim.Proofs.Prune.Pipeline
import BranchTrim.Proofs.Prune.Swept

/-!
Pruning without merging, seen as one step. The walk cuts one branch at a time and removes blocks in
between, so that blocks may be gone before their turn. In the end this is the same as turning all
decided branches into jumps at once and keeping what the entry then reaches: at any time the blocks
left are old ones or straightened ones, and no straightened block leads to one that is gone.
-/

set_option autoImplicit false

namespace BranchTrim

namespace Block

/-- The target of the branch that ends a block for the only outcome that ranges leave to
its last comparison. -/
def feasible? (ranges : Value → Range) (b : Block) : Option Nat :=
  match b.term, b.insts.getLast? with
  | .branch (.var cond) whenTrue whenFalse, some ⟨some result, .compare pred lhs rhs⟩ =>
    if result = cond then
      match Verdict.classify pred (ranges lhs) (ranges rhs) with
      | .alwaysTrue => some whenTrue
      | .alwaysFalse => some whenFalse
      | .unknown => none
    else none
  | _, _ => none

def straightened (ranges : Value → Range) (b : Block) : Block :=
  match b.feasible? ranges with
  | some target => { b with term := .jump target }
  | none => b

end Block

namespace Graph

variable {g : Graph} {change : Block → Block}

/-- The places of the terminators with the blocks that they end, once all blocks are changed. -/
def changedEdges (g : Graph) (change : Block → Block) : List Edge :=
  g.ids.flatMap fun i => ((g.block? i).map change).toList.flatMap fun b =>
    b.term.arms.map fun (arm, target) => ⟨i, arm, target⟩

private theorem blockIn_map (cells : List (Option Block)) (change : Block → Block) (i : Nat) :
    blockIn (cells.map (Option.map change)) i = (blockIn cells i).map change := by
  unfold blockIn
  rw [List.getElem?_map]
  rcases cells[i]? with _ | _ | b <;> rfl

private theorem mem_holes_map (g : Graph) (change : Block → Block) (i : Nat) :
    i ∈ g.holes ↔ (g.cells.map (Option.map change))[i]? = some none := by
  rw [g.mem_holes, List.getElem?_map]
  rcases g.cells[i]? with _ | _ | b <;> simp

private theorem live_of_mem_changedEdges (g : Graph) (change : Block → Block) (e : Edge)
    (mem : e ∈ (g.changedEdges change).filter fun e => g.contains e.source &&
      g.contains e.target) :
    (blockIn (g.cells.map (Option.map change)) e.source).isSome ∧
      (blockIn (g.cells.map (Option.map change)) e.target).isSome := by
  have live := (List.mem_filter.mp mem).2
  simpa [blockIn_map, contains, block?] using live

def mapBlocks (g : Graph) (change : Block → Block) : Graph where
  cells := g.cells.map (Option.map change)
  holes := g.holes
  edges := (g.changedEdges change).filter fun e => g.contains e.source && g.contains e.target
  mem_holes := g.mem_holes_map change
  nodup_holes := g.nodup_holes
  edges_live := g.live_of_mem_changedEdges change

@[simp]
theorem block?_mapBlocks (g : Graph) (change : Block → Block) (i : Nat) :
    (g.mapBlocks change).block? i = (g.block? i).map change :=
  blockIn_map g.cells change i

@[simp]
theorem contains_mapBlocks (g : Graph) (change : Block → Block) (i : Nat) :
    (g.mapBlocks change).contains i = g.contains i := by
  simp [contains]

private theorem mem_changedEdges {e : Edge} :
    e ∈ g.changedEdges change ↔ (e.arm, e.target) ∈ (g.mapBlocks change).arms e.source := by
  simp only [changedEdges, arms, block?_mapBlocks, List.mem_flatMap, List.mem_map, Prod.exists,
    Option.mem_toList]
  constructor
  · rintro ⟨i, _, b, changed, arm, target, place, rfl⟩
    have changed : (g.block? i).map change = some b := changed
    simpa [changed] using place
  · intro place
    cases changed : (g.block? e.source).map change with
    | none => simp [changed] at place
    | some b =>
      obtain ⟨a, found, _⟩ := Option.map_eq_some_iff.mp changed
      have listed : e.source ∈ g.ids := (g.mem_ids _).mpr (contains_of_block? found)
      refine ⟨e.source, listed, b, changed, e.arm, e.target, ?_, rfl⟩
      simpa [changed] using place

private theorem nodup_changedEdges (g : Graph) (change : Block → Block) :
    (g.changedEdges change).Nodup := by
  have ids : g.ids.Nodup := List.nodup_range.filter _
  refine List.nodup_flatMap.mpr ⟨?_, ids.imp ?_⟩
  · intro i _
    cases (g.block? i).map change with
    | none => exact List.nodup_nil
    | some b =>
      simp only [Option.toList_some, List.flatMap_singleton]
      refine b.term.nodup_arms.map ?_
      rintro ⟨arm, target⟩ ⟨arm', target'⟩ same
      simpa using same
  · intro i j differ e left right
    obtain ⟨_, _, from_left⟩ := List.mem_flatMap.mp left
    obtain ⟨_, _, from_right⟩ := List.mem_flatMap.mp right
    obtain ⟨_, _, rfl⟩ := List.mem_map.mp from_left
    obtain ⟨_, _, same⟩ := List.mem_map.mp from_right
    exact differ (congrArg Edge.source same).symm

private theorem Consistent.mapBlocks (hg : g.Consistent)
    (within : ∀ b, ∀ t ∈ (change b).term.targets, t ∈ b.term.targets) :
    (g.mapBlocks change).Consistent := by
  refine ⟨(g.nodup_changedEdges change).filter _, fun e => ?_⟩
  rw [← mem_changedEdges]
  refine ⟨fun mem => (List.mem_filter.mp mem).1, fun mem => List.mem_filter.mpr ⟨mem, ?_⟩⟩
  have leads : e.target ∈ (g.mapBlocks change).targets e.source :=
    mem_targets_iff_arm.mpr ⟨e.arm, mem_changedEdges.mp mem⟩
  obtain ⟨b, changed, target⟩ := mem_targets.mp leads
  rw [block?_mapBlocks] at changed
  obtain ⟨a, found, rfl⟩ := Option.map_eq_some_iff.mp changed
  have led : e.target ∈ g.targets e.source := mem_targets.mpr ⟨a, found, within a _ target⟩
  exact Bool.and_eq_true_iff.mpr ⟨contains_of_block? found, hg.contains_target led⟩

end Graph

namespace Block

variable {ranges : Value → Range} {b : Block} {target : Nat}

private theorem feasible?_eq_some (decided : b.feasible? ranges = some target) :
    ∃ cond whenTrue whenFalse pred lhs rhs, b.term = .branch (.var cond) whenTrue whenFalse ∧
      b.insts.getLast? = some ⟨some cond, .compare pred lhs rhs⟩ ∧
      (Verdict.classify pred (ranges lhs) (ranges rhs) = .alwaysTrue ∧ target = whenTrue ∨
        Verdict.classify pred (ranges lhs) (ranges rhs) = .alwaysFalse ∧ target = whenFalse) := by
  unfold feasible? at decided
  split at decided
  · next cond whenTrue whenFalse result pred lhs rhs term last =>
    split at decided
    · next same =>
      subst same
      refine ⟨result, whenTrue, whenFalse, pred, lhs, rhs, term, last, ?_⟩
      split at decided
      · next always => exact Or.inl ⟨always, (Option.some.inj decided).symm⟩
      · next never => exact Or.inr ⟨never, (Option.some.inj decided).symm⟩
      · cases decided
    · cases decided
  · cases decided

private theorem straightened_eq_self {cond : Value} {whenTrue whenFalse : Nat}
    (branch : (b.straightened ranges).term = .branch cond whenTrue whenFalse) :
    b.straightened ranges = b := by
  unfold straightened at branch ⊢
  split at branch
  · cases branch
  · rfl

private theorem targets_straightened (ranges : Value → Range) (b : Block) :
    ∀ t ∈ (b.straightened ranges).term.targets, t ∈ b.term.targets := by
  intro t mem
  unfold straightened at mem
  split at mem
  · next target decided =>
    obtain ⟨_, whenTrue, whenFalse, _, _, _, branch, _, kept⟩ := feasible?_eq_some decided
    obtain rfl : t = target := by simpa [Terminator.targets, Terminator.arms] using mem
    have one_of : t = whenTrue ∨ t = whenFalse := kept.imp And.right And.right
    simpa [branch, Terminator.targets, Terminator.arms] using one_of
  · exact mem

end Block

namespace Function

variable {f g : Function} {oracle : Oracle} {i : Nat}

private theorem entry_live_mapBlocks (f : Function) (change : Block → Block) :
    (f.graph.mapBlocks change).contains 0 = true := by
  rw [Graph.contains_mapBlocks]
  exact f.entry_live

def straightened (oracle : Oracle) (f : Function) : Function :=
  { f with
    graph := f.graph.mapBlocks (Block.straightened fun v => oracle v f)
    entry_live := f.entry_live_mapBlocks _ }

private theorem block?_straightened (oracle : Oracle) (f : Function) (i : Nat) :
    (f.straightened oracle).graph.block? i =
      (f.graph.block? i).map (Block.straightened fun v => oracle v f) :=
  Graph.block?_mapBlocks f.graph _ i

private theorem consistent_straightened (hf : f.graph.Consistent) (oracle : Oracle) :
    (f.straightened oracle).graph.Consistent :=
  hf.mapBlocks (Block.targets_straightened _)

section Decided

variable {b : Block}

private theorem straightened_of_decided? {cond : Value} {whenTrue whenFalse : Nat}
    {infeasible : Bool} (found : f.graph.block? i = some b)
    (branch : b.term = .branch cond whenTrue whenFalse)
    (decided : f.decided? oracle i = some infeasible) :
    b.straightened (fun v => oracle v f) =
      { b with term := .jump (if infeasible then whenFalse else whenTrue) } := by
  obtain ⟨pred, lhs, rhs, compares, excluded⟩ := decided?_eq_some decided
  obtain ⟨c, cond', _, _, found', branch', last⟩ := branchComparison?_eq_some compares
  obtain rfl : b = c := Option.some.inj (found.symm.trans found')
  obtain ⟨rfl, rfl, rfl⟩ := Terminator.branch.inj (branch.symm.trans branch')
  have kept : b.feasible? (fun v => oracle v f) =
      some (if infeasible then whenFalse else whenTrue) := by
    simp only [Block.feasible?, branch, last, if_true]
    cases verdict : Verdict.classify pred (oracle lhs f) (oracle rhs f) <;>
      simp_all [Verdict.infeasible?]
  simp only [Block.straightened, kept]

private theorem straightened_of_undecided (found : f.graph.block? i = some b)
    (undecided : f.decided? oracle i = none) : b.straightened (fun v => oracle v f) = b := by
  unfold Block.straightened
  split
  · next target feasible =>
    obtain ⟨cond, _, _, pred, lhs, rhs, branch, last, verdict⟩ :=
      Block.feasible?_eq_some feasible
    rcases verdict with ⟨always, _⟩ | ⟨never, _⟩ <;>
      simp_all [decided?, branchComparison?, Verdict.infeasible?]
  · rfl

private theorem straightened_congr (value : oracle.DependsOnValue) (f g : Function) (b : Block) :
    b.straightened (fun v => oracle v f) = b.straightened fun v => oracle v g := by
  have same : (fun v => oracle v f) = fun v => oracle v g := funext fun v => value v f g
  rw [same]

end Decided

section Walk

/-- Some blocks are gone, and those that are left are as they were or straightened. -/
def Straightening (oracle : Oracle) (f g : Function) : Prop :=
  ∀ i b, g.graph.block? i = some b →
    ∃ a, f.graph.block? i = some a ∧ (b = a ∨ b = a.straightened fun v => oracle v f)

def CutsOrDrops (oracle : Oracle) (f : Function) (m : Move) : Prop :=
  m.Drops ∨ ∃ i infeasible, m = .cut i infeasible ∧ f.decided? oracle i = some infeasible

private theorem Straightening.move {h : Function} {m : Move} (value : oracle.DependsOnValue)
    (partly : Straightening oracle f g) (permitted : CutsOrDrops oracle g m) (move : g.Moves h m) :
    Straightening oracle f h := by
  intro j c found
  cases move with
  | @cut i infeasible b _ _ _ b_found branch shape =>
    rw [shape.block?] at found
    split at found
    · next at_i =>
      subst at_i
      cases found
      obtain drops | ⟨_, _, same, decided⟩ := permitted
      · cases drops
      cases same
      obtain ⟨a, a_found, as_before⟩ := partly i b b_found
      have old : b = a := by
        rcases as_before with same | same
        · exact same
        · exact same.trans (Block.straightened_eq_self (same ▸ branch))
      subst old
      refine ⟨b, a_found, Or.inr ?_⟩
      rw [straightened_congr value f g, straightened_of_decided? b_found branch decided]
    · exact partly j c found
  | drop _ _ _ _ _ shape =>
    rw [shape.block?] at found
    split at found
    · cases found
    · exact partly j c found
  | fold =>
    obtain drops | ⟨_, _, same, _⟩ := permitted
    · cases drops
    · cases same

private theorem Derives.straightening {moves : List Move} (value : oracle.DependsOnValue)
    (series : f.Derives (CutsOrDrops oracle) moves g) : Straightening oracle f g := by
  have along : ∀ {f₁ moves g}, Derives (CutsOrDrops oracle) f₁ moves g →
      Straightening oracle f f₁ → Straightening oracle f g := by
    intro f₁ moves g series partly
    induction series with
    | refl => exact partly
    | step permitted move _ ih => exact ih (partly.move value permitted move)
  exact along series fun i b found => ⟨b, found, Or.inl rfl⟩

private theorem block?_of_cutBranches (hf : f.graph.Consistent) (value : oracle.DependsOnValue)
    {o : Outcome} (h : f.cutBranches oracle false = .ok o) {b : Block}
    (found : o.func.graph.block? i = some b) :
    (f.straightened oracle).graph.block? i = some b := by
  have returns : ∃ o, f.cutBranches oracle false = .ok o ∧
      o.DerivedFrom (CutsOrDrops oracle) f := by
    refine Outcome.forEach_returns ?_ f.blockIds f hf
    intro g i hg
    obtain ⟨o, returned, derived, _⟩ :=
      cutDecided_derives hg oracle false i (CutsOrDrops oracle)
      (fun _ infeasible decided => Or.inr ⟨i, infeasible, rfl, decided⟩)
        (fun _ _ => Or.inl) nofun
    exact ⟨o, returned, derived⟩
  obtain ⟨_, moves, series, _⟩ := of_returns h returns
  obtain ⟨a, a_found, same | same⟩ := series.straightening value i b found
  · have undecided := decided?_of_cutBranches hf value h i
    have unchanged := straightened_of_undecided found undecided
    rw [block?_straightened, a_found, Option.map_some, ← same, straightened_congr value f o.func,
      unchanged]
  · rw [block?_straightened, a_found, Option.map_some, same]

-- No straightened block that the entry reaches is missing: a consistent graph has the targets of
-- the blocks it has.
private theorem agree_of_straightened (hg : g.graph.Consistent)
    (straight : ∀ i b, g.graph.block? i = some b →
      (f.straightened oracle).graph.block? i = some b) :
    ∀ i, (f.straightened oracle).Reaches i →
      g.graph.block? i = (f.straightened oracle).graph.block? i := by
  intro i path
  have live : g.graph.contains i = true := by
    induction path with
    | refl => exact g.entry_live
    | @tail j t _ leads ih =>
      obtain ⟨b, found⟩ := Graph.contains_iff.mp ih
      have same : (f.straightened oracle).graph.block? j = g.graph.block? j :=
        (straight j b found).trans found.symm
      exact hg.contains_target (by rwa [Graph.targets_congr same] at leads)
  obtain ⟨b, found⟩ := Graph.contains_iff.mp live
  exact found.trans (straight i b found).symm

end Walk

section Pruning

variable {options : Options} {o : Outcome}

theorem sweep_unmerged (hf : f.graph.Consistent) (h : f.sweep false = .ok o) :
    (∀ i b, o.func.graph.block? i = some b → f.graph.block? i = some b) ∧
      o.func.AllReached := by
  by_cases left : f.orphans = []
  · rw [sweep_of_orphans_eq_nil left] at h
    cases h
    exact ⟨fun _ _ found => found, (orphans_eq_nil_iff hf).mp left⟩
  · obtain ⟨dropped, folded, move, _, _, merged, swept⟩ :=
      sweep_of_orphans_ne_nil hf left false
    rw [swept] at h
    cases h
    cases merged
    refine ⟨fun i b found => ?_, (agree_of_drop hf move).2⟩
    cases move with
    | drop _ _ _ _ _ shape =>
      rw [Outcome.after, Outcome.unchanged, shape.block?] at found
      split at found
      · cases found
      · exact found

private theorem straight_of_prune (hf : f.graph.Consistent) (value : oracle.DependsOnValue)
    (unmerged : options.mergeBlocks = false) (h : f.prune oracle options = .ok o) :
    (∀ i b, o.func.graph.block? i = some b →
      (f.straightened oracle).graph.block? i = some b) ∧
      (options.sweepUnreachable = true → o.func.AllReached) := by
  obtain ⟨o₁, o₂, walked, second, func, _⟩ := walk_and_sweep_of_prune h
  have derived := of_returns walked (cutBranches_returns hf oracle options.mergeBlocks)
  rw [unmerged] at walked second
  rw [func]
  rcases second with ⟨_, swept⟩ | ⟨idle, rfl⟩
  · obtain ⟨kept, all⟩ := sweep_unmerged derived.consistent swept
    exact ⟨fun i b found => block?_of_cutBranches hf value walked (kept i b found),
      fun _ => all⟩
  · exact ⟨fun i b found => block?_of_cutBranches hf value walked found, by simp [idle]⟩

/--
Pruning without merging, as one step. Every block that is left is one of the function in which all
decided branches have become jumps at once, and none that the entry reaches there is missing; with
the sweep on there are no others.
-/
theorem unmerged_prune_straightens (edges : f.verifyEdges = .ok ())
    (value : oracle.DependsOnValue) (options : Options) (unmerged : options.mergeBlocks = false) :
    (f.straightened oracle).verifyEdges = .ok () ∧
    ((options.printAfterAll = true → f.Numbered) → ∃ o, f.prune oracle options = .ok o) ∧
    ∀ o, f.prune oracle options = .ok o →
      (o.func.name = f.name ∧ o.func.params = f.params ∧ o.func.valueNames = f.valueNames) ∧
      (∀ i, (f.straightened oracle).Reaches i →
        o.func.graph.block? i = (f.straightened oracle).graph.block? i) ∧
      (∀ i b, o.func.graph.block? i = some b →
        (f.straightened oracle).graph.block? i = some b) ∧
      (∀ i, o.func.Reaches i ↔ (f.straightened oracle).Reaches i) ∧
      (options.sweepUnreachable = true →
        ∀ i, o.func.contains i = true ↔ (f.straightened oracle).Reaches i) := by
  have hf := verifyEdges_eq_ok_iff.mp edges
  refine ⟨verifyEdges_eq_ok_iff.mpr (consistent_straightened hf oracle),
    prune_returns hf oracle options, fun o pruned => ?_⟩
  obtain ⟨ho, _, series, _⟩ := derivedFrom_of_prune hf pruned
  obtain ⟨straight, swept⟩ := straight_of_prune hf value unmerged pruned
  have agree := agree_of_straightened ho straight
  have reaches : ∀ i, o.func.Reaches i ↔ (f.straightened oracle).Reaches i :=
    fun i => reaches_iff_of_agree agree
  refine ⟨series.fields, agree, straight, reaches, fun sweeping i => ⟨?_, ?_⟩⟩
  · exact fun live => (reaches i).mp (swept sweeping i live)
  · exact fun path => ((reaches i).mpr path).contains ho

theorem unmerged_prune_straightens_strayLoop :
    ∃ o, strayLoop.prune (RangeTable.ofList [(0, .singleton 3)]).oracle
        ⟨false, true, true, true⟩ = .ok o ∧
      ∀ i, o.func.contains i = true ↔
        (strayLoop.straightened (RangeTable.ofList [(0, .singleton 3)]).oracle).Reaches i := by
  obtain ⟨_, returns, straight⟩ := unmerged_prune_straightens (f := strayLoop) (by decide)
    (RangeTable.ofList [(0, .singleton 3)]).dependsOnValue ⟨false, true, true, true⟩ rfl
  obtain ⟨o, pruned⟩ := returns (by decide)
  obtain ⟨_, _, _, _, exactly⟩ := straight o pruned
  exact ⟨o, pruned, exactly rfl⟩

end Pruning

end Function

end BranchTrim
