import BranchTrim.Proofs.Prune.Pipeline
import Mathlib.Algebra.GroupWithZero.Nat

/-!
What the statistics account for. A move trades a few blocks for others and leaves the rest of the
function alone, so a number that is summed over the blocks changes by what was traded. The
statistics of pruning are sums of such changes: every block, instruction and branch that is gone has
been counted once.
-/

set_option autoImplicit false

namespace BranchTrim

private theorem Graph.count_eq_countP (p : Block → Bool) (g : Graph) :
    g.count p = (g.ids.filterMap g.block?).countP p := by
  have cell : ∀ c : Option Block, Option.any p c = (c.map p).getD false := by
    intro c
    cases c <;> rfl
  rw [filterMap_block?_ids, List.countP_filterMap, count]
  exact List.countP_congr fun c _ => by rw [cell c, id]

/-- A move puts new blocks into the place of old ones. -/
inductive Move.Trades : Move → List Block → List Block → Prop
  | cut {i : Nat} {infeasible : Bool} (b : Block) (kept : Nat) (branch : b.term.isBranch = true) :
      Trades (.cut i infeasible) [b] [{ b with term := .jump kept }]
  | drop (blocks : List (Nat × Block)) : Trades (.drop blocks) (blocks.map Prod.snd) []
  | fold {head next : Nat} (p b : Block) (jump : p.term = .jump next) :
      Trades (.fold head next) [p, b] [⟨p.name, p.insts ++ b.insts, b.term⟩]

namespace Function

variable {f g h : Function} {m : Move} {moves : List Move} {s t : Stats}

/-- The number of instructions in all blocks, with one terminator for each. -/
def codeSize (f : Function) : Nat :=
  (f.blocks.map Block.size).sum

private theorem blockCount_eq_length (f : Function) : f.blockCount = f.blocks.length := by
  rw [blockCount, Graph.count_eq_countP]
  exact congrFun List.countP_true _

private theorem branchCount_eq_countP (f : Function) :
    f.branchCount = f.blocks.countP fun b => b.term.isBranch :=
  Graph.count_eq_countP _ f.graph

section Census

private theorem blocks_perm {ids : List Nat} (nodup : ids.Nodup)
    (live : ∀ i, i ∈ ids ↔ f.graph.contains i = true) :
    f.blocks.Perm (ids.filterMap f.graph.block?) := by
  have same : f.blockIds.Perm ids := by
    apply (List.perm_ext_iff_of_nodup f.nodup_blockIds nodup).mpr
    intro i
    rw [live]
    exact f.graph.mem_ids i
  exact same.filterMap _

def otherIds (f : Function) (i : Nat) : List Nat :=
  f.blockIds.filter (· ≠ i)

private theorem mem_otherIds {i j : Nat} :
    j ∈ f.otherIds i ↔ f.graph.contains j = true ∧ j ≠ i := by
  simp [otherIds, blockIds, Graph.mem_ids]

private theorem nodup_cons_otherIds (f : Function) (i : Nat) : (i :: f.otherIds i).Nodup := by
  apply List.nodup_cons.mpr
  constructor
  · intro mem
    exact (mem_otherIds.mp mem).2 rfl
  · exact f.nodup_blockIds.filter _

private theorem blocks_perm_cons {i : Nat} {b : Block} (found : f.graph.block? i = some b) :
    f.blocks.Perm (b :: (f.otherIds i).filterMap f.graph.block?) := by
  have live : f.graph.contains i = true := Graph.contains_of_block? found
  have listed : ∀ j, j ∈ i :: f.otherIds i ↔ f.graph.contains j = true := by
    intro j
    rw [List.mem_cons, mem_otherIds]
    by_cases same : j = i
    · simp [same, live]
    · simp [same]
  have perm := blocks_perm (f.nodup_cons_otherIds i) listed
  rwa [List.filterMap_cons_some found] at perm

private theorem filterMap_otherIds {i : Nat}
    (same : ∀ j, j ≠ i → g.graph.block? j = f.graph.block? j) :
    ((g.otherIds i).filterMap g.graph.block?).Perm ((f.otherIds i).filterMap f.graph.block?) := by
  have ids : (g.otherIds i).Perm (f.otherIds i) := by
    apply (List.perm_ext_iff_of_nodup (g.nodup_cons_otherIds i).of_cons
      (f.nodup_cons_otherIds i).of_cons).mpr
    intro j
    rw [mem_otherIds, mem_otherIds]
    refine and_congr_left fun other => ?_
    rw [Graph.contains, Graph.contains, same j other]
  have blocks : (f.otherIds i).filterMap g.graph.block? = (f.otherIds i).filterMap f.graph.block? :=
    List.filterMap_congr fun j mem => same j (mem_otherIds.mp mem).2
  rw [← blocks]
  exact ids.filterMap _

private theorem perm_of_cut {i kept : Nat} {b : Block} (found : f.graph.block? i = some b)
    (shape : f.Reshaped g fun j =>
      if i = j then some { b with term := .jump kept } else f.graph.block? j) :
    ∃ others, f.blocks.Perm (b :: others) ∧
      g.blocks.Perm ({ b with term := .jump kept } :: others) := by
  have found' : g.graph.block? i = some { b with term := .jump kept } := by
    rw [shape.block?, if_pos rfl]
  have elsewhere : ∀ j, j ≠ i → g.graph.block? j = f.graph.block? j := by
    intro j other
    rw [shape.block?, if_neg other.symm]
  have beside := filterMap_otherIds elsewhere
  exact ⟨_, blocks_perm_cons found, (blocks_perm_cons found').trans (beside.cons _)⟩

private theorem perm_of_drop {blocks : List (Nat × Block)}
    (found : ∀ entry ∈ blocks, f.graph.block? entry.1 = some entry.2)
    (nodup : (blocks.map Prod.fst).Nodup)
    (shape : f.Reshaped g fun j => if j ∈ blocks.map Prod.fst then none else f.graph.block? j) :
    f.blocks.Perm (blocks.map Prod.snd ++ g.blocks) := by
  have stays : ∀ j, g.graph.contains j = true → j ∉ blocks.map Prod.fst := by
    intro j live dropped
    rw [Graph.contains, shape.block?, if_pos dropped] at live
    cases live
  have kept : ∀ j, j ∉ blocks.map Prod.fst → g.graph.block? j = f.graph.block? j := by
    intro j outside
    rw [shape.block?, if_neg outside]
  have gone : ∀ j, j ∈ blocks.map Prod.fst → f.graph.contains j = true := by
    intro j dropped
    obtain ⟨entry, mem, rfl⟩ := List.mem_map.mp dropped
    exact Graph.contains_of_block? (found entry mem)
  have once : (blocks.map Prod.fst ++ g.blockIds).Nodup := by
    refine List.nodup_append.mpr ⟨nodup, g.nodup_blockIds, ?_⟩
    rintro j dropped k listed rfl
    exact stays j ((g.graph.mem_ids j).mp listed) dropped
  have live : ∀ j, j ∈ blocks.map Prod.fst ++ g.blockIds ↔ f.graph.contains j = true := by
    intro j
    rw [List.mem_append, blockIds, Graph.mem_ids]
    by_cases dropped : j ∈ blocks.map Prod.fst
    · simp only [dropped, true_or, gone j dropped]
    · simp only [dropped, false_or, Graph.contains, kept j dropped]
  have perm := blocks_perm once live
  have first : (blocks.map Prod.fst).filterMap f.graph.block? = blocks.map Prod.snd := by
    rw [List.filterMap_map, ← List.filterMap_eq_map]
    exact List.filterMap_congr fun entry mem => found entry mem
  have second : g.blockIds.filterMap f.graph.block? = g.blocks :=
    List.filterMap_congr fun j mem => (kept j (stays j ((g.graph.mem_ids j).mp mem))).symm
  rwa [List.filterMap_append, first, second] at perm

private theorem perm_of_fold {head next : Nat} {p b : Block} (fold : f.Foldable head next p b)
    (shape : f.Reshaped g (f.foldedBlocks head next p b)) :
    ∃ others, f.blocks.Perm (p :: b :: others) ∧
      g.blocks.Perm (⟨p.name, p.insts ++ b.insts, b.term⟩ :: others) := by
  -- Without the folded block, the function differs from the new one at the head only.
  have live : ∀ j, j ∈ next :: head :: (g.otherIds head) ↔ f.graph.contains j = true := by
    intro j
    simp only [List.mem_cons, mem_otherIds]
    by_cases at_next : j = next
    · simp [at_next, Graph.contains_of_block? fold.next_found]
    by_cases at_head : j = head
    · simp [at_head, Graph.contains_of_block? fold.head_found]
    · simp [at_next, at_head, Graph.contains, shape.block?_unfolded at_next at_head]
  have once : (next :: head :: (g.otherIds head)).Nodup := by
    refine List.nodup_cons.mpr ⟨?_, g.nodup_cons_otherIds head⟩
    intro mem
    rcases List.mem_cons.mp mem with same | mem
    · exact fold.next_ne_head same
    · have there := (mem_otherIds.mp mem).1
      rw [Graph.contains, shape.block?_folded] at there
      cases there
  have before := blocks_perm once live
  rw [List.filterMap_cons_some fold.next_found, List.filterMap_cons_some fold.head_found] at before
  have beside : (g.otherIds head).filterMap f.graph.block? =
      (g.otherIds head).filterMap g.graph.block? := by
    refine List.filterMap_congr fun j mem => ?_
    obtain ⟨there, ne_head⟩ := mem_otherIds.mp mem
    have ne_next : j ≠ next := by
      rintro rfl
      rw [Graph.contains, shape.block?_folded] at there
      cases there
    exact (shape.block?_unfolded ne_next ne_head).symm
  rw [beside] at before
  exact ⟨_, before.trans (.swap p b _), blocks_perm_cons (fold.block?_head shape)⟩

theorem Moves.census (move : f.Moves g m) :
    ∃ old new others, m.Trades old new ∧ f.blocks.Perm (old ++ others) ∧
      g.blocks.Perm (new ++ others) := by
  cases move with
  | cut found branch shape =>
    obtain ⟨others, before, after⟩ := perm_of_cut found shape
    exact ⟨_, _, others, .cut _ _ (by rw [branch]; rfl), before, after⟩
  | drop _ found nodup _ _ shape =>
    exact ⟨_, _, g.blocks, .drop _, perm_of_drop found nodup shape, List.Perm.refl _⟩
  | fold fold shape =>
    obtain ⟨others, before, after⟩ := perm_of_fold fold shape
    exact ⟨_, _, others, .fold _ _ fold.jump, before, after⟩

end Census

/-- What is in the first function and not in the second one is what the statistics count. -/
structure Accounts (f g : Function) (s : Stats) : Prop where
  blocks : f.blockCount = g.blockCount + s.blocksEliminated + s.blocksMerged
  code : f.codeSize = g.codeSize + s.instsEliminated + s.blocksMerged
  branches : g.branchCount + s.branchesPruned ≤ f.branchCount

private theorem Accounts.refl (f : Function) : f.Accounts f .zero :=
  ⟨rfl, rfl, Nat.le_refl _⟩

private theorem Accounts.trans (first : f.Accounts g s) (second : g.Accounts h t) :
    f.Accounts h (s + t) := by
  obtain ⟨blocks, code, branches⟩ := first
  obtain ⟨blocks', code', branches'⟩ := second
  simp only [Stats.add_def]
  constructor
  · simp only
    omega
  · simp only
    omega
  · simp only
    omega

private theorem accounts_of_trade {old new others : List Block}
    (before : f.blocks.Perm (old ++ others))
    (after : g.blocks.Perm (new ++ others))
    (blocks : old.length = new.length + s.blocksEliminated + s.blocksMerged)
    (code : (old.map Block.size).sum = (new.map Block.size).sum + s.instsEliminated +
      s.blocksMerged)
    (branches : (new.countP fun b => b.term.isBranch) + s.branchesPruned ≤
      old.countP fun b => b.term.isBranch) : f.Accounts g s := by
  constructor
  · rw [blockCount_eq_length, blockCount_eq_length, before.length_eq, after.length_eq,
      List.length_append, List.length_append]
    omega
  · have had : f.codeSize = (old.map Block.size).sum + (others.map Block.size).sum := by
      rw [codeSize, (before.map Block.size).sum_nat, List.map_append, List.sum_append]
    have has : g.codeSize = (new.map Block.size).sum + (others.map Block.size).sum := by
      rw [codeSize, (after.map Block.size).sum_nat, List.map_append, List.sum_append]
    omega
  · rw [branchCount_eq_countP, branchCount_eq_countP, before.countP_eq, after.countP_eq,
      List.countP_append, List.countP_append]
    omega

theorem stats_drop (blocks : List (Nat × Block)) :
    (Move.drop blocks).stats =
      ⟨((blocks.map Prod.snd).map Block.size).sum, blocks.length, 0, 0⟩ := by
  rw [Move.stats]
  induction blocks with
  | nil => rfl
  | cons entry blocks ih =>
    rw [List.map_cons, Stats.sum_cons, ih, Stats.add_def]
    simp [Stats.erased, Nat.add_comm]

private theorem Moves.accounts (move : f.Moves g m) : f.Accounts g m.stats := by
  obtain ⟨old, new, others, trade, before, after⟩ := move.census
  cases trade with
  | cut b kept branch =>
    have straight : (Terminator.jump kept : Terminator Value Nat).isBranch = false := rfl
    refine accounts_of_trade before after rfl rfl ?_
    simp [branch, straight, Move.stats, Stats.pruned]
  | drop blocks =>
    rw [stats_drop]
    exact accounts_of_trade before after (by simp) (by simp) (Nat.zero_le _)
  | fold p b jump =>
    refine accounts_of_trade before after rfl ?_ ?_
    · simp [Block.size, Move.stats, Stats.merged]
      omega
    · simp [jump, Terminator.isBranch, Move.stats, Stats.merged]

theorem Derives.accounts {allowed : Function → Move → Prop}
    (series : f.Derives allowed moves g) :
    f.Accounts g (Move.total moves) := by
  induction series with
  | refl f => exact .refl f
  | step _ move _ ih =>
    rw [Move.total_cons]
    exact move.accounts.trans ih

/--
The statistics of pruning account for all that is gone: each block was eliminated or merged, each
instruction and terminator went with a block that was eliminated or made room for a merge, and each
branch that was pruned is one less.
-/
theorem stats_account_for_losses (f : Function) (edges : f.verifyEdges = .ok ()) (oracle : Oracle)
    (options : Options) :
    ((options.printAfterAll = true → f.Numbered) → ∃ o, f.prune oracle options = .ok o) ∧
    ∀ o, f.prune oracle options = .ok o →
      f.blockCount = o.func.blockCount + o.stats.blocksEliminated + o.stats.blocksMerged ∧
      f.codeSize = o.func.codeSize + o.stats.instsEliminated + o.stats.blocksMerged ∧
      o.func.branchCount + o.stats.branchesPruned ≤ f.branchCount := by
  have hf := verifyEdges_eq_ok_iff.mp edges
  refine ⟨prune_returns hf oracle options, fun o pruned => ?_⟩
  obtain ⟨_, moves, series, counted⟩ := derivedFrom_of_prune hf pruned
  rw [counted]
  obtain ⟨blocks, code, branches⟩ := series.accounts
  exact ⟨blocks, code, branches⟩

theorem stats_account_for_losses_strayLoop :
    ∃ o, strayLoop.prune shifting ⟨true, true, true, true⟩ = .ok o ∧
      6 = o.func.blockCount + o.stats.blocksEliminated + o.stats.blocksMerged ∧
      8 = o.func.codeSize + o.stats.instsEliminated + o.stats.blocksMerged ∧
      o.func.branchCount + o.stats.branchesPruned ≤ 3 := by
  obtain ⟨returns, accounts⟩ := stats_account_for_losses strayLoop (by decide)
    shifting ⟨true, true, true, true⟩
  obtain ⟨o, pruned⟩ := returns (by decide)
  exact ⟨o, pruned, accounts o pruned⟩

end Function

end BranchTrim
