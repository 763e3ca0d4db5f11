import BranchTrim.Proofs.Prune.Pipeline
import Mathlib.Data.List.Chain

/-!
The shape of what pruning leaves. Every block that is left stands for a chain of blocks of the
function before: it has their instructions in their order, the number and the name of the first one,
and the terminator of the last one, which may have lost a target. No block is on two of these
chains. A fold joins two chains, and the other moves keep them.
-/

set_option autoImplicit false

namespace BranchTrim

/-- The new terminator is the old one, or a jump to one of the two targets of the old one. -/
def Terminator.Narrows (old new : Terminator Value Nat) : Prop :=
  new = old ∨ ∃ cond whenTrue whenFalse, old = .branch cond whenTrue whenFalse ∧
    (new = .jump whenTrue ∨ new = .jump whenFalse)

theorem Terminator.Narrows.mem_targets {old new : Terminator Value Nat} (narrows : old.Narrows new)
    {t : Nat} (mem : t ∈ new.targets) : t ∈ old.targets := by
  rcases narrows with rfl | ⟨cond, whenTrue, whenFalse, rfl, rfl | rfl⟩
  · exact mem
  · obtain rfl := List.mem_singleton.mp mem
    exact List.mem_cons_self
  · obtain rfl := List.mem_singleton.mp mem
    exact List.mem_cons_of_mem _ List.mem_cons_self

private theorem Terminator.Narrows.eq_of_branch {old : Terminator Value Nat} {cond : Value}
    {whenTrue whenFalse : Nat} (narrows : old.Narrows (.branch cond whenTrue whenFalse)) :
    old = .branch cond whenTrue whenFalse := by
  rcases narrows with same | ⟨_, _, _, _, jump | jump⟩
  · exact same.symm
  · cases jump
  · cases jump

namespace Function

variable {f g h : Function} {chain : Nat → List Nat} {i : Nat} {b : Block}

def instsAt (f : Function) (i : Nat) : List Inst :=
  ((f.graph.block? i).map Block.insts).getD []

/-- The block stands, under the given number, for a chain of blocks of the function. -/
structure Spans (f : Function) (chain : List Nat) (i : Nat) (b : Block) : Prop where
  starts : chain.head? = some i
  named : ∃ a, f.graph.block? i = some a ∧ b.name = a.name
  live : ∀ j ∈ chain, f.graph.contains j = true
  linked : chain.IsChain fun j k => k ∈ f.graph.targets j
  insts : b.insts = chain.flatMap f.instsAt
  ends : ∃ last z, chain.getLast? = some last ∧ f.graph.block? last = some z ∧
    z.term.Narrows b.term

/-- Each block of the second function stands for a chain of the first one. All chains together visit
no block twice. -/
structure Chained (f g : Function) (chain : Nat → List Nat) : Prop where
  spans : ∀ i b, g.graph.block? i = some b → f.Spans (chain i) i b
  once : ∀ i, g.graph.contains i = true → (chain i).Nodup
  apart : ∀ i j, g.graph.contains i = true → g.graph.contains j = true → i ≠ j →
    (chain i).Disjoint (chain j)

private theorem spans_singleton (found : f.graph.block? i = some b) : f.Spans [i] i b where
  starts := rfl
  named := ⟨b, found, rfl⟩
  live := by
    intro j mem
    obtain rfl := List.mem_singleton.mp mem
    exact Graph.contains_of_block? found
  linked := .singleton i
  insts := by simp [instsAt, found]
  ends := ⟨i, b, rfl, found, Or.inl rfl⟩

theorem chained_self (f : Function) : f.Chained f fun i => [i] where
  spans _ _ found := spans_singleton found
  once i _ := List.nodup_singleton i
  apart i j _ _ differ := by simpa using Ne.symm differ

private theorem Spans.cut {c : List Nat} {cond : Value} {whenTrue whenFalse : Nat}
    (spans : f.Spans c i b)
    (branch : b.term = .branch cond whenTrue whenFalse) (infeasible : Bool) :
    f.Spans c i { b with term := .jump (if infeasible then whenFalse else whenTrue) } := by
  obtain ⟨last, z, at_end, found, narrows⟩ := spans.ends
  rw [branch] at narrows
  have uncut : z.term = .branch cond whenTrue whenFalse := narrows.eq_of_branch
  refine ⟨spans.starts, spans.named, spans.live, spans.linked, spans.insts, last, z,
    at_end, found, ?_⟩
  refine Or.inr ⟨cond, whenTrue, whenFalse, uncut, ?_⟩
  cases infeasible with
  | true => exact Or.inr rfl
  | false => exact Or.inl rfl

/-- Where one chain ends in a jump to the start of another one, the two make one chain. -/
private theorem Spans.append {head next : Nat} {p : Block} {c d : List Nat}
    (first : f.Spans c head p) (second : f.Spans d next b) (jump : p.term = .jump next) :
    f.Spans (c ++ d) head ⟨p.name, p.insts ++ b.insts, b.term⟩ := by
  obtain ⟨last, z, at_end, z_found, narrows⟩ := first.ends
  obtain ⟨last', z', at_end', z_found', narrows'⟩ := second.ends
  have leads : next ∈ f.graph.targets last := by
    rw [Graph.targets_of_block? z_found]
    apply narrows.mem_targets
    rw [jump]
    exact List.mem_singleton_self next
  refine ⟨?_, first.named, ?_, ?_, ?_, last', z', ?_, z_found', narrows'⟩
  · rw [List.head?_append, first.starts]
    rfl
  · intro j mem
    rcases List.mem_append.mp mem with mem | mem
    · exact first.live j mem
    · exact second.live j mem
  · apply List.isChain_append.mpr
    refine ⟨first.linked, second.linked, ?_⟩
    intro j j_last k k_first
    have j_eq : j = last := Option.some.inj (j_last.symm.trans at_end)
    have k_eq : k = next := Option.some.inj (k_first.symm.trans second.starts)
    rw [j_eq, k_eq]
    exact leads
  · rw [List.flatMap_append, ← first.insts, ← second.insts]
  · rw [List.getLast?_append, at_end']
    rfl

private theorem Chained.cut {cond : Value} {whenTrue whenFalse : Nat} {infeasible : Bool}
    (chained : f.Chained g chain) (found : g.graph.block? i = some b)
    (branch : b.term = .branch cond whenTrue whenFalse)
    (shape : g.Reshaped h fun j =>
      if i = j then some { b with term := .jump (if infeasible then whenFalse else whenTrue) }
      else g.graph.block? j) :
    f.Chained h chain := by
  have live : ∀ j, h.graph.contains j = true → g.graph.contains j = true := by
    intro j there
    by_cases at_i : i = j
    · exact at_i ▸ Graph.contains_of_block? found
    · rwa [Graph.contains, shape.block?, if_neg at_i] at there
  refine ⟨?_, fun j there => chained.once j (live j there), ?_⟩
  · intro j c found'
    rw [shape.block?] at found'
    split at found'
    · next at_i =>
      cases found'
      subst at_i
      exact (chained.spans i b found).cut branch infeasible
    · exact chained.spans j c found'
  · intro j k j_there k_there
    exact chained.apart j k (live j j_there) (live k k_there)

theorem Chained.restrict (chained : f.Chained g chain)
    (kept : ∀ i b, h.graph.block? i = some b → g.graph.block? i = some b) :
    f.Chained h chain := by
  have live : ∀ j, h.graph.contains j = true → g.graph.contains j = true := by
    intro j there
    obtain ⟨b, found⟩ := Graph.contains_iff.mp there
    exact Graph.contains_of_block? (kept j b found)
  refine ⟨fun j c found => chained.spans j c (kept j c found), ?_, ?_⟩
  · intro j there
    exact chained.once j (live j there)
  · intro j k j_there k_there
    exact chained.apart j k (live j j_there) (live k k_there)

def joinChains (chain : Nat → List Nat) (head next i : Nat) : List Nat :=
  if i = head then chain head ++ chain next else chain i

theorem Chained.fold {head next : Nat} {p : Block} (chained : f.Chained g chain)
    (fold : g.Foldable head next p b) (shape : g.Reshaped h (g.foldedBlocks head next p b)) :
    f.Chained h (joinChains chain head next) := by
  have head_live : g.graph.contains head = true := Graph.contains_of_block? fold.head_found
  have next_live : g.graph.contains next = true := Graph.contains_of_block? fold.next_found
  have stays : ∀ j, h.graph.contains j = true → j ≠ next := by
    rintro j there rfl
    rw [Graph.contains, shape.block?_folded] at there
    cases there
  have live : ∀ j, h.graph.contains j = true → g.graph.contains j = true := by
    intro j there
    by_cases at_head : j = head
    · exact at_head ▸ head_live
    · rwa [Graph.contains, shape.block?_unfolded (stays j there) at_head] at there
  -- The joined chain keeps away from the chain of every block that is neither of the two.
  have beside : ∀ j, h.graph.contains j = true → j ≠ head →
      (chain head ++ chain next).Disjoint (chain j) := by
    intro j there other
    apply List.disjoint_append_left.mpr
    constructor
    · exact chained.apart head j head_live (live j there) (Ne.symm other)
    · exact chained.apart next j next_live (live j there) (Ne.symm (stays j there))
  refine ⟨?_, ?_, ?_⟩
  · intro j c found
    by_cases at_head : j = head
    · subst at_head
      obtain rfl := Option.some.inj (found.symm.trans (fold.block?_head shape))
      rw [joinChains, if_pos rfl]
      exact (chained.spans j p fold.head_found).append
        (chained.spans next b fold.next_found) fold.jump
    · have ne_next : j ≠ next := stays j (Graph.contains_of_block? found)
      rw [shape.block?_unfolded ne_next at_head] at found
      rw [joinChains, if_neg at_head]
      exact chained.spans j c found
  · intro j there
    by_cases at_head : j = head
    · rw [joinChains, if_pos at_head]
      apply List.nodup_append'.mpr
      refine ⟨chained.once head head_live, chained.once next next_live, ?_⟩
      exact chained.apart head next head_live next_live (Ne.symm fold.next_ne_head)
    · rw [joinChains, if_neg at_head]
      exact chained.once j (live j there)
  · intro j k j_there k_there differ
    by_cases j_head : j = head
    · have k_other : k ≠ head := fun same => differ (j_head.trans same.symm)
      rw [joinChains, if_pos j_head, joinChains, if_neg k_other]
      exact beside k k_there k_other
    · by_cases k_head : k = head
      · rw [joinChains, if_neg j_head, joinChains, if_pos k_head]
        exact List.disjoint_comm.mp (beside j j_there j_head)
      · rw [joinChains, if_neg j_head, joinChains, if_neg k_head]
        exact chained.apart j k (live j j_there) (live k k_there) differ

private theorem Chained.move {m : Move} (chained : f.Chained g chain) (move : g.Moves h m) :
    ∃ chain', f.Chained h chain' := by
  cases move with
  | cut found branch shape => exact ⟨chain, chained.cut found branch shape⟩
  | drop _ _ _ _ _ shape =>
    refine ⟨chain, chained.restrict fun i b found => ?_⟩
    rw [shape.block?] at found
    split at found
    · cases found
    · exact found
  | fold fold shape => exact ⟨_, chained.fold fold shape⟩

theorem Derives.chained {allowed : Function → Move → Prop} {moves : List Move}
    (series : g.Derives allowed moves h) (chained : f.Chained g chain) :
    ∃ chain', f.Chained h chain' := by
  induction series generalizing chain with
  | refl => exact ⟨chain, chained⟩
  | step _ move _ ih =>
    obtain ⟨chain', chained'⟩ := chained.move move
    exact ih chained'

/--
Pruning keeps the name, the parameters, the values and the entry of a function, and each block that
it leaves is a chain of blocks that were there before, put together in order. The chains have no
block in common.
-/
theorem pruned_blocks_are_chains (f : Function) (edges : f.verifyEdges = .ok ()) (oracle : Oracle)
    (options : Options) :
    ((options.printAfterAll = true → f.Numbered) → ∃ o, f.prune oracle options = .ok o) ∧
    ∀ o, f.prune oracle options = .ok o →
      o.func.name = f.name ∧ o.func.params = f.params ∧ o.func.valueNames = f.valueNames ∧
      o.func.entry = f.entry ∧ ∃ chain : Nat → List Nat, f.Chained o.func chain := by
  have hf := verifyEdges_eq_ok_iff.mp edges
  refine ⟨prune_returns hf oracle options, fun o pruned => ?_⟩
  obtain ⟨_, moves, series, _⟩ := derivedFrom_of_prune hf pruned
  obtain ⟨name, params, valueNames⟩ := series.fields
  exact ⟨name, params, valueNames, rfl, series.chained f.chained_self⟩

theorem pruned_blocks_are_chains_strayLoop :
    ∃ o, strayLoop.prune shifting ⟨true, true, true, true⟩ = .ok o ∧
      ∃ chain : Nat → List Nat, strayLoop.Chained o.func chain := by
  obtain ⟨returns, shape⟩ := pruned_blocks_are_chains strayLoop (by decide)
    shifting ⟨true, true, true, true⟩
  obtain ⟨o, pruned⟩ := returns (by decide)
  obtain ⟨_, _, _, _, chains⟩ := shape o pruned
  exact ⟨o, pruned, chains⟩

end Function

end BranchTrim
