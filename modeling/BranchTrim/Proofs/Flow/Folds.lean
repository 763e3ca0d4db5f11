import BranchTrim.Proofs.Flow.Edits

/-!
When a block is folded into the one that jumps to it, and what happens to the edges. The tests of
the edit do not speak of the entry, and of the case that a block jumps to itself only in that they
look at its targets; what they amount to is said here in terms of the edges. A fold hands the edges
out of the folded block over to its head and leaves all others as they are.
-/

set_option autoImplicit false

namespace BranchTrim

/-- The edge with a new source if it left the folded block. -/
def Edge.handOver (head next : Nat) (e : Edge) : Edge :=
  if e.source = next then { e with source := head } else e

namespace Function

variable {f g : Function} {head next i j : Nat} {p b : Block}

section Edges

variable (hf : f.graph.Consistent) (hg : g.graph.Consistent) (fold : f.Foldable head next p b)
  (shape : f.Reshaped g (f.foldedBlocks head next p b))

include fold shape in
private theorem Foldable.arms_head : g.graph.arms head = f.graph.arms next := by
  rw [Graph.arms_of_block? (fold.block?_head shape), Graph.arms_of_block? fold.next_found]

include shape in
private theorem Reshaped.arms_folded : g.graph.arms next = [] := by
  simp [Graph.arms, shape.block?_folded]

include hf fold in
private theorem Foldable.source_ne_head (other : j ≠ next) {e : Edge}
    (mem : e ∈ f.graph.incoming j) : e.source ≠ head := by
  intro from_head
  have leads : j ∈ f.graph.targets e.source :=
    Graph.mem_targets_iff_arm.mpr ⟨e.arm, (hf.mem_incoming.mp mem).2⟩
  rw [from_head] at leads
  exact other (fold.mem_targets_head.mp leads)

include hf fold in
private theorem Foldable.nodup_handOver (other : j ≠ next) :
    ((f.graph.incoming j).map (Edge.handOver head next)).Nodup := by
  refine List.Nodup.map_on ?_ (hf.nodup_incoming j)
  rintro ⟨source, arm, target⟩ mem ⟨source', arm', target'⟩ mem' same
  have away : source ≠ head := fold.source_ne_head hf other mem
  have away' : source' ≠ head := fold.source_ne_head hf other mem'
  simp only [Edge.handOver] at same
  split at same <;> split at same <;> simp_all

include hf hg fold shape

private theorem Foldable.mem_handOver (other : j ≠ next) {e : Edge} :
    e ∈ (f.graph.incoming j).map (Edge.handOver head next) ↔ e ∈ g.graph.incoming j := by
  obtain ⟨source, arm, target⟩ := e
  simp only [List.mem_map, hg.mem_incoming]
  constructor
  · rintro ⟨⟨source', arm', target'⟩, mem, same⟩
    have away : source' ≠ head := fold.source_ne_head hf other mem
    obtain ⟨rfl, place⟩ := hf.mem_incoming.mp mem
    unfold Edge.handOver at same
    split at same
    · next at_next =>
      cases same
      refine ⟨rfl, ?_⟩
      rw [fold.arms_head shape]
      exact at_next ▸ place
    · next elsewhere =>
      cases same
      refine ⟨rfl, ?_⟩
      rwa [Graph.arms_congr (shape.block?_unfolded elsewhere away)]
  · rintro ⟨rfl, place⟩
    have gone : source ≠ next := by
      rintro rfl
      simp [shape.arms_folded] at place
    by_cases at_head : source = head
    · subst at_head
      rw [fold.arms_head shape] at place
      exact ⟨⟨next, arm, target⟩, hf.mem_incoming.mpr ⟨rfl, place⟩,
        by simp [Edge.handOver]⟩
    · rw [Graph.arms_congr (shape.block?_unfolded gone at_head)] at place
      exact ⟨⟨source, arm, target⟩, hf.mem_incoming.mpr ⟨rfl, place⟩,
        by simp [Edge.handOver, gone]⟩

/-- The edges into a block that stays are those before the fold, with the head in place of
the folded block. -/
private theorem Foldable.incoming_perm (other : j ≠ next) :
    (g.graph.incoming j).Perm ((f.graph.incoming j).map (Edge.handOver head next)) := by
  refine (List.perm_ext_iff_of_nodup (hg.nodup_incoming j) (fold.nodup_handOver hf other)).mpr
    fun e => ?_
  exact (fold.mem_handOver hf hg shape other).symm

end Edges

private theorem length_incoming_eq_one_iff (hf : f.graph.Consistent)
    (found : f.graph.block? head = some p) (jump : p.term = .jump next) :
    (f.graph.incoming next).length = 1 ↔ ∀ j, next ∈ f.graph.targets j → j = head := by
  rw [← singlePredecessor?_eq_some_iff hf found jump]
  constructor
  · intro one
    obtain ⟨e, incoming⟩ := List.length_eq_one_iff.mp one
    have listed : head ∈ f.predecessors next := by
      refine hf.mem_sources.mpr ?_
      rw [Graph.targets_of_block? found, jump]
      exact List.mem_singleton_self next
    simp only [singlePredecessor?, predecessors, incoming, List.map_cons,
      List.map_nil] at listed ⊢
    rw [List.mem_singleton.mp listed]
  · intro single
    unfold singlePredecessor? at single
    split at single
    · next pred preds =>
      have one := congrArg List.length preds
      rwa [predecessors, List.length_map] at one
    · cases single

private theorem foldable_iff (hf : f.graph.Consistent) (head_found : f.graph.block? head = some p)
    (next_found : f.graph.block? next = some b) :
    f.Foldable head next p b ↔
      p.term = .jump next ∧ (f.graph.incoming next).length = 1 ∧ next ≠ head ∧
        next ≠ f.entry := by
  constructor
  · intro fold
    exact ⟨fold.jump, (length_incoming_eq_one_iff hf head_found fold.jump).mpr fold.only,
      fold.next_ne_head, fold.next_ne_entry⟩
  · rintro ⟨jump, one, ne_head, ne_entry⟩
    exact ⟨head_found, next_found, jump, ne_head, ne_entry,
      (length_incoming_eq_one_iff hf head_found jump).mp one⟩

/--
A block is folded into another one exactly if that one jumps to it, there is no other edge into it,
and it is neither the other one nor the entry. Then the block is gone, the other one has its
instructions after its own and ends as it did, and every further block stays as it is. Each block
that is left has the edges into it that it had, but those that came from the folded block come from
the one that it was folded into.
-/
theorem folding_exact (edges : f.verifyEdges = .ok ()) (head_found : f.graph.block? head = some p)
    (next_found : f.graph.block? next = some b) :
    ((∃ g, f.mergeIntoPredecessor head next = .ok g) ↔
      p.term = .jump next ∧ (f.graph.incoming next).length = 1 ∧ next ≠ head ∧
      next ≠ f.entry) ∧
    ∀ g, f.mergeIntoPredecessor head next = .ok g →
      g.verifyEdges = .ok () ∧ g.name = f.name ∧ g.params = f.params ∧
      g.valueNames = f.valueNames ∧
      g.graph.block? next = none ∧
      g.graph.block? head = some ⟨p.name, p.insts ++ b.insts, b.term⟩ ∧
      (∀ j, j ≠ head → j ≠ next → g.graph.block? j = f.graph.block? j) ∧
      ∀ j, j ≠ next →
        (g.graph.incoming j).Perm ((f.graph.incoming j).map (Edge.handOver head next)) := by
  have hf := verifyEdges_eq_ok_iff.mp edges
  have folds : ∀ g, f.mergeIntoPredecessor head next = .ok g → f.Foldable head next p b := by
    intro g merged
    obtain ⟨p', b', fold⟩ := foldable_of_mergeIntoPredecessor hf merged
    obtain rfl := Option.some.inj (head_found.symm.trans fold.head_found)
    obtain rfl := Option.some.inj (next_found.symm.trans fold.next_found)
    exact fold
  constructor
  · rw [← foldable_iff hf head_found next_found]
    constructor
    · rintro ⟨g, merged⟩
      exact folds g merged
    · intro fold
      obtain ⟨g, merged, _⟩ := fold.returns hf
      exact ⟨g, merged⟩
  · intro g merged
    have fold := folds g merged
    obtain ⟨hg, shape⟩ := of_returns merged (fold.returns hf)
    refine ⟨verifyEdges_eq_ok_iff.mpr hg, shape.name, shape.params, shape.valueNames,
      shape.block?_folded, fold.block?_head shape, ?_, ?_⟩
    · intro j ne_head ne_next
      exact shape.block?_unfolded ne_next ne_head
    · intro j other
      exact fold.incoming_perm hf hg shape other

/-- A function with a block that leads back, by both arms of its branch, to the block that
jumps to it. -/
def shuttle : Function where
  name := "f"
  params := [0]
  valueNames := ["t"]
  graph := Graph.ofBlocks
    [⟨"entry", [], .branch (.var 0) 1 3⟩, ⟨"out", [⟨none, .call "g" []⟩], .jump 2⟩,
      ⟨"back", [⟨none, .call "h" []⟩], .branch (.var 0) 1 1⟩, ⟨"end", [], .ret none⟩]
  entry_live := rfl
  params_numbered := by decide

theorem folding_exact_shuttle :
    ∃ g, shuttle.mergeIntoPredecessor 1 2 = .ok g ∧ g.verifyEdges = .ok () ∧
      g.graph.block? 2 = none ∧
      g.graph.block? 1 =
        some ⟨"out", [⟨none, .call "g" []⟩, ⟨none, .call "h" []⟩],
          .branch (.var 0) 1 1⟩ ∧
      (g.graph.incoming 1).Perm [⟨0, .whenTrue, 1⟩, ⟨1, .whenTrue, 1⟩,
        ⟨1, .whenFalse, 1⟩] := by
  have edges : shuttle.verifyEdges = .ok () := by decide
  have out : shuttle.graph.block? 1 = some ⟨"out", [⟨none, .call "g" []⟩], .jump 2⟩ := rfl
  have back : shuttle.graph.block? 2 =
      some ⟨"back", [⟨none, .call "h" []⟩], .branch (.var 0) 1 1⟩ := rfl
  obtain ⟨succeeds, effect⟩ := folding_exact edges out back
  obtain ⟨g, merged⟩ := succeeds.mpr (by decide)
  obtain ⟨checked, _, _, _, gone, taken, _, incoming⟩ := effect g merged
  exact ⟨g, merged, checked, gone, taken, incoming 1 (by decide)⟩

end Function

end BranchTrim
