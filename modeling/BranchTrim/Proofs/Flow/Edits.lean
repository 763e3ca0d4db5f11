import BranchTrim.Prune.Chain
import BranchTrim.Proofs.Flow.Edges

/-!
What the edits of a function do to its blocks, when they are carried out, and that they keep its
graph consistent. A block can be folded into the one that jumps to it when no other block leads
there; the tests that the edits make on lists of edges say just this in a consistent graph.
-/

set_option autoImplicit false

namespace BranchTrim

namespace Function

variable {f g : Function} {i : Nat} {b : Block}

/-- `g` has the name, the parameters and the values of `f`, and the given blocks. -/
structure Reshaped (f g : Function) (blocks : Nat → Option Block) : Prop where
  name : g.name = f.name
  params : g.params = f.params
  valueNames : g.valueNames = f.valueNames
  block? : ∀ j, g.graph.block? j = blocks j

theorem Reshaped.trans {h : Function} {blocks blocks' : Nat → Option Block}
    (first : f.Reshaped g blocks) (second : g.Reshaped h blocks') : f.Reshaped h blocks' :=
  ⟨second.name.trans first.name, second.params.trans first.params,
    second.valueNames.trans first.valueNames, second.block?⟩

theorem block_of_found (found : f.graph.block? i = some b) : f.block i = .ok b := by
  simp [block, found]

theorem blockName_of_found (found : f.graph.block? i = some b) : f.blockName i = .ok b.name := by
  simp [blockName, block_of_found found]

section Terminators

variable {term old : Terminator Value Nat}

theorem setTerminator_returns (found : f.graph.block? i = some b) (term : Terminator Value Nat)
    (live : ∀ t ∈ term.targets, f.contains t = true) :
    ∃ g, f.setTerminator i term = .ok (b.term, g) := by
  unfold setTerminator
  split
  · next absent => simp [found] at absent
  · next c found' =>
    obtain rfl : b = c := Option.some.inj (found.symm.trans found')
    rw [if_pos (List.all_eq_true.mpr live)]
    exact ⟨_, rfl⟩

theorem setTerminator_shape (h : f.setTerminator i term = .ok (old, g)) :
    ∃ b, f.graph.block? i = some b ∧ b.term = old ∧
      (∀ t ∈ term.targets, f.contains t = true) ∧ g.graph = f.graph.retarget i term ∧
      f.Reshaped g fun j => if i = j then some { b with term := term } else f.graph.block? j := by
  unfold setTerminator at h
  split at h
  · cases h
  · next b found =>
    split at h
    · next live =>
      cases h
      exact ⟨b, found, rfl, List.all_eq_true.mp live, rfl, rfl, rfl, rfl,
        Graph.block?_retarget found term⟩
    · cases h

theorem consistent_setTerminator (hf : f.graph.Consistent)
    (h : f.setTerminator i term = .ok (old, g)) : g.graph.Consistent := by
  obtain ⟨b, found, _, live, eq, _⟩ := setTerminator_shape h
  rw [eq]
  exact hf.retarget found live

theorem swapSuccessors_shape (h : f.swapSuccessors i = .ok g) :
    ∃ b cond whenTrue whenFalse, f.graph.block? i = some b ∧
      b.term = .branch cond whenTrue whenFalse ∧
      f.setTerminator i (.branch cond whenFalse whenTrue) = .ok (b.term, g) := by
  obtain ⟨b, found, h⟩ := bind_eq_ok h
  have found := block_eq_ok found
  split at h
  · next cond whenTrue whenFalse term =>
    obtain ⟨⟨old, g'⟩, set, h⟩ := bind_eq_ok h
    obtain ⟨c, found', rfl, _⟩ := setTerminator_shape set
    obtain rfl : b = c := Option.some.inj (found.symm.trans found')
    cases h
    exact ⟨b, cond, whenTrue, whenFalse, found, term, set⟩
  · cases h

theorem consistent_swapSuccessors (hf : f.graph.Consistent) (h : f.swapSuccessors i = .ok g) :
    g.graph.Consistent := by
  obtain ⟨_, _, _, _, _, _, set⟩ := swapSuccessors_shape h
  exact consistent_setTerminator hf set

theorem swapSuccessors_returns (hf : f.graph.Consistent) (found : f.graph.block? i = some b)
    {cond : Value} {whenTrue whenFalse : Nat} (branch : b.term = .branch cond whenTrue whenFalse) :
    ∃ g, f.swapSuccessors i = .ok g ∧ g.graph.Consistent ∧ f.Reshaped g fun j =>
      if i = j then some { b with term := .branch cond whenFalse whenTrue }
      else f.graph.block? j := by
  have live :
      ∀ t ∈ (Terminator.branch cond whenFalse whenTrue).targets, f.contains t = true := by
    intro t mem
    refine hf.contains_target (i := i) ?_
    rw [Graph.targets_of_block? found, branch]
    simpa [Terminator.targets, Terminator.arms, or_comm] using mem
  obtain ⟨g, set⟩ := setTerminator_returns found _ live
  obtain ⟨c, found', _, _, _, shape⟩ := setTerminator_shape set
  obtain rfl : b = c := Option.some.inj (found.symm.trans found')
  refine ⟨g, ?_, consistent_setTerminator hf set, shape⟩
  simp [swapSuccessors, block_of_found found, branch, set]

end Terminators

section Instructions

variable {change : List Inst → List Inst}

private theorem modifyInsts_returns (found : f.graph.block? i = some b)
    (change : List Inst → List Inst) :
    ∃ g, f.modifyInsts i change = .ok g := by
  have live : f.contains i = true := Graph.contains_of_block? found
  unfold modifyInsts
  rw [if_pos live]
  exact ⟨_, rfl⟩

private theorem modifyInsts_shape (h : f.modifyInsts i change = .ok g) :
    ∃ b, f.graph.block? i = some b ∧ f.Reshaped g fun j =>
      if i = j then some { b with insts := change b.insts } else f.graph.block? j := by
  obtain ⟨⟨b, found⟩, eq⟩ := modifyInsts_eq_ok h
  have fields : g.name = f.name ∧ g.params = f.params ∧ g.valueNames = f.valueNames := by
    unfold modifyInsts at h
    split at h <;> cases h
    exact ⟨rfl, rfl, rfl⟩
  refine ⟨b, found, fields.1, fields.2.1, fields.2.2, fun j => ?_⟩
  rw [eq, Graph.block?_modify]
  split
  · next at_i => rw [← at_i, found, Option.map_some]
  · rfl

theorem consistent_modifyInsts (hf : f.graph.Consistent) (h : f.modifyInsts i change = .ok g) :
    g.graph.Consistent := by
  rw [(modifyInsts_eq_ok h).2]
  exact hf.modify fun _ => rfl

end Instructions

section Removal

theorem predecessors_all_iff (hf : f.graph.Consistent) :
    (f.predecessors i).all (· == i) = true ↔ ∀ j, i ∈ f.graph.targets j → j = i := by
  simp only [List.all_eq_true, beq_iff_eq, predecessors, hf.mem_sources]

theorem removeBlock_returns (hf : f.graph.Consistent) (found : f.graph.block? i = some b)
    (inner : i ≠ f.entry) (alone : ∀ j, i ∈ f.graph.targets j → j = i) :
    ∃ g, f.removeBlock i = .ok (b, g) := by
  unfold removeBlock
  rw [dif_neg inner]
  split
  · next absent => simp [found] at absent
  · next c found' =>
    obtain rfl : b = c := Option.some.inj (found.symm.trans found')
    rw [if_pos ((predecessors_all_iff hf).mpr alone)]
    exact ⟨_, rfl⟩

theorem removeBlock_shape (hf : f.graph.Consistent) (h : f.removeBlock i = .ok (b, g)) :
    f.graph.block? i = some b ∧ i ≠ f.entry ∧ (∀ j, i ∈ f.graph.targets j → j = i) ∧
      g.graph.Consistent ∧
      f.Reshaped g fun j => if i = j then none else f.graph.block? j := by
  obtain ⟨found, eq⟩ := removeBlock_eq_ok h
  unfold removeBlock at h
  split at h
  · cases h
  · next inner =>
    split at h
    · cases h
    · split at h
      · next alone =>
        have alone := (predecessors_all_iff hf).mp alone
        cases h
        refine ⟨found, inner, alone, hf.erase alone, rfl, rfl, rfl, fun j => ?_⟩
        exact Graph.block?_erase f.graph i j
      · cases h

end Removal

section Folding

variable {head next : Nat} {p : Block}

/-- A block that can be folded: another one jumps to it, no further one leads there, and it is
not the entry. -/
structure Foldable (f : Function) (head next : Nat) (p b : Block) : Prop where
  head_found : f.graph.block? head = some p
  next_found : f.graph.block? next = some b
  jump : p.term = .jump next
  next_ne_head : next ≠ head
  next_ne_entry : next ≠ f.entry
  only : ∀ j, next ∈ f.graph.targets j → j = head

def IsHead (f : Function) (head : Nat) : Prop :=
  ∃ next p b, f.Foldable head next p b

/-- The blocks after a block has been folded into the one that jumps to it. -/
def foldedBlocks (f : Function) (head next : Nat) (p b : Block) (j : Nat) : Option Block :=
  if next = j then none
  else if head = j then some ⟨p.name, p.insts ++ b.insts, b.term⟩
  else f.graph.block? j

section Folded

/-! What is where after a fold. -/

variable (fold : f.Foldable head next p b) (shape : f.Reshaped g (f.foldedBlocks head next p b))

include fold shape

theorem Foldable.block?_head :
    g.graph.block? head = some ⟨p.name, p.insts ++ b.insts, b.term⟩ := by
  rw [shape.block?, foldedBlocks, if_neg fold.next_ne_head, if_pos rfl]

theorem Foldable.targets_head : g.graph.targets head = f.graph.targets next := by
  rw [Graph.targets_of_block? (fold.block?_head shape), Graph.targets_of_block? fold.next_found]

omit fold in
theorem Reshaped.block?_folded : g.graph.block? next = none := by
  rw [shape.block?, foldedBlocks, if_pos rfl]

omit fold in
theorem Reshaped.block?_unfolded {j : Nat} (ne_next : j ≠ next) (ne_head : j ≠ head) :
    g.graph.block? j = f.graph.block? j := by
  rw [shape.block?, foldedBlocks, if_neg (Ne.symm ne_next), if_neg (Ne.symm ne_head)]

omit shape in
theorem Foldable.mem_targets_head {t : Nat} : t ∈ f.graph.targets head ↔ t = next := by
  rw [Graph.targets_of_block? fold.head_found, fold.jump]
  simp [Terminator.targets, Terminator.arms]

omit shape in
theorem Foldable.not_mem_targets {j : Nat} (ne_head : j ≠ head) : next ∉ f.graph.targets j :=
  fun leads => ne_head (fold.only j leads)

end Folded

theorem singlePredecessor?_eq_some_iff (hf : f.graph.Consistent)
    (found : f.graph.block? head = some p) (jump : p.term = .jump next) :
    f.singlePredecessor? next = some head ↔ ∀ j, next ∈ f.graph.targets j → j = head := by
  have arms : f.graph.arms head = [(.jump, next)] := by
    rw [Graph.arms_of_block? found, jump]
    rfl
  constructor
  · intro single j leads
    have listed : j ∈ f.predecessors next := hf.mem_sources.mpr leads
    unfold singlePredecessor? at single
    split at single
    · next pred preds =>
      rw [preds, List.mem_singleton] at listed
      exact listed.trans (Option.some.inj single)
    · cases single
  · intro only
    have every : ∀ e ∈ f.graph.incoming next, e = ⟨head, .jump, next⟩ := by
      rintro ⟨source, arm, target⟩ mem
      obtain ⟨rfl, place⟩ := hf.mem_incoming.mp mem
      obtain rfl : source = head := only source (Graph.mem_targets_iff_arm.mpr ⟨arm, place⟩)
      rw [arms] at place
      simp_all
    have mem : ⟨head, .jump, next⟩ ∈ f.graph.incoming next :=
      hf.mem_incoming.mpr ⟨rfl, by simp [arms]⟩
    have nodup := hf.nodup_incoming next
    unfold singlePredecessor? predecessors
    rcases list : f.graph.incoming next with _ | ⟨e, _ | ⟨e', rest⟩⟩
    · simp [list] at mem
    · simp [every e (by simp [list])]
    · have same : e = e' := (every e (by simp [list])).trans (every e' (by simp [list])).symm
      simp [list, same] at nodup

theorem extendsChain_iff (hf : f.graph.Consistent) (found : f.graph.block? head = some p)
    (jump : p.term = .jump next) :
    f.extendsChain head next = true ↔ ∃ b, f.Foldable head next p b := by
  have live : f.graph.contains next = true := by
    refine hf.contains_target (i := head) ?_
    rw [Graph.targets_of_block? found, jump]
    exact List.mem_singleton_self next
  obtain ⟨b, next_found⟩ := Graph.contains_iff.mp live
  simp only [extendsChain, Bool.and_eq_true, bne_iff_ne, ne_eq, beq_iff_eq, Bool.not_eq_true',
    singlePredecessor?_eq_some_iff hf found jump]
  constructor
  · rintro ⟨⟨⟨ne_head, ne_entry⟩, only⟩, _⟩
    exact ⟨b, found, next_found, jump, ne_head, ne_entry, only⟩
  · rintro ⟨c, foldable⟩
    refine ⟨⟨⟨foldable.next_ne_head, foldable.next_ne_entry⟩, foldable.only⟩, ?_⟩
    rw [next_found, Option.any_some, List.contains_eq_mem, decide_eq_false_iff_not]
    intro loops
    refine foldable.next_ne_head (foldable.only next ?_)
    rwa [Graph.targets_of_block? next_found]

private theorem Foldable.no_loop (fold : f.Foldable head next p b) : next ∉ b.term.targets := by
  intro loops
  refine fold.next_ne_head (fold.only next ?_)
  rwa [Graph.targets_of_block? fold.next_found]

/-- The first half of folding: the head takes over the terminator of the block, which is
left with none. -/
private theorem Foldable.hands_over (hf : f.graph.Consistent) (fold : f.Foldable head next p b) :
    ∃ g₁ g₂, f.setTerminator next (.ret none) = .ok (b.term, g₁) ∧
      g₁.setTerminator head b.term = .ok (p.term, g₂) ∧ g₂.graph.Consistent ∧
      f.Reshaped g₂ fun j =>
        if head = j then some { p with term := b.term }
        else if next = j then some { b with term := .ret none } else f.graph.block? j := by
  obtain ⟨g₁, set₁⟩ := setTerminator_returns fold.next_found (.ret none)
    (by simp [Terminator.targets, Terminator.arms])
  have hg₁ := consistent_setTerminator hf set₁
  obtain ⟨c₁, found₁, _, _, _, shape₁⟩ := setTerminator_shape set₁
  obtain rfl : b = c₁ := Option.some.inj (fold.next_found.symm.trans found₁)
  have head₁ : g₁.graph.block? head = some p := by
    rw [shape₁.block?, if_neg fold.next_ne_head, fold.head_found]
  have live : ∀ t ∈ b.term.targets, g₁.contains t = true := by
    intro t mem
    have old : f.graph.contains t = true :=
      hf.contains_target (i := next) (by rwa [Graph.targets_of_block? fold.next_found])
    obtain ⟨c, found⟩ := Graph.contains_iff.mp old
    refine Graph.contains_iff.mpr ?_
    rw [shape₁.block?]
    split
    · exact ⟨_, rfl⟩
    · exact ⟨c, found⟩
  obtain ⟨g₂, set₂⟩ := setTerminator_returns head₁ _ live
  obtain ⟨c₂, found₂, _, _, _, shape₂⟩ := setTerminator_shape set₂
  obtain rfl : p = c₂ := Option.some.inj (head₁.symm.trans found₂)
  refine ⟨g₁, g₂, set₁, set₂, consistent_setTerminator hg₁ set₂, ?_⟩
  have shape := shape₁.trans shape₂
  refine ⟨shape.name, shape.params, shape.valueNames, fun j => ?_⟩
  rw [shape₂.block?, shape₁.block?]

theorem Foldable.returns (hf : f.graph.Consistent) (fold : f.Foldable head next p b) :
    ∃ g, f.mergeIntoPredecessor head next = .ok g ∧ g.graph.Consistent ∧
      f.Reshaped g (f.foldedBlocks head next p b) := by
  have single : f.singlePredecessor? next = some head :=
    (singlePredecessor?_eq_some_iff hf fold.head_found fold.jump).mpr fold.only
  obtain ⟨g₁, g₂, set₁, set₂, hg₂, shape₂⟩ := fold.hands_over hf
  have next₂ : g₂.graph.block? next = some { b with term := .ret none } := by
    rw [shape₂.block?, if_neg fold.next_ne_head.symm, if_pos rfl]
  have head₂ : g₂.graph.block? head = some { p with term := b.term } := by
    rw [shape₂.block?, if_pos rfl]
  -- Nothing leads to the block any more, so it can be removed.
  have alone : ∀ j, next ∈ g₂.graph.targets j → j = next := by
    intro j leads
    by_contra other
    by_cases at_head : head = j
    · subst at_head
      rw [Graph.targets_of_block? head₂] at leads
      exact fold.no_loop leads
    · have same : g₂.graph.block? j = f.graph.block? j := by
        rw [shape₂.block?, if_neg at_head, if_neg (Ne.symm other)]
      rw [Graph.targets_congr same] at leads
      exact at_head (fold.only j leads).symm
  have inner : next ≠ g₂.entry := fold.next_ne_entry
  obtain ⟨g₃, removed⟩ := removeBlock_returns hg₂ next₂ inner alone
  obtain ⟨_, _, _, hg₃, shape₃⟩ := removeBlock_shape hg₂ removed
  have head₃ : g₃.graph.block? head = some { p with term := b.term } := by
    rw [shape₃.block?, if_neg fold.next_ne_head, head₂]
  obtain ⟨g₄, pushed⟩ := modifyInsts_returns head₃ (· ++ b.insts)
  obtain ⟨c₄, found₄, shape₄⟩ := modifyInsts_shape pushed
  obtain rfl : { p with term := b.term } = c₄ := Option.some.inj (head₃.symm.trans found₄)
  refine ⟨g₄, ?_, consistent_modifyInsts hg₃ pushed, ?_⟩
  · simp [mergeIntoPredecessor, block_of_found fold.head_found, block_of_found fold.next_found,
      fold.jump, single, fold.no_loop, set₁, set₂, removed, pushed]
  · have shape := (shape₂.trans shape₃).trans shape₄
    refine ⟨shape.name, shape.params, shape.valueNames, fun j => ?_⟩
    rw [shape₄.block?, shape₃.block?, shape₂.block?, foldedBlocks]
    by_cases at_head : head = j
    · rw [if_pos at_head, if_pos at_head, if_neg (at_head ▸ fold.next_ne_head)]
    · rw [if_neg at_head, if_neg at_head, if_neg at_head]
      split <;> simp [*]

theorem foldable_of_mergeIntoPredecessor (hf : f.graph.Consistent)
    (h : f.mergeIntoPredecessor head next = .ok g) : ∃ p b, f.Foldable head next p b := by
  obtain ⟨p, head_found, h⟩ := bind_eq_ok h
  obtain ⟨b, next_found, h⟩ := bind_eq_ok h
  have head_found := block_eq_ok head_found
  have next_found := block_eq_ok next_found
  split at h
  · cases h
  next jump =>
  have jump : p.term = .jump next := Decidable.not_not.mp jump
  split at h
  · cases h
  next single =>
  have only := (singlePredecessor?_eq_some_iff hf head_found jump).mp (Decidable.not_not.mp single)
  split at h
  · cases h
  next no_loop =>
  have next_ne_head : next ≠ head := by
    rintro rfl
    obtain rfl : p = b := Option.some.inj (head_found.symm.trans next_found)
    simp [jump, Terminator.targets, Terminator.arms] at no_loop
  obtain ⟨⟨term, g₁⟩, set₁, h⟩ := bind_eq_ok h
  obtain ⟨⟨old, g₂⟩, set₂, h⟩ := bind_eq_ok h
  obtain ⟨⟨merged, g₃⟩, removed, _⟩ := bind_eq_ok h
  have hg₂ := consistent_setTerminator (consistent_setTerminator hf set₁) set₂
  exact ⟨p, b, head_found, next_found, jump, next_ne_head,
    (removeBlock_shape hg₂ removed).2.1, only⟩

theorem consistent_mergeIntoPredecessor (hf : f.graph.Consistent)
    (h : f.mergeIntoPredecessor head next = .ok g) : g.graph.Consistent := by
  obtain ⟨p, b, fold⟩ := foldable_of_mergeIntoPredecessor hf h
  exact (of_returns h (fold.returns hf)).1

end Folding

end Function

end BranchTrim
