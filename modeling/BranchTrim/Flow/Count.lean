import BranchTrim.Flow.Function
import BranchTrim.Refusal

/-!
What edits do to the number of blocks and to the number of conditional branches. Loops over a
function end because one of the two numbers gets smaller.
-/

set_option autoImplicit false

namespace BranchTrim

namespace Graph

private theorem countP_modify (p : Block → Bool) (change : Block → Block) (b : Block) :
    ∀ (cells : List (Option Block)) (i : Nat), cells[i]? = some (some b) →
      (cells.modify i (Option.map change)).countP (Option.any p) + (p b).toNat =
        cells.countP (Option.any p) + (p (change b)).toNat
  | [], i, h => by simp at h
  | cell :: cells, 0, h => by
    simp only [List.getElem?_cons_zero, Option.some.injEq] at h
    subst h
    cases hb : p b <;> cases hc : p (change b) <;> simp [hb, hc]
  | cell :: cells, i + 1, h => by
    have ih := countP_modify p change b cells i (by simpa using h)
    simp only [List.modify_succ_cons, List.countP_cons]
    omega

private theorem countP_set_none (p : Block → Bool) (b : Block) :
    ∀ (cells : List (Option Block)) (i : Nat), cells[i]? = some (some b) →
      (cells.set i none).countP (Option.any p) + (p b).toNat = cells.countP (Option.any p)
  | [], i, h => by simp at h
  | cell :: cells, 0, h => by
    simp only [List.getElem?_cons_zero, Option.some.injEq] at h
    subst h
    cases hb : p b <;> simp [hb]
  | cell :: cells, i + 1, h => by
    have ih := countP_set_none p b cells i (by simpa using h)
    simp only [List.set_cons_succ, List.countP_cons]
    omega

private theorem getElem?_of_block? {g : Graph} {i : Nat} {b : Block} (h : g.block? i = some b) :
    g.cells[i]? = some (some b) := by
  simp only [block?, blockIn] at h
  rcases eq : g.cells[i]? with _ | _ | c <;> simp_all

private theorem count_modify {g : Graph} {i : Nat} {b : Block} (p : Block → Bool)
    (change : Block → Block) (h : g.block? i = some b) :
    (g.modify i change).count p + (p b).toNat = g.count p + (p (change b)).toNat :=
  countP_modify p change b g.cells i (getElem?_of_block? h)

private theorem count_rewire (g : Graph) (i : Nat) (arms : List (Arm × Nat)) (p : Block → Bool) :
    (g.rewire i arms).count p = g.count p :=
  rfl

private theorem count_erase {g : Graph} {i : Nat} {b : Block} (p : Block → Bool)
    (h : g.block? i = some b) : (g.erase i).count p + (p b).toNat = g.count p := by
  have live : g.contains i = true := by simp [contains, h]
  unfold erase
  rw [dif_pos live]
  exact countP_set_none p b g.cells i (getElem?_of_block? h)

end Graph

namespace Function

theorem block_eq_ok {f : Function} {i : Nat} {b : Block} (h : f.block i = .ok b) :
    f.graph.block? i = some b := by
  unfold block at h
  split at h
  · next found => cases h; exact found
  · cases h

theorem setTerminator_eq_ok {f f' : Function} {i : Nat} {term old : Terminator Value Nat}
    (h : f.setTerminator i term = .ok (old, f')) :
    ∃ b, f.graph.block? i = some b ∧ b.term = old ∧
      f'.graph = (f.graph.modify i fun b => { b with term := term }).rewire i term.arms := by
  unfold setTerminator at h
  split at h
  · cases h
  · next b found =>
    split at h
    · cases h
      exact ⟨b, found, rfl, rfl⟩
    · cases h

theorem removeBlock_eq_ok {f f' : Function} {i : Nat} {b : Block}
    (h : f.removeBlock i = .ok (b, f')) :
    f.graph.block? i = some b ∧ f'.graph = f.graph.erase i := by
  unfold removeBlock at h
  split at h
  · cases h
  · split at h
    · cases h
    · next found =>
      split at h
      · cases h
        exact ⟨found, rfl⟩
      · cases h

theorem modifyInsts_eq_ok {f f' : Function} {i : Nat} {change : List Inst → List Inst}
    (h : f.modifyInsts i change = .ok f') :
    (∃ b, f.graph.block? i = some b) ∧
      f'.graph = f.graph.modify i fun b => { b with insts := change b.insts } := by
  unfold modifyInsts at h
  split at h
  · next live =>
    cases h
    exact ⟨Option.isSome_iff_exists.mp live, rfl⟩
  · cases h

theorem branchCount_setTerminator {f f' : Function} {i : Nat} {term old : Terminator Value Nat}
    (h : f.setTerminator i term = .ok (old, f')) :
    f'.branchCount + old.isBranch.toNat = f.branchCount + term.isBranch.toNat := by
  obtain ⟨b, found, rfl, eq⟩ := setTerminator_eq_ok h
  unfold branchCount
  rw [eq, Graph.count_rewire]
  exact Graph.count_modify _ _ found

private theorem blockCount_setTerminator {f f' : Function} {i : Nat}
    {term old : Terminator Value Nat} (h : f.setTerminator i term = .ok (old, f')) :
    f'.blockCount = f.blockCount := by
  obtain ⟨b, found, rfl, eq⟩ := setTerminator_eq_ok h
  have same := Graph.count_modify (fun _ => true) (fun b => { b with term := term }) found
  unfold blockCount
  rw [eq, Graph.count_rewire]
  exact Nat.add_right_cancel same

theorem blockCount_removeBlock {f f' : Function} {i : Nat} {b : Block}
    (h : f.removeBlock i = .ok (b, f')) : f'.blockCount + 1 = f.blockCount := by
  obtain ⟨found, eq⟩ := removeBlock_eq_ok h
  unfold blockCount
  rw [eq]
  exact Graph.count_erase _ found

theorem branchCount_removeBlock {f f' : Function} {i : Nat} {b : Block}
    (h : f.removeBlock i = .ok (b, f')) : f'.branchCount ≤ f.branchCount := by
  obtain ⟨found, eq⟩ := removeBlock_eq_ok h
  unfold branchCount
  rw [eq, ← Graph.count_erase _ found]
  exact Nat.le_add_right _ _

private theorem blockCount_modifyInsts {f f' : Function} {i : Nat}
    {change : List Inst → List Inst} (h : f.modifyInsts i change = .ok f') :
    f'.blockCount = f.blockCount := by
  obtain ⟨⟨b, found⟩, eq⟩ := modifyInsts_eq_ok h
  have same :=
    Graph.count_modify (fun _ => true) (fun b => { b with insts := change b.insts }) found
  unfold blockCount
  rw [eq]
  exact Nat.add_right_cancel same

private theorem branchCount_modifyInsts {f f' : Function} {i : Nat}
    {change : List Inst → List Inst} (h : f.modifyInsts i change = .ok f') :
    f'.branchCount = f.branchCount := by
  obtain ⟨⟨b, found⟩, eq⟩ := modifyInsts_eq_ok h
  have same := Graph.count_modify (fun b => b.term.isBranch)
    (fun b => { b with insts := change b.insts }) found
  unfold branchCount
  rw [eq]
  exact Nat.add_right_cancel same

theorem branchCount_swapSuccessors {f f' : Function} {i : Nat}
    (h : f.swapSuccessors i = .ok f') : f'.branchCount = f.branchCount := by
  obtain ⟨b, found, h⟩ := bind_eq_ok h
  split at h
  · next cond whenTrue whenFalse term =>
    obtain ⟨⟨old, g⟩, set, h⟩ := bind_eq_ok h
    obtain ⟨c, found', rfl, _⟩ := setTerminator_eq_ok set
    have count := branchCount_setTerminator set
    have same : b = c := Option.some.inj ((block_eq_ok found).symm.trans found')
    subst same
    rw [term] at count
    cases h
    exact Nat.add_right_cancel count
  · cases h

theorem counts_mergeIntoPredecessor {f f' : Function} {pred i : Nat}
    (h : f.mergeIntoPredecessor pred i = .ok f') :
    f'.blockCount + 1 = f.blockCount ∧ f'.branchCount ≤ f.branchCount := by
  obtain ⟨p, foundPred, h⟩ := bind_eq_ok h
  obtain ⟨b, foundBlock, h⟩ := bind_eq_ok h
  have foundPred := block_eq_ok foundPred
  have foundBlock := block_eq_ok foundBlock
  split at h
  · cases h
  next jump =>
  split at h
  · cases h
  split at h
  · cases h
  next noLoop =>
  have jump : p.term = .jump i := Decidable.not_not.mp jump
  have other : pred ≠ i := by
    rintro rfl
    have same : p = b := Option.some.inj (foundPred.symm.trans foundBlock)
    simp [← same, jump, Terminator.targets, Terminator.arms] at noLoop
  obtain ⟨⟨term, g₁⟩, first, h₁⟩ := bind_eq_ok h
  obtain ⟨⟨old, g₂⟩, second, h₂⟩ := bind_eq_ok h₁
  obtain ⟨⟨merged, g₃⟩, third, fourth⟩ := bind_eq_ok h₂
  obtain ⟨c, found₁, _, eq₁⟩ := setTerminator_eq_ok first
  obtain ⟨d, found₂, rfl, _⟩ := setTerminator_eq_ok second
  have same : p = d := by
    rw [eq₁, Graph.block?_rewire, Graph.block?_modify, if_neg (Ne.symm other)] at found₂
    exact Option.some.inj (foundPred.symm.trans found₂)
  have branches₁ := branchCount_setTerminator first
  have branches₂ := branchCount_setTerminator second
  have branches₃ := branchCount_removeBlock third
  have branches₄ := branchCount_modifyInsts fourth
  have blocks₁ := blockCount_setTerminator first
  have blocks₂ := blockCount_setTerminator second
  have blocks₃ := blockCount_removeBlock third
  have blocks₄ := blockCount_modifyInsts fourth
  rw [← same, jump] at branches₂
  simp only [Terminator.isBranch, Bool.toNat_false] at branches₁ branches₂
  dsimp only at *
  omega

end Function

end BranchTrim
