import BranchTrim.Prune.Chain
import BranchTrim.Prune.Dead

/-!
Cutting a path. When the condition of a branch can never have one of its outcomes, the branch
becomes a jump to the target of the other one; what dies through the cut is removed, and the chain
from the block on is folded.
-/

set_option autoImplicit false

namespace BranchTrim

namespace Function

/-- Exchanges the targets of a branch if the second one is to be kept, so that it is the second one
to be cut off. -/
def keepFirst (f : Function) (i : Nat) (infeasible : Bool) : Except Fault Function :=
  if infeasible then f.swapSuccessors i else .ok f

/-- Folds the chain from a block on after a cut, if the block is still there. -/
def mergeAfterCut (i kept : Nat) (merge : Bool) (f : Function) : Except Fault Outcome :=
  -- In a loop that the entry does not reach, the cut can take the block with it.
  if merge && f.contains i then f.mergeChain i kept else .ok (.unchanged f)

/-- Cuts off the target for the outcome that the condition of a block never has. -/
def cut (f : Function) (i : Nat) (infeasible : Bool) (merge : Bool) : Except Fault Outcome := do
  let f ← f.keepFirst i infeasible
  let b ← f.block i
  match b.term with
  | .branch _ kept dead =>
    let event := Event.pathCut b.name (← f.blockName dead) (← f.blockName kept)
    let (_, f) ← f.setTerminator i (.jump kept)
    let removed ← f.removeDead dead
    let o ← removed.andThen (mergeAfterCut i kept merge)
    return o.after .pruned [event]
  | _ => .error (.cutWithoutBranch b.name)

theorem branchCount_cut {f : Function} {i : Nat} {infeasible merge : Bool} {o : Outcome}
    (h : f.cut i infeasible merge = .ok o) : o.func.branchCount < f.branchCount := by
  obtain ⟨g, swapped, h⟩ := bind_eq_ok h
  have same : g.branchCount = f.branchCount := by
    unfold keepFirst at swapped
    split at swapped
    · exact branchCount_swapSuccessors swapped
    · cases swapped; rfl
  obtain ⟨b, found, h⟩ := bind_eq_ok h
  split at h
  · next cond kept dead term =>
    obtain ⟨deadName, _, h⟩ := bind_eq_ok h
    obtain ⟨keptName, _, h⟩ := bind_eq_ok h
    obtain ⟨⟨old, g'⟩, set, h⟩ := bind_eq_ok h
    obtain ⟨removed, dying, h⟩ := bind_eq_ok h
    obtain ⟨o', rest, h⟩ := bind_eq_ok h
    obtain ⟨o'', last, rest⟩ := bind_eq_ok rest
    obtain ⟨c, found', oldTerm, _⟩ := setTerminator_eq_ok set
    have block : b = c := Option.some.inj ((block_eq_ok found).symm.trans found')
    have cutOne := branchCount_setTerminator set
    rw [← oldTerm, ← block, term] at cutOne
    simp only [Terminator.isBranch, Bool.toNat_true, Bool.toNat_false] at cutOne
    have removing : removed.func.branchCount ≤ g'.branchCount := branchCount_removeDeadAmong dying
    have merging : o''.func.branchCount ≤ removed.func.branchCount := by
      unfold mergeAfterCut at last
      split at last
      · exact branchCount_mergeChain last
      · cases last
        exact Nat.le_refl _
    cases rest
    cases h
    simp only [Outcome.after]
    omega
  · cases h

end Function

end BranchTrim
