import BranchTrim.Flow.Count
import BranchTrim.Prune.Outcome

/-!
Removal of dead blocks. A block is dead when nothing but itself branches to it; removing it can make
its successors dead. A block that another edge leads to stays, and so does all that lies behind it.
-/

set_option autoImplicit false

namespace BranchTrim

namespace Function

/-- Whether a block is there, is not the entry, and has no edge into it from another block. -/
def isDead (f : Function) (i : Nat) : Bool :=
  f.contains i && i != f.entry && (f.predecessors i).all (· == i)

-- The equation in the match below is used by `decreasing_by`, which the linter misses.
set_option linter.unusedVariables false in
/-- Removes the dead blocks on a stack, and then those among their successors. -/
def removeDeadAmong (f : Function) (stack : List Nat) : Except Fault Outcome :=
  match stack with
  | [] => .ok (.unchanged f)
  | i :: stack =>
    if f.isDead i then
      match h : f.removeBlock i with
      | .error fault => .error fault
      | .ok (b, f') => do
        let o ← f'.removeDeadAmong ((b.term.targets.filter (· != i)).reverse ++ stack)
        return o.after (.erased b.size) [.deadRemoved b.name b.size]
    else f.removeDeadAmong stack
termination_by 3 * f.blockCount + stack.length
decreasing_by
  · have fewer := blockCount_removeBlock h
    have few := b.term.length_targets_le
    have others := List.length_filter_le (· != i) b.term.targets
    simp only [List.length_append, List.length_reverse, List.length_cons]
    omega
  · simp only [List.length_cons]
    omega

def removeDead (f : Function) (start : Nat) : Except Fault Outcome :=
  f.removeDeadAmong [start]

theorem branchCount_removeDeadAmong {f : Function} {stack : List Nat} {o : Outcome}
    (h : f.removeDeadAmong stack = .ok o) : o.func.branchCount ≤ f.branchCount := by
  fun_induction removeDeadAmong f stack generalizing o with
  | case1 =>
    cases h
    exact Nat.le_refl _
  | case2 => cases h
  | case3 _ _ _ _ _ _ removed ih =>
    obtain ⟨o', rest, h⟩ := bind_eq_ok h
    have later := ih rest
    cases h
    exact Nat.le_trans later (branchCount_removeBlock removed)
  | case4 _ _ _ _ ih => exact ih h

end Function

end BranchTrim
