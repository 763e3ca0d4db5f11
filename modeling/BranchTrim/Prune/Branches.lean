import BranchTrim.Prune.Cut
import BranchTrim.Prune.Oracle

/-!
Cutting the branches that ranges decide. Blocks are visited in program order; a block is visited
again as long as a cut has folded a further decided branch into it.
-/

set_option autoImplicit false

namespace BranchTrim

/-- The outcome of a comparison that a verdict excludes. -/
def Verdict.infeasible? : Verdict → Option Bool
  | alwaysTrue => some false
  | alwaysFalse => some true
  | unknown => none

namespace Function

/-- The comparison that a block ends with, if it branches on the result. -/
def branchComparison? (f : Function) (i : Nat) : Option (Predicate × Value × Value) := do
  let b ← f.graph.block? i
  match b.term, b.insts.getLast? with
  | .branch (.var cond) _ _, some ⟨some result, .compare pred lhs rhs⟩ =>
    if result = cond then some (pred, lhs, rhs) else none
  | _, _ => none

-- The equations in the matches below are used by `decreasing_by`, which the linter misses.
set_option linter.unusedVariables false in
/-- Cuts the branch of a block as often as ranges decide it. -/
def cutDecided (oracle : Oracle) (merge : Bool) (f : Function) (i : Nat) :
    Except Fault Outcome :=
  match f.branchComparison? i with
  | none => .ok (.unchanged f)
  | some (pred, lhs, rhs) => do
    let lhsRange := oracle lhs f
    let rhsRange := oracle rhs f
    let verdict := Verdict.classify pred lhsRange rhsRange
    let event := Event.compared (← f.blockName i) pred lhs rhs lhsRange rhsRange verdict
    match verdict.infeasible? with
    | none => return (Outcome.unchanged f).after .zero [event]
    | some infeasible =>
      match h : f.cut i infeasible merge with
      | .error fault => .error fault
      | .ok o =>
        let rest ← cutDecided oracle merge o.func i
        return (rest.after o.stats o.log).after .zero [event]
termination_by f.branchCount
decreasing_by exact branchCount_cut h

def cutBranches (oracle : Oracle) (merge : Bool) (f : Function) : Except Fault Outcome :=
  Outcome.forEach (cutDecided oracle merge) f.blockIds f

end Function

end BranchTrim
