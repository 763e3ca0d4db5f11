import BranchTrim.Flow.Reach
import BranchTrim.Prune.Chain

/-!
Sweeping a function: removing the blocks that the entry does not reach. Removal of dead blocks
leaves loops alone that have been cut off; the sweep takes them too, and then folds the chains that
they had kept apart.
-/

set_option autoImplicit false

namespace BranchTrim

namespace Function

def removeOrphan (f : Function) (i : Nat) : Except Fault Outcome := do
  let (b, f) ← f.removeBlock i
  return ⟨f, .erased b.size, [.orphanRemoved b.name]⟩

def mergeFrom (f : Function) (i : Nat) : Except Fault Outcome :=
  match f.jumpTarget? i with
  | some next => f.mergeChain i next
  | none => .ok (.unchanged f)

def detach (f : Function) (i : Nat) : Except Fault Function := do
  return (← f.setTerminator i (.ret none)).2

/--
Removes the blocks that the entry does not reach. They are detached first, since they may branch to
each other. Chains are folded only if there was something to remove.
-/
def sweep (merge : Bool) (f : Function) : Except Fault Outcome := do
  let orphans := f.orphans
  let f ← orphans.foldlM detach f
  let removed ← Outcome.forEach removeOrphan orphans f
  removed.andThen fun f =>
    if merge && !orphans.isEmpty then Outcome.forEach mergeFrom f.blockIds f
    else .ok (.unchanged f)

end Function

end BranchTrim
