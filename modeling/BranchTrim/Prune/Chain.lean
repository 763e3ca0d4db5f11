import BranchTrim.Flow.Count
import BranchTrim.Prune.Outcome

/-!
Folding of straight chains. A chain goes on from its head as long as the next block is entered
through the jump of the head only. It ends at the entry, at the head itself, at a block that loops
to itself, and where the head no longer ends in a jump.
-/

set_option autoImplicit false

namespace BranchTrim

namespace Function

def extendsChain (f : Function) (head next : Nat) : Bool :=
  next != head && next != f.entry && f.singlePredecessor? next == some head &&
    !(f.graph.block? next).any fun b => b.term.targets.contains next

-- The equations in the matches below are used by `decreasing_by`, which the linter misses.
set_option linter.unusedVariables false in
/-- Folds a chain into its head, which jumps to the given block. -/
def foldChain (f : Function) (head next : Nat) : Except Fault Outcome :=
  if f.extendsChain head next then do
    let event := Event.folded (← f.blockName next) (← f.blockName head)
    match h : f.mergeIntoPredecessor head next with
    | .error fault => .error fault
    | .ok f' =>
      match f'.jumpTarget? head with
      | none => return (Outcome.unchanged f').after .merged [event]
      | some next => return (← f'.foldChain head next).after .merged [event]
  else .ok (.unchanged f)
termination_by f.blockCount
decreasing_by
  have := (counts_mergeIntoPredecessor h).1
  omega

def mergeChain (f : Function) (head next : Nat) : Except Fault Outcome := do
  let b ← f.block head
  if b.term = .jump next then f.foldChain head next else .error (.chainWithoutJump b.name)

private theorem branchCount_foldChain {f : Function} {head next : Nat} {o : Outcome}
    (h : f.foldChain head next = .ok o) : o.func.branchCount ≤ f.branchCount := by
  fun_induction foldChain f head next generalizing o with
  | case1 f next extends' ih =>
    obtain ⟨nextName, _, h⟩ := bind_eq_ok h
    obtain ⟨headName, _, h⟩ := bind_eq_ok h
    split at h
    · cases h
    · next f' merged =>
      have step := (counts_mergeIntoPredecessor merged).2
      split at h
      · cases h
        exact step
      · next next' _ =>
        obtain ⟨o', rest, h⟩ := bind_eq_ok h
        have later := ih f' merged next' rest
        cases h
        exact Nat.le_trans later step
  | case2 =>
    cases h
    exact Nat.le_refl _

theorem branchCount_mergeChain {f : Function} {head next : Nat} {o : Outcome}
    (h : f.mergeChain head next = .ok o) : o.func.branchCount ≤ f.branchCount := by
  obtain ⟨b, _, h⟩ := bind_eq_ok h
  split at h
  · exact branchCount_foldChain h
  · cases h

end Function

end BranchTrim
