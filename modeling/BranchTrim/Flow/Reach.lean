import BranchTrim.Flow.Function

/-!
Reachability from the entry block, and the checks of a function's graph.
-/

set_option autoImplicit false

namespace BranchTrim

namespace Graph

def next (g : Graph) (i : Nat) : List Nat :=
  (g.outgoing i).map Edge.target

private theorem length_unseen_lt (g : Graph) (seen : List Nat) (i : Nat) (live : g.contains i)
    (new : i ∉ seen) :
    (g.ids.filter (· ∉ i :: seen)).length < (g.ids.filter (· ∉ seen)).length := by
  have sub : g.ids.filter (· ∉ i :: seen) =
      (g.ids.filter (· ∉ seen)).filter (· ≠ i) := by
    rw [List.filter_filter]
    congr 1
    funext j
    simp
  rw [sub]
  refine List.length_filter_lt_length_iff_exists.mpr ⟨i, ?_, by simp⟩
  simp [mem_ids, live, new]

private theorem length_next_le (g : Graph) (i : Nat) : (g.next i).length ≤ g.edges.length := by
  rw [next, List.length_map]
  exact List.length_filter_le _ _

/-- Visits the blocks on a stack and all that edges lead to from them, depth first, and adds them
to those seen. -/
def explore (g : Graph) (stack seen : List Nat) : List Nat :=
  match stack with
  | [] => seen
  | i :: stack =>
    if g.contains i ∧ i ∉ seen then
      g.explore (g.next i ++ stack) (i :: seen)
    else g.explore stack seen
termination_by (g.ids.filter (· ∉ seen)).length * (g.edges.length + 1) + stack.length
decreasing_by
  · next fresh =>
    have fewer := g.length_unseen_lt seen i fresh.1 fresh.2
    have room := Nat.mul_le_mul_right (g.edges.length + 1) fewer
    have short := g.length_next_le i
    rw [Nat.succ_mul] at room
    simp only [List.length_append, List.length_cons]
    omega
  · simp only [List.length_cons]
    omega

end Graph

namespace Function

def reachable (f : Function) : List Nat :=
  f.graph.explore [f.entry] []

def orphans (f : Function) : List Nat :=
  let reachable := f.reachable
  f.blockIds.filter fun i => !reachable.contains i

def edgeDefect? (f : Function) (b : Block) (i : Nat) : Option Defect :=
  if b.term.targets.all f.contains then
    if ((f.graph.outgoing i).map fun e => (e.arm, e.target)).isPerm b.term.arms then none
    else some (.edgeMismatch b.name)
  else some (.danglingTarget b.name)

/-- Checks that terminators have their targets in the function and that the edges
agree with them. -/
def verifyEdges (f : Function) : Except Defect Unit :=
  match f.blockIds.findSome? fun i => (f.graph.block? i).bind fun b => f.edgeDefect? b i with
  | some defect => .error defect
  | none => .ok ()

/-- Checks the edges, and that every block can be reached from the entry. -/
def verify (f : Function) : Except Defect Unit := do
  f.verifyEdges
  match f.orphans.findSome? f.graph.block? with
  | some b => .error (.unreachable b.name)
  | none => .ok ()

end Function

end BranchTrim
