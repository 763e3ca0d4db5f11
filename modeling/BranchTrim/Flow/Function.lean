import BranchTrim.Flow.Fault
import BranchTrim.Flow.Graph

/-!
Functions and their edits. An edit keeps the edges of the graph in step with the terminators, and it
is refused with a fault when it would break the function.
-/

set_option autoImplicit false

namespace BranchTrim

/-- A function: numbered values, some of which are parameters, and a graph in which block 0
is the entry. -/
structure Function where
  name : String
  params : List Nat
  /-- The names of the values, in the order of their numbers. -/
  valueNames : List String
  graph : Graph
  entry_live : graph.contains 0
  params_numbered : ∀ id ∈ params, id < valueNames.length

namespace Function

def entry (_ : Function) : Nat := 0

def new (name entryName : String) : Function where
  name := name
  params := []
  valueNames := []
  graph := Graph.single (Block.returning entryName)
  entry_live := rfl
  params_numbered := by simp

def nextValue (f : Function) : Nat :=
  f.valueNames.length

def addValue (f : Function) (name : String) : Function :=
  { f with
    valueNames := f.valueNames ++ [name]
    params_numbered := fun id mem => by
      have known := f.params_numbered id mem
      simp only [List.length_append, List.length_singleton]
      omega }

def addParam (f : Function) (name : String) : Function :=
  { f.addValue name with
    params := f.params ++ [f.nextValue]
    params_numbered := fun id mem => by
      rcases List.mem_append.mp mem with old | new
      · exact (f.addValue name).params_numbered id old
      · simp [List.mem_singleton.mp new, addValue, nextValue] }

def valueName (f : Function) (id : Nat) : Except Fault String :=
  match f.valueNames[id]? with
  | some name => .ok name
  | none => .error .missingValue

def valueByName? (f : Function) (name : String) : Option Nat :=
  f.valueNames.findIdx? (· == name)

def block (f : Function) (i : Nat) : Except Fault Block :=
  match f.graph.block? i with
  | some b => .ok b
  | none => .error .missingBlock

def blockName (f : Function) (i : Nat) : Except Fault String := do
  return (← f.block i).name

def contains (f : Function) (i : Nat) : Bool :=
  f.graph.contains i

def blockIds (f : Function) : List Nat :=
  f.graph.ids

def blockCount (f : Function) : Nat :=
  f.graph.count fun _ => true

def branchCount (f : Function) : Nat :=
  f.graph.count fun b => b.term.isBranch

def blockByName? (f : Function) (name : String) : Option Nat :=
  f.blockIds.find? fun i => (f.graph.block? i).any fun b => b.name == name

/-- The sources of the edges into a block, one for each edge. -/
def predecessors (f : Function) (i : Nat) : List Nat :=
  (f.graph.incoming i).map Edge.source

def singlePredecessor? (f : Function) (i : Nat) : Option Nat :=
  match f.predecessors i with
  | [pred] => some pred
  | _ => none

def successors (f : Function) (i : Nat) : Except Fault (List Nat) := do
  return (← f.block i).term.targets

def jumpTarget? (f : Function) (i : Nat) : Option Nat :=
  match (f.graph.block? i).map Block.term with
  | some (.jump target) => some target
  | _ => none

/-- Adds a block that returns, at the number that the graph's `nextId` gives. -/
def addBlock (f : Function) (name : String) : Function :=
  { f with
    graph := f.graph.insert (Block.returning name)
    entry_live := by
      rw [Graph.contains_insert]
      simp [f.entry_live] }

def modifyInsts (f : Function) (i : Nat) (change : List Inst → List Inst) :
    Except Fault Function :=
  if f.contains i then
    .ok { f with
      graph := f.graph.modify i fun b => { b with insts := change b.insts }
      entry_live := by simp [f.entry_live] }
  else .error .missingBlock

def pushInst (f : Function) (i : Nat) (inst : Inst) : Except Fault Function :=
  f.modifyInsts i (· ++ [inst])

/-- Replaces the terminator of a block together with its edges, and returns the old one. -/
def setTerminator (f : Function) (i : Nat) (term : Terminator Value Nat) :
    Except Fault (Terminator Value Nat × Function) :=
  match f.graph.block? i with
  | none => .error .missingBlock
  | some b =>
    if term.targets.all f.contains then
      .ok (b.term, { f with
        graph := (f.graph.modify i fun b => { b with term := term }).rewire i term.arms
        entry_live := by simp [f.entry_live] })
    else .error (.foreignTarget b.name f.name)

def swapSuccessors (f : Function) (i : Nat) : Except Fault Function := do
  let b ← f.block i
  match b.term with
  | .branch cond whenTrue whenFalse =>
    return (← f.setTerminator i (.branch cond whenFalse whenTrue)).2
  | _ => .error (.swapWithoutBranch b.name)

/-- Removes a block that only its own edges lead to, and returns it. The entry cannot be removed. -/
def removeBlock (f : Function) (i : Nat) : Except Fault (Block × Function) :=
  if h : i = f.entry then .error (.removeEntry f.name)
  else
    match f.graph.block? i with
    | none => .error (.removeMissing f.name)
    | some b =>
      if (f.predecessors i).all (· == i) then
        .ok (b, { f with
          graph := f.graph.erase i
          entry_live := by
            have other : i ≠ 0 := h
            simp [Graph.contains_erase, other, f.entry_live] })
      else .error (.removeTargeted b.name)

/--
Folds a block into the block that jumps to it, which takes over its instructions and its terminator.
The jump has to be the only edge into the block.
-/
def mergeIntoPredecessor (f : Function) (pred i : Nat) : Except Fault Function := do
  let p ← f.block pred
  let b ← f.block i
  if p.term ≠ .jump i then .error (.mergeWithoutJump p.name b.name)
  else if f.singlePredecessor? i ≠ some pred then .error (.mergeShared b.name p.name)
  else if b.term.targets.contains i then .error (.mergeSelfLoop b.name)
  else
    let (term, f) ← f.setTerminator i (.ret none)
    let (_, f) ← f.setTerminator pred term
    let (merged, f) ← f.removeBlock i
    f.modifyInsts pred (· ++ merged.insts)

end Function

end BranchTrim
