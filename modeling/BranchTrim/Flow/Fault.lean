/-!
What can be wrong with a graph, and why an edit is refused.
-/

set_option autoImplicit false

namespace BranchTrim

/-- What is wrong with the graph of a function, with the name of the first block it is wrong at. -/
inductive Defect where
  | danglingTarget (block : String)
  | edgeMismatch (block : String)
  | unreachable (block : String)
  deriving DecidableEq, Repr

def Defect.message : Defect → String
  | danglingTarget block => "terminator of block `" ++ block ++ "` targets a removed block"
  | edgeMismatch block => "edges leaving block `" ++ block ++ "` do not match its terminator"
  | unreachable block => "block `" ++ block ++ "` is unreachable from the entry block"

inductive Fault where
  /-- A block was asked for that is not there. -/
  | missingBlock
  /-- A value was asked for that the function has not numbered. -/
  | missingValue
  | foreignTarget (block func : String)
  | swapWithoutBranch (block : String)
  | removeEntry (func : String)
  | removeTargeted (block : String)
  | removeMissing (func : String)
  | mergeWithoutJump (pred block : String)
  | mergeShared (block pred : String)
  | mergeSelfLoop (block : String)
  | chainWithoutJump (head : String)
  | cutWithoutBranch (block : String)
  | malformed (func stage : String) (defect : Defect)
  deriving DecidableEq, Repr

/-- The wording of a fault. Nothing can be named when a block or value is missing. -/
def Fault.message? : Fault → Option String
  | missingBlock => none
  | missingValue => none
  | foreignTarget block func =>
    some ("terminator of `" ++ block ++ "` targets a block that is not in `@" ++ func ++ "`")
  | swapWithoutBranch block =>
    some ("tried to swap the successors of `" ++ block ++ "`, which does not end in a branch")
  | removeEntry func => some ("tried to remove the entry block of `@" ++ func ++ "`")
  | removeTargeted block =>
    some ("tried to remove block `" ++ block ++ "` while other blocks still branch to it")
  | removeMissing func => some ("tried to remove a block that is not in `@" ++ func ++ "`")
  | mergeWithoutJump pred block => some ("`" ++ pred ++ "` does not jump to `" ++ block ++ "`")
  | mergeShared block pred =>
    some ("`" ++ block ++ "` has predecessors other than `" ++ pred ++ "`")
  | mergeSelfLoop block => some ("cannot merge `" ++ block ++ "`, it branches to itself")
  | chainWithoutJump head => some ("`" ++ head ++ "` must jump to the start of the chain")
  | cutWithoutBranch block =>
    some ("tried to prune a path out of `" ++ block ++ "`, which does not end in a branch")
  | malformed func stage defect =>
    some ("`@" ++ func ++ "` is malformed after " ++ stage ++ ": " ++ defect.message)

end BranchTrim
