import BranchTrim.Flow.Block
import BranchTrim.Prune.Stats
import BranchTrim.Verdict

/-!
The log of the pruner: what happened, how important it is, and which part reports it.
-/

set_option autoImplicit false

namespace BranchTrim

inductive Level where
  | trace
  | debug
  | info
  | warn
  | error
  deriving DecidableEq, Repr

namespace Level

def word : Level → String
  | trace => "TRACE"
  | debug => "DEBUG"
  | info => "INFO"
  | warn => "WARN"
  | error => "ERROR"

/-- The rank of a level: the more important, the higher. -/
def rank : Level → Nat
  | trace => 0
  | debug => 1
  | info => 2
  | warn => 3
  | error => 4

end Level

inductive Stage where
  /-- Cut the branches that ranges decide. -/
  | branches
  /-- Remove the blocks that the entry does not reach. -/
  | orphans
  deriving DecidableEq, Repr

namespace Stage

def name : Stage → String
  | branches => "rangeprune_pruner::passes::range_prune::RangePrune"
  | orphans => "rangeprune_pruner::passes::prune_orphans::PruneOrphans"

def status : Stage → String
  | branches => "Pruning branches decided by value ranges"
  | orphans => "Pruning unreachable blocks"

end Stage

inductive Event where
  | optionIgnored (text : String)
  | started (func : String) (blocks : Nat)
  | finished (func : String) (stats : Stats)
  | stageSkipped (stage : Stage)
  | stageStarted (stage : Stage)
  | blocksLeft (count : Nat)
  | printed (stage : Stage) (text : String)
  /-- The ranges of two operands were looked up for the branch of a block. -/
  | compared (block : String) (pred : Predicate) (lhs rhs : Value) (lhsRange rhsRange : Range)
      (verdict : Verdict)
  | pathCut (block dead kept : String)
  | deadRemoved (block : String) (insts : Nat)
  | folded (block head : String)
  | orphanRemoved (block : String)
  deriving DecidableEq

namespace Event

def level : Event → Level
  | optionIgnored _ => .warn
  | started .. | finished .. | printed .. => .debug
  | stageSkipped _ | stageStarted _ | blocksLeft _ | compared .. | pathCut .. | deadRemoved ..
  | folded .. | orphanRemoved _ => .trace

def target : Event → String
  | optionIgnored _ | started .. | finished .. => "rangeprune_pruner"
  | stageSkipped _ | stageStarted _ | blocksLeft _ | printed .. => "rangeprune_pruner::passes"
  | compared .. => "rangeprune_pruner::passes::range_prune"
  | pathCut .. => "rangeprune_pruner::passes::prune_path"
  | deadRemoved .. => "rangeprune_pruner::passes::dead_blocks"
  | folded .. => "rangeprune_pruner::passes::merge_blocks"
  | orphanRemoved _ => "rangeprune_pruner::passes::prune_orphans"

def text : Event → String
  | optionIgnored text => "Unrecognized option: " ++ text
  | started func blocks => "Pruning `@" ++ func ++ "` (" ++ Text.decimal blocks ++ " blocks)"
  | finished func stats => "Finished `@" ++ func ++ "`: " ++ stats.summary
  | stageSkipped stage => "Skipping pass: " ++ stage.name
  | stageStarted stage => "Running pass: " ++ stage.name ++ " (" ++ stage.status ++ ")"
  | blocksLeft count => "block_count: " ++ Text.decimal count
  | printed stage text => "Printing function after pass: " ++ stage.name ++ "\n" ++ text
  | compared block pred _ _ lhsRange rhsRange verdict =>
    "`" ++ block ++ "`: icmp " ++ pred.mnemonic ++ " " ++ lhsRange.text ++ " " ++ rhsRange.text ++
      " is " ++ verdict.word
  | pathCut block dead kept =>
    "Pruning `" ++ block ++ "` -> `" ++ dead ++ "`, keeping `" ++ kept ++ "`"
  | deadRemoved block insts =>
    "Removed dead block `" ++ block ++ "` (" ++ Text.decimal insts ++ " instructions)"
  | folded block head => "Merging `" ++ block ++ "` into `" ++ head ++ "`"
  | orphanRemoved block => "Removed unreachable block `" ++ block ++ "`"

/-- The values whose ranges were looked up at an event, in order. -/
def asked : Event → List Value
  | compared _ _ lhs rhs _ _ _ => [lhs, rhs]
  | _ => []

end Event

end BranchTrim
