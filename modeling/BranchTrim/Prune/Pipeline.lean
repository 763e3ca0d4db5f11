import BranchTrim.Prune.Branches
import BranchTrim.Prune.Options
import BranchTrim.Prune.Sweep
import BranchTrim.Text.Printer

/-!
Pruning a function: the branches that ranges decide are cut, and then what the entry does not
reach is swept.
-/

set_option autoImplicit false

namespace BranchTrim

namespace Stage

def isEnabled (options : Options) : Stage → Bool
  | branches => true
  | orphans => options.sweepUnreachable

def work (oracle : Oracle) (options : Options) : Stage → Function → Except Fault Outcome
  | branches => Function.cutBranches oracle options.mergeBlocks
  | orphans => Function.sweep options.mergeBlocks

def check (options : Options) (stage : Stage) (f : Function) : Except Fault Unit :=
  if options.verifyEach then
    match f.verifyEdges with
    | .ok () => .ok ()
    | .error defect => .error (.malformed f.name stage.name defect)
  else .ok ()

def printing (options : Options) (stage : Stage) (f : Function) : Except Fault (List Event) := do
  if options.printAfterAll then return [.printed stage (← f.print)] else return []

def run (oracle : Oracle) (options : Options) (stage : Stage) (f : Function) :
    Except Fault Outcome := do
  if stage.isEnabled options then
    let o ← stage.work oracle options f
    stage.check options o.func
    let printed ← stage.printing options o.func
    return { o with
      log := .stageStarted stage :: o.log ++ .blocksLeft o.func.blockCount :: printed }
  else return (Outcome.unchanged f).after .zero [.stageSkipped stage]

end Stage

namespace Function

def prune (oracle : Oracle) (options : Options) (f : Function) : Except Fault Outcome := do
  let cut ← Stage.branches.run oracle options f
  let o ← cut.andThen (Stage.orphans.run oracle options)
  return { o with
    log := .started f.name f.blockCount :: o.log ++ [.finished o.func.name o.stats] }

end Function

end BranchTrim
