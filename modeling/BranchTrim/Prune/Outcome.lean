import BranchTrim.Flow.Function
import BranchTrim.Prune.Event

/-!
The outcome of a step of pruning: the function it leaves, what it removed, and its log.
-/

set_option autoImplicit false

namespace BranchTrim

structure Outcome where
  func : Function
  stats : Stats
  log : List Event

namespace Outcome

def unchanged (f : Function) : Outcome := ⟨f, Stats.zero, []⟩

def after (o : Outcome) (stats : Stats) (log : List Event) : Outcome :=
  ⟨o.func, stats + o.stats, log ++ o.log⟩

/-- Carries out a further step and adds up the work of both. -/
def andThen (o : Outcome) (step : Function → Except Fault Outcome) : Except Fault Outcome := do
  return (← step o.func).after o.stats o.log

def forEach (step : Function → Nat → Except Fault Outcome) :
    List Nat → Function → Except Fault Outcome
  | [], f => .ok (unchanged f)
  | i :: is, f => do (← step f i).andThen (forEach step is)

end Outcome

end BranchTrim
