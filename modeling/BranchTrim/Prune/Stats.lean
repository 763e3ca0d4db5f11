import BranchTrim.Text.Decimal

/-!
Statistics on what pruning removed. Every step counts its own work, and the counts are added up.
-/

set_option autoImplicit false

namespace BranchTrim

structure Stats where
  /-- Instructions erased with their blocks, terminators included. -/
  instsEliminated : Nat
  /-- Blocks erased. -/
  blocksEliminated : Nat
  /-- Blocks folded into their predecessor. -/
  blocksMerged : Nat
  /-- Conditional branches turned into jumps. -/
  branchesPruned : Nat
  deriving DecidableEq, Repr

namespace Stats

def zero : Stats := ⟨0, 0, 0, 0⟩

def erased (insts : Nat) : Stats := ⟨insts, 1, 0, 0⟩

def merged : Stats := ⟨0, 0, 1, 0⟩

def pruned : Stats := ⟨0, 0, 0, 1⟩

instance : Add Stats where
  add s t := ⟨s.instsEliminated + t.instsEliminated, s.blocksEliminated + t.blocksEliminated,
    s.blocksMerged + t.blocksMerged, s.branchesPruned + t.branchesPruned⟩

def sum (stats : List Stats) : Stats :=
  stats.foldl (· + ·) zero

def summary (s : Stats) : String :=
  Text.decimal s.branchesPruned ++ " branches pruned, " ++
    Text.decimal s.instsEliminated ++ " instructions eliminated, " ++
    Text.decimal s.blocksEliminated ++ " blocks eliminated, " ++
    Text.decimal s.blocksMerged ++ " blocks merged"

end Stats

end BranchTrim
