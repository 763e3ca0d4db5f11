import BranchTrim.Flow.Block
import BranchTrim.Text.Lexeme

/-!
Drafts: functions as they are written, with names for values and blocks and with the lines they
stand on. A draft is read from lexemes alone; what its names refer to is settled later.
-/

set_option autoImplicit false

namespace BranchTrim

inductive Operand where
  | named (name : String)
  | const (word : Int64)
  deriving DecidableEq, Repr

/-- A name that is given to a value, and the line this happens on. -/
structure Definition where
  line : Nat
  name : String
  deriving DecidableEq, Repr

structure DraftInst where
  line : Nat
  result : Option String
  op : Operation Operand
  deriving DecidableEq, Repr

/-- A block as it is written. It has no terminator until one is read. -/
structure DraftBlock where
  line : Nat
  name : String
  insts : List DraftInst
  term : Option (Nat × Terminator Operand String)
  deriving DecidableEq, Repr

structure RangeNote where
  line : Nat
  name : String
  range : Range
  deriving DecidableEq

structure Draft where
  line : Nat
  name : String
  params : List Definition
  notes : List RangeNote
  blocks : List DraftBlock
  deriving DecidableEq

end BranchTrim
