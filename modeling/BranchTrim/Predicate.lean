/-!
Comparison predicates and arithmetic operators on signed 64-bit words. A predicate is a relation
together with a reading of its operands: as signed integers, or as the unsigned integers with
the same bits.
-/

set_option autoImplicit false

namespace BranchTrim

/-- An order relation or (in)equality, with the reading of its operands left open. -/
inductive Relation where
  | gt
  | ge
  | lt
  | le
  | eq
  | ne
  deriving DecidableEq, Repr

def Relation.holds {α : Type} [DecidableEq α] [LT α] [DecidableLT α] [LE α] [DecidableLE α] :
    Relation → α → α → Bool
  | .gt, x, y => decide (y < x)
  | .ge, x, y => decide (y ≤ x)
  | .lt, x, y => decide (x < y)
  | .le, x, y => decide (x ≤ y)
  | .eq, x, y => decide (x = y)
  | .ne, x, y => decide (x ≠ y)

def Relation.word : Relation → String
  | .gt => "gt"
  | .ge => "ge"
  | .lt => "lt"
  | .le => "le"
  | .eq => "eq"
  | .ne => "ne"

/-- A comparison of two words. The order comparisons come in a signed and an unsigned form. -/
inductive Predicate where
  | eq
  | ne
  | sgt
  | sge
  | slt
  | sle
  | ugt
  | uge
  | ult
  | ule
  deriving DecidableEq, Repr

namespace Predicate

def all : List Predicate := [eq, ne, sgt, sge, slt, sle, ugt, uge, ult, ule]

def relation : Predicate → Relation
  | eq => .eq
  | ne => .ne
  | sgt | ugt => .gt
  | sge | uge => .ge
  | slt | ult => .lt
  | sle | ule => .le

/-- Whether the operands are read as unsigned integers. Equality is the same under both readings. -/
def isUnsigned : Predicate → Bool
  | ugt | uge | ult | ule => true
  | eq | ne | sgt | sge | slt | sle => false

def evaluate (pred : Predicate) (lhs rhs : Int64) : Bool :=
  if pred.isUnsigned then pred.relation.holds lhs.toUInt64 rhs.toUInt64
  else pred.relation.holds lhs rhs

def mnemonic : Predicate → String
  | eq => "eq"
  | ne => "ne"
  | sgt => "sgt"
  | sge => "sge"
  | slt => "slt"
  | sle => "sle"
  | ugt => "ugt"
  | uge => "uge"
  | ult => "ult"
  | ule => "ule"

def ofMnemonic? (word : String) : Option Predicate :=
  all.find? fun pred => pred.mnemonic == word

end Predicate

inductive BinOp where
  | add
  | sub
  | mul
  | and
  | or
  | xor
  deriving DecidableEq, Repr

namespace BinOp

def all : List BinOp := [add, sub, mul, and, or, xor]

/-- The operator on concrete operands, modulo 2^64. -/
def evaluate : BinOp → Int64 → Int64 → Int64
  | add, x, y => x + y
  | sub, x, y => x - y
  | mul, x, y => x * y
  | and, x, y => x &&& y
  | or, x, y => x ||| y
  | xor, x, y => x ^^^ y

def mnemonic : BinOp → String
  | add => "add"
  | sub => "sub"
  | mul => "mul"
  | and => "and"
  | or => "or"
  | xor => "xor"

def ofMnemonic? (word : String) : Option BinOp :=
  all.find? fun op => op.mnemonic == word

end BinOp

end BranchTrim
