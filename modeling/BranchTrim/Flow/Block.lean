import BranchTrim.Predicate

/-!
The parts of a function: values, instructions, terminators and blocks. Operations and terminators
leave open how operands and targets are given, so that the same shapes serve for text, where they
are names, and for the control flow graph, where they are numbers: a function numbers its parameters
and instruction results, and it numbers its blocks.
-/

set_option autoImplicit false

namespace BranchTrim

inductive Value where
  | var (id : Nat)
  | const (word : Int64)
  deriving DecidableEq, Repr

/-- What an instruction computes, over operands of type `ν`. -/
inductive Operation (ν : Type) where
  | compare (pred : Predicate) (lhs rhs : ν)
  | binary (op : BinOp) (lhs rhs : ν)
  | copy (value : ν)
  | call (callee : String) (args : List ν)
  deriving DecidableEq, Repr

namespace Operation

def operands {ν : Type} : Operation ν → List ν
  | compare _ lhs rhs => [lhs, rhs]
  | binary _ lhs rhs => [lhs, rhs]
  | copy value => [value]
  | call _ args => args

/-- Replaces every operand, in the order in which they are read, and stops at the first failure. -/
def mapOperands {ν μ ε : Type} (f : ν → Except ε μ) :
    Operation ν → Except ε (Operation μ)
  | compare pred lhs rhs => do return compare pred (← f lhs) (← f rhs)
  | binary op lhs rhs => do return binary op (← f lhs) (← f rhs)
  | copy value => do return copy (← f value)
  | call callee args => do return call callee (← args.mapM f)

end Operation

/-- An instruction: an operation and, if it is kept, the value that names its result. -/
structure Inst where
  result : Option Nat
  op : Operation Value
  deriving DecidableEq, Repr

/-- The place in a terminator that a target stands in. -/
inductive Arm where
  | jump
  | whenTrue
  | whenFalse
  deriving DecidableEq, Repr

/-- How a block ends, over conditions and results of type `ν` and targets of type `β`. -/
inductive Terminator (ν β : Type) where
  | jump (target : β)
  | branch (cond : ν) (whenTrue whenFalse : β)
  | ret (value : Option ν)
  deriving DecidableEq, Repr

namespace Terminator

variable {ν μ β γ ε : Type}

def arms : Terminator ν β → List (Arm × β)
  | jump target => [(.jump, target)]
  | branch _ whenTrue whenFalse => [(.whenTrue, whenTrue), (.whenFalse, whenFalse)]
  | ret _ => []

def targets (t : Terminator ν β) : List β :=
  t.arms.map Prod.snd

theorem length_targets_le (t : Terminator ν β) : t.targets.length ≤ 2 := by
  cases t <;> simp [targets, arms]

def isBranch : Terminator ν β → Bool
  | branch .. => true
  | jump _ | ret _ => false

/-- Replaces the condition or result, then the targets, and stops at the first failure. -/
def mapParts (f : ν → Except ε μ) (g : β → Except ε γ) :
    Terminator ν β → Except ε (Terminator μ γ)
  | jump target => do return jump (← g target)
  | branch cond whenTrue whenFalse => do
    return branch (← f cond) (← g whenTrue) (← g whenFalse)
  | ret none => .ok (ret none)
  | ret (some value) => do return ret (some (← f value))

end Terminator

structure Block where
  name : String
  insts : List Inst
  term : Terminator Value Nat
  deriving DecidableEq, Repr

namespace Block

def returning (name : String) : Block := ⟨name, [], .ret none⟩

/-- The number of instructions, the terminator among them. -/
def size (b : Block) : Nat :=
  b.insts.length + 1

end Block

end BranchTrim
