import BranchTrim.Flow.Function
import BranchTrim.Text.Decimal

/-!
Printing functions. A label starts a line, instructions and terminators are indented by two blanks,
and the closing brace ends the text without a line break.
-/

set_option autoImplicit false

namespace BranchTrim

def commaSeparated (items : List String) : String :=
  ", ".intercalate items

/-- The notation of an operation with its operands already written. -/
def Operation.text : Operation String → String
  | compare pred lhs rhs => "icmp " ++ pred.mnemonic ++ " " ++ commaSeparated [lhs, rhs]
  | binary op lhs rhs => op.mnemonic ++ " " ++ commaSeparated [lhs, rhs]
  | copy value => "copy " ++ value
  | call callee args => "call @" ++ callee ++ "(" ++ commaSeparated args ++ ")"

/-- The notation of a terminator with its parts already written. -/
def Terminator.text : Terminator String String → String
  | jump target => "jmp " ++ target
  | branch cond whenTrue whenFalse => "br " ++ commaSeparated [cond, whenTrue, whenFalse]
  | ret none => "ret"
  | ret (some value) => "ret " ++ value

namespace Function

def varText (f : Function) (id : Nat) : Except Fault String := do
  return "%" ++ (← f.valueName id)

def valueText (f : Function) : Value → Except Fault String
  | .var id => f.varText id
  | .const word => .ok (Text.decimal word.toInt)

def instLine (f : Function) (inst : Inst) : Except Fault String := do
  let op ← inst.op.mapOperands f.valueText
  match inst.result with
  | none => return "  " ++ op.text ++ "\n"
  | some id => return "  " ++ (← f.varText id) ++ " = " ++ op.text ++ "\n"

def termLine (f : Function) (term : Terminator Value Nat) : Except Fault String := do
  return "  " ++ (← term.mapParts f.valueText f.blockName).text ++ "\n"

def blockLines (f : Function) (i : Nat) : Except Fault String := do
  let b ← f.block i
  let insts ← b.insts.mapM f.instLine
  return b.name ++ ":\n" ++ String.join insts ++ (← f.termLine b.term)

def print (f : Function) : Except Fault String := do
  let params ← f.params.mapM f.varText
  let blocks ← f.blockIds.mapM f.blockLines
  return "func @" ++ f.name ++ "(" ++ commaSeparated params ++ ") \x7b\n" ++
    String.join blocks ++ "\x7d"

end Function

end BranchTrim
