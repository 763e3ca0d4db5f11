import BranchTrim.Flow.Function
import BranchTrim.Text.Draft.Body

/-!
Functions read from text. A draft is resolved by numbering its values (parameters first,
then results in the order of the text) and its blocks, and by replacing every name by the
number it stands for.
-/

set_option autoImplicit false

namespace BranchTrim

structure Parsed where
  func : Function
  ranges : List (Nat × Range)

namespace Draft

/-- The names given to results in a list of blocks, in the order of the text. -/
def resultsIn (blocks : List DraftBlock) : List Definition :=
  (blocks.flatMap DraftBlock.insts).filterMap fun inst => inst.result.map (⟨inst.line, ·⟩)

/-- Refuses a name that is given twice, where it is given again. -/
def checkDistinct (seen : List String) : List Definition → Except ParseError Unit
  | [] => .ok ()
  | d :: ds =>
    if d.name ∈ seen then .error (.onLine d.line (.redefinition d.name))
    else checkDistinct (d.name :: seen) ds

def valueId (names : List String) (line : Nat) (name : String) : Except ParseError Nat :=
  match names.findIdx? (· == name) with
  | some id => .ok id
  | none => .error (.onLine line (.unknownValue name))

def blockId (labels : List String) (line : Nat) (label : String) : Except ParseError Nat :=
  match labels.findIdx? (· == label) with
  | some id => .ok id
  | none => .error (.onLine line (.unknownBlock label))

def resolveOperand (names : List String) (line : Nat) : Operand → Except ParseError Value
  | .named name => do return .var (← valueId names line name)
  | .const word => .ok (.const word)

/-- Resolves an instruction: its operands, and then the name of its result. -/
def resolveInst (names : List String) (inst : DraftInst) : Except ParseError Inst := do
  let op ← inst.op.mapOperands (resolveOperand names inst.line)
  let result ← inst.result.mapM (valueId names inst.line)
  return ⟨result, op⟩

/-- Resolves a block: its instructions, and then its terminator. -/
def resolveBlock (names labels : List String) (block : DraftBlock) : Except ParseError Block := do
  let insts ← block.insts.mapM (resolveInst names)
  match block.term with
  | none => .error (.onLine block.line (.missingTerminator block.name))
  | some (line, term) =>
    let term ← term.mapParts (resolveOperand names line) (blockId labels line)
    return ⟨block.name, insts, term⟩

def resolveNote (names : List String) (a : RangeNote) :
    Except ParseError (Nat × Range) := do
  return (← valueId names a.line a.name, a.range)

theorem params_lt_definitions (draft : Draft) (id : Nat)
    (mem : id ∈ List.range draft.params.length) :
    id < ((draft.params ++ resultsIn draft.blocks).map Definition.name).length := by
  have early := List.mem_range.mp mem
  rw [List.length_map, List.length_append]
  omega

def resolve (draft : Draft) : Except ParseError Parsed := do
  let definitions := draft.params ++ resultsIn draft.blocks
  let names := definitions.map Definition.name
  let labels := draft.blocks.map DraftBlock.name
  match draft.blocks with
  | [] => .error (.onLine draft.line (.emptyFunction draft.name))
  | first :: rest =>
    checkDistinct [] definitions
    let entry ← resolveBlock names labels first
    let blocks ← rest.mapM (resolveBlock names labels)
    let ranges ← draft.notes.mapM (resolveNote names)
    let func : Function :=
      { name := draft.name
        params := List.range draft.params.length
        valueNames := names
        graph := Graph.ofBlocks (entry :: blocks)
        entry_live := rfl
        params_numbered := draft.params_lt_definitions }
    return ⟨func, ranges⟩

end Draft

namespace Parsed

-- The equation in the match below is used by `decreasing_by`, which the linter misses.
set_option linter.unusedVariables false in
def ofLexemes (ts : List Lexeme) : Except ParseError (List Parsed) :=
  match ts with
  | [] => .ok []
  | t :: ts =>
    match h : Draft.function (t :: ts) with
    | .error e => .error e
    | .ok (draft, rest) => do
      let parsed ← draft.resolve
      return parsed :: (← ofLexemes rest)
termination_by ts.length
decreasing_by exact Draft.length_function h

def readAll (text : String) : Except ParseError (List Parsed) := do
  ofLexemes (← Lexeme.ofText text)

def readOne (text : String) : Except ParseError Parsed := do
  match ← readAll text with
  | [parsed] => return parsed
  | [] => .error (.atEnd .func)
  | functions => .error ⟨none, .notSingleFunction functions.length⟩

end Parsed

end BranchTrim
