import BranchTrim.Flow.Function

/-!
Running a function on concrete arguments. A run yields a trace: the calls it makes and the value it
returns. Calls are not carried out; they give 0.
-/

set_option autoImplicit false

namespace BranchTrim

structure Call where
  callee : String
  args : List Int64
  deriving DecidableEq, Repr

structure Trace where
  calls : List Call
  result : Option Int64
  deriving DecidableEq, Repr

inductive Stop where
  /-- A value is used that has not been computed yet. -/
  | undefined (name : String)
  /-- The function did not return within the given number of blocks. -/
  | unfinished (func : String)
  /-- The function has no such block or value. -/
  | fault (cause : Fault)
  deriving DecidableEq, Repr

def Stop.message? : Stop → Option String
  | undefined name => some ("`%" ++ name ++ "` used before it was defined")
  | unfinished func => some ("`@" ++ func ++ "` did not return")
  | fault cause => cause.message?

/-- The state of a run: the values computed so far, and the calls made so far, the last
one in front. -/
structure RunState where
  values : List (Nat × Int64)
  calls : List Call

namespace RunState

/-- The state in which parameters have their arguments. Those without an argument
are not defined. -/
def initial (params : List Nat) (args : List Int64) : RunState := ⟨params.zip args, []⟩

def define (s : RunState) (id : Nat) (word : Int64) : RunState :=
  { s with values := (id, word) :: s.values.filter fun entry => entry.1 != id }

end RunState

namespace Function

def read (f : Function) (s : RunState) : Value → Except Stop Int64
  | .const word => .ok word
  | .var id =>
    match s.values.lookup id with
    | some word => .ok word
    | none =>
      match f.valueName id with
      | .ok name => .error (.undefined name)
      | .error fault => .error (.fault fault)

def compute : Operation Int64 → Int64 × List Call
  | .compare pred lhs rhs => (if pred.evaluate lhs rhs then 1 else 0, [])
  | .binary op lhs rhs => (op.evaluate lhs rhs, [])
  | .copy word => (word, [])
  | .call callee args => (0, [⟨callee, args⟩])

def step (f : Function) (s : RunState) (inst : Inst) : Except Stop RunState := do
  let op ← inst.op.mapOperands (f.read s)
  let (word, calls) := compute op
  let s := { s with calls := calls ++ s.calls }
  match inst.result with
  | some id => return s.define id word
  | none => return s

/-- Runs a function from a block on, for at most the given number of blocks. -/
def runFrom (f : Function) : Nat → Nat → RunState → Except Stop Trace
  | 0, _, _ => .error (.unfinished f.name)
  | limit + 1, i, s =>
    match f.graph.block? i with
    | none => .error (.fault .missingBlock)
    | some b => do
      let s ← b.insts.foldlM f.step s
      match b.term with
      | .jump target => f.runFrom limit target s
      | .branch cond whenTrue whenFalse =>
        let word ← f.read s cond
        f.runFrom limit (if word ≠ 0 then whenTrue else whenFalse) s
      | .ret none => return ⟨s.calls.reverse, none⟩
      | .ret (some value) => return ⟨s.calls.reverse, some (← f.read s value)⟩

def run (limit : Nat) (f : Function) (args : List Int64) : Except Stop Trace :=
  f.runFrom limit f.entry (.initial f.params args)

def blockLimit : Nat := 10000

end Function

def wordsBetween (lo hi : Int64) : List Int64 :=
  (List.range (hi.toInt - lo.toInt + 1).toNat).map fun (k : Nat) => Int64.ofInt (lo.toInt + k)

/-- All lists of arguments with each one between its two ends, the last one changing fastest. -/
def argumentLists (ends : List (Int64 × Int64)) : List (List Int64) :=
  ends.foldl (fun lists (lo, hi) =>
    lists.flatMap fun args => (wordsBetween lo hi).map fun x => args ++ [x]) [[]]

end BranchTrim
