import BranchTrim.Flow.Function
import BranchTrim.Range

/-!
Where ranges come from. An oracle may look at the function as it is at the moment; a table of
ranges does not.
-/

set_option autoImplicit false

namespace BranchTrim

/-- Bounds the values that an operand can take. The bounds have to hold in every run, or wrong
paths are cut. -/
abbrev Oracle := Value → Function → Range

/-- Ranges known in advance, at most one for each value. -/
structure RangeTable where
  entries : List (Nat × Range)

namespace RangeTable

def empty : RangeTable := ⟨[]⟩

def get? (t : RangeTable) (id : Nat) : Option Range :=
  t.entries.lookup id

def insert (t : RangeTable) (id : Nat) (range : Range) : RangeTable :=
  ⟨(id, range) :: t.entries.filter fun entry => entry.1 != id⟩

/-- The table of a list of ranges, of which the last one for a value counts. -/
def ofList (ranges : List (Nat × Range)) : RangeTable :=
  ranges.foldl (fun t (id, range) => t.insert id range) empty

def size (t : RangeTable) : Nat :=
  t.entries.length

/-- Answers with the noted range, with every word if there is none, and with a single word
for a constant. -/
def oracle (t : RangeTable) : Oracle
  | .const word, _ => Range.singleton word
  | .var id, _ => (t.get? id).getD Range.full

end RangeTable

end BranchTrim
