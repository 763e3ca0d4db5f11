import BranchTrim.Text.Decimal

/-!
Ranges: closed, non-empty intervals of signed words that bound the values an expression can take.
-/

set_option autoImplicit false

namespace BranchTrim

structure Range where
  lo : Int64
  hi : Int64
  lo_le_hi : lo ≤ hi
  deriving DecidableEq

namespace Range

/-- The interval with the given ends, unless the lower end lies above the upper one. -/
def ofBounds? (lo hi : Int64) : Option Range :=
  if h : lo ≤ hi then some ⟨lo, hi, h⟩ else none

def full : Range := ⟨Int64.minValue, Int64.maxValue, by decide⟩

def singleton (x : Int64) : Range := ⟨x, x, Int64.le_refl x⟩

def isSingleton (r : Range) : Bool :=
  r.lo == r.hi

def contains (r : Range) (x : Int64) : Bool :=
  decide (r.lo ≤ x) && decide (x ≤ r.hi)

/--
Bounds of the interval when its words are read as unsigned integers. Negative words are the
upper half of the unsigned ones, so an interval on both sides of zero has no tighter bounds than
all of them.
-/
def unsignedBounds (r : Range) : UInt64 × UInt64 :=
  if r.lo < 0 ∧ 0 ≤ r.hi then (0, -1) else (r.lo.toUInt64, r.hi.toUInt64)

/-- The notation of an interval with ends that need not be in order. -/
def boundsText (lo hi : Int64) : String :=
  "[" ++ Text.decimal lo.toInt ++ ", " ++ Text.decimal hi.toInt ++ "]"

def text (r : Range) : String :=
  boundsText r.lo r.hi

end Range

end BranchTrim
