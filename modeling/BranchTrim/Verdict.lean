import BranchTrim.Predicate
import BranchTrim.Range

/-!
Verdicts on comparisons whose operands are known only by their ranges. With the left operand in `[a,
b]` and the right one in `[c, d]`,

* `>` never holds when `b ≤ c` and always when `a > d`,
* `≥` never holds when `b < c` and always when `a ≥ d`,
* `<` never holds when `a ≥ d` and always when `b < c`,
* `≤` never holds when `a > d` and always when `b ≤ c`.

(In)equality is decided between two single words only. Unsigned predicates follow the same rules on
the unsigned bounds of the ranges.
-/

set_option autoImplicit false

namespace BranchTrim

inductive Verdict where
  | alwaysTrue
  | alwaysFalse
  | unknown
  deriving DecidableEq, Repr

namespace Verdict

def isDecisive : Verdict → Bool
  | alwaysTrue | alwaysFalse => true
  | unknown => false

def word : Verdict → String
  | alwaysTrue => "AlwaysTrue"
  | alwaysFalse => "AlwaysFalse"
  | unknown => "Unknown"

/-- The verdict of two tests, of which the first one wins. -/
def ofTests (never always : Bool) : Verdict :=
  if never then alwaysFalse else if always then alwaysTrue else unknown

/-- The verdict on a relation between an element of `[a, b]` and one of `[c, d]`. -/
def ofBounds {α : Type} [DecidableEq α] [LT α] [DecidableLT α] [LE α] [DecidableLE α]
    (rel : Relation) (a b c d : α) : Verdict :=
  match rel with
  | .gt => ofTests (b ≤ c) (d < a)
  | .ge => ofTests (b < c) (d ≤ a)
  | .lt => ofTests (d ≤ a) (b < c)
  | .le => ofTests (d < a) (b ≤ c)
  | .eq => if a = b ∧ c = d then ofTests (a ≠ c) (a = c) else unknown
  | .ne => if a = b ∧ c = d then ofTests (a = c) (a ≠ c) else unknown

def classify (pred : Predicate) (lhs rhs : Range) : Verdict :=
  if pred.isUnsigned then
    ofBounds pred.relation lhs.unsignedBounds.1 lhs.unsignedBounds.2
      rhs.unsignedBounds.1 rhs.unsignedBounds.2
  else
    ofBounds pred.relation lhs.lo lhs.hi rhs.lo rhs.hi

end Verdict

end BranchTrim
