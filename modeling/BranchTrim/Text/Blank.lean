/-!
Blank characters and the words between them. The blank characters are those with the
Unicode property White_Space.
-/

set_option autoImplicit false

namespace BranchTrim.Text

/-- The code points with the property White_Space, as closed intervals. -/
def blankIntervals : List (Nat × Nat) :=
  [(0x09, 0x0D), (0x20, 0x20), (0x85, 0x85), (0xA0, 0xA0), (0x1680, 0x1680), (0x2000, 0x200A),
    (0x2028, 0x2029), (0x202F, 0x202F), (0x205F, 0x205F), (0x3000, 0x3000)]

def isBlank (c : Char) : Bool :=
  blankIntervals.any fun (lo, hi) => decide (lo ≤ c.toNat) && decide (c.toNat ≤ hi)

/-- The words of a text: its longest pieces without blank characters. -/
def words (cs : List Char) : List (List Char) :=
  (cs.splitOnP isBlank).filter fun word => !word.isEmpty

end BranchTrim.Text
