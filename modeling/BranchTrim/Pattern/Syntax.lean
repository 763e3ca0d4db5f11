/-!
Patterns for the values of fields: regular expressions with sets of characters, groups,
flags and repetition.
-/

set_option autoImplicit false

namespace BranchTrim

structure Literal where
  char : Char
  /-- Whether it is given as a byte, by two hexadecimal digits. -/
  isByte : Bool
  deriving DecidableEq, Repr

inductive SetOperator where
  | intersection
  | difference
  | symmetricDifference
  deriving DecidableEq, Repr

inductive CharSet where
  | literal (literal : Literal)
  | range (first last : Literal)
  /-- A set with a name between colons. -/
  | named (isNegated : Bool)
  /-- The digits, blanks or word characters. -/
  | kind (isNegated : Bool)
  | union (parts : List CharSet)
  | combined (operator : SetOperator) (lhs rhs : CharSet)
  | bracketed (isNegated : Bool) (body : CharSet)

/-- Flags that are switched on or off, by their letters. -/
abbrev FlagChange := List (Char × Bool)

inductive Pattern where
  | literal (literal : Literal)
  | dot
  /-- The start or the end of a line or of the text. -/
  | lineEdge
  /-- A place where a word starts or ends, or where none does. -/
  | wordEdge
  /-- The digits, blanks or word characters. -/
  | kind (isNegated : Bool)
  | set (set : CharSet)
  /-- A change of flags up to the end of the enclosing group. -/
  | flags (change : FlagChange)
  | group (change : FlagChange) (body : Pattern)
  | repeated (body : Pattern)
  | sequence (parts : List Pattern)
  | choice (parts : List Pattern)

namespace CharSet

/-- The union of sets; that of a single one is the set itself. -/
def ofParts : List CharSet → CharSet
  | [s] => s
  | parts => union parts

mutual

def depth : CharSet → Nat
  | literal _ | range .. | named _ | kind _ | union [] => 0
  | union (s :: parts) => 1 + max s.depth (depthOfParts parts)
  | combined _ lhs rhs => 1 + max lhs.depth rhs.depth
  | bracketed _ body => 1 + body.depth

def depthOfParts : List CharSet → Nat
  | [] => 0
  | s :: parts => max s.depth (depthOfParts parts)

end

end CharSet

namespace Pattern

/-- Patterns one after the other; a single one stands for itself. -/
def ofParts : List Pattern → Pattern
  | [p] => p
  | parts => sequence parts

/-- A choice between patterns; a single one is no choice. -/
def ofChoices : List Pattern → Pattern
  | [p] => p
  | parts => choice parts

mutual

def depth : Pattern → Nat
  | literal _ | dot | lineEdge | wordEdge | kind _ | flags _ | sequence [] | choice [] => 0
  | set s => s.depth
  | group _ body | repeated body => 1 + body.depth
  | sequence (p :: parts) | choice (p :: parts) => 1 + max p.depth (depthOfParts parts)

def depthOfParts : List Pattern → Nat
  | [] => 0
  | p :: parts => max p.depth (depthOfParts parts)

end

def maxDepth : Nat := 250

end Pattern

end BranchTrim
