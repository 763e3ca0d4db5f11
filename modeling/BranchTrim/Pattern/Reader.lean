import BranchTrim.Pattern.Syntax
import BranchTrim.Text.Blank
import BranchTrim.Text.Digit
import BranchTrim.Text.Letter

/-!
Reading patterns. Under the flag `x`, blanks and comments between the parts of a
pattern are skipped.

A pattern stands between braces and ends at the first closing one. So a count in braces or a
number in braces after a backslash never closes in it, and an opening brace outside of sets and
escapes is refused.
-/

set_option autoImplicit false

namespace BranchTrim.Pattern

/-- Drops blanks and comments from the front, if they do not count. A comment ends with its line. -/
def skip (isSpaced : Bool) : List Char → List Char
  | [] => []
  | c :: cs =>
    if !isSpaced then c :: cs
    else if Text.isBlank c then skip isSpaced cs
    else if c == '#' then comment cs
    else c :: cs
where
  comment : List Char → List Char
  | [] => []
  | c :: cs => if c == '\n' then skip isSpaced cs else comment cs

/-- The next character that counts, where a comment sign is passed over but not the comment. -/
def peek? (isSpaced : Bool) (cs : List Char) : Option Char :=
  if !isSpaced then cs.head?
  else match cs.dropWhile Text.isBlank with
    | '#' :: rest => rest.find? (!Text.isBlank ·)
    | rest => rest.head?

def hexDigits? (isSpaced : Bool) : Nat → Nat → List Char → Option (Nat × List Char)
  | 0, n, cs => some (n, cs)
  | count + 1, n, cs => do
    match skip isSpaced cs with
    | [] => none
    | c :: rest => hexDigits? isSpaced count (16 * n + (← Text.hexValue? c)) rest

def hexLiteral? (isSpaced : Bool) (count : Nat) (isByte : Bool) (cs : List Char) :
    Option (Pattern × List Char) := do
  let (n, rest) ← hexDigits? isSpaced count 0 cs
  guard n.isValidChar
  return (literal ⟨Char.ofNat n, isByte⟩, rest)

def controlLetters : List (Char × Char) :=
  [('a', '\x07'), ('f', '\x0c'), ('t', '\t'), ('n', '\n'), ('r', '\r'), ('v', '\x0b')]

/-- Whether a backslash before a character only takes its meaning away. -/
def isEscapable (c : Char) : Bool :=
  c.toNat < 0x80 && !c.isAlphanum && c != '<' && c != '>'

/-- Reads what stands after a backslash. There are no properties of characters. -/
def escape? (isSpaced : Bool) (cs : List Char) : Option (Pattern × List Char) := do
  match cs with
  | [] => none
  | c :: rest =>
    if c == 'x' then hexLiteral? isSpaced 2 true rest
    else if c == 'u' then hexLiteral? isSpaced 4 false rest
    else if c == 'U' then hexLiteral? isSpaced 8 false rest
    else if ['d', 's', 'w'].contains c then return (kind false, rest)
    else if ['D', 'S', 'W'].contains c then return (kind true, rest)
    else if ['A', 'z'].contains c then return (lineEdge, rest)
    else if ['b', 'B', '<', '>'].contains c then return (wordEdge, rest)
    else if isEscapable c then return (literal ⟨c, false⟩, rest)
    else return (literal ⟨← controlLetters.lookup c, false⟩, rest)

def single? (isSpaced : Bool) : List Char → Option (Pattern × List Char)
  | [] => none
  | '\\' :: cs => escape? isSpaced cs
  | c :: cs => some (literal ⟨c, false⟩, cs)

def setNames : List String :=
  ["alnum", "alpha", "ascii", "blank", "cntrl", "digit", "graph", "lower", "print",
    "punct", "space", "upper", "word", "xdigit"]

def namedSet? : List Char → Option (CharSet × List Char)
  | ':' :: cs =>
    let (isNegated, cs) := match cs with
      | '^' :: cs => (true, cs)
      | cs => (false, cs)
    let name := cs.takeWhile (· != ':')
    match cs.drop name.length with
    | ':' :: ']' :: rest =>
      if setNames.contains (String.ofList name) then some (.named isNegated, rest) else none
    | _ => none
  | _ => none

def setPart? (isSpaced : Bool) (cs : List Char) : Option (CharSet × List Char) := do
  let (first, rest) ← single? isSpaced cs
  match skip isSpaced rest with
  | [] => none
  | c :: after =>
    let isAlone := c != '-' || [some ']', some '-'].contains (peek? isSpaced after)
    match first with
    | literal lo =>
      if isAlone then return (.literal lo, c :: after)
      else
        let (last, rest) ← single? isSpaced (skip isSpaced after)
        match last with
        | literal hi =>
          guard (lo.char.toNat ≤ hi.char.toNat)
          return (.range lo hi, rest)
        | _ => none
    | kind isNegated =>
      guard isAlone
      return (.kind isNegated, c :: after)
    | _ => none

/-- Reads the hyphens at the front of a set, or else a closing bracket there: they
stand for themselves. -/
def setFront (isSpaced : Bool) : Nat → List CharSet → List Char → List CharSet × List Char
  | 0, parts, cs => (parts, cs)
  | fuel + 1, parts, cs =>
    match skip isSpaced cs with
    | '-' :: rest => setFront isSpaced fuel (parts ++ [.literal ⟨'-', false⟩]) rest
    | ']' :: rest =>
      if parts.isEmpty then ([.literal ⟨']', false⟩], rest) else (parts, ']' :: rest)
    | rest => (parts, rest)

def setSign (isSpaced : Bool) (cs : List Char) : Bool × List Char :=
  match skip isSpaced cs with
  | '^' :: rest => (true, rest)
  | rest => (false, rest)

def setOperator? : List Char → Option (SetOperator × List Char)
  | '&' :: '&' :: rest => some (.intersection, rest)
  | '-' :: '-' :: rest => some (.difference, rest)
  | '~' :: '~' :: rest => some (.symmetricDifference, rest)
  | _ => none

/-- The set that a left operand makes with the parts after its operator. -/
def joinSet (lhs : Option (SetOperator × CharSet)) (parts : List CharSet) : CharSet :=
  lhs.elim (.ofParts parts) fun (operator, lhs) => .combined operator lhs (.ofParts parts)

/-- Reads the rest of a set up to its closing bracket. Operators group from the left. -/
def setBody? (isSpaced : Bool) :
    Nat → Option (SetOperator × CharSet) → List CharSet → List Char →
      Option (CharSet × List Char)
  | 0, _, _, _ => none
  | fuel + 1, lhs, parts, cs => do
    let cs := skip isSpaced cs
    match setOperator? cs with
    | some (operator, rest) => setBody? isSpaced fuel (some (operator, joinSet lhs parts)) [] rest
    | none =>
      match cs with
      | [] => none
      | ']' :: rest => return (joinSet lhs parts, rest)
      | '[' :: rest =>
        match namedSet? rest with
        | some (named, rest) => setBody? isSpaced fuel lhs (parts ++ [named]) rest
        | none =>
          let (isNegated, rest) := setSign isSpaced rest
          let (front, rest) := setFront isSpaced rest.length [] rest
          let (body, rest) ← setBody? isSpaced fuel none front rest
          setBody? isSpaced fuel lhs (parts ++ [.bracketed isNegated body]) rest
      | cs =>
        let (part, rest) ← setPart? isSpaced cs
        setBody? isSpaced fuel lhs (parts ++ [part]) rest

def set? (isSpaced : Bool) (cs : List Char) : Option (CharSet × List Char) := do
  let (isNegated, rest) := setSign isSpaced cs
  let (front, rest) := setFront isSpaced rest.length [] rest
  let (body, rest) ← setBody? isSpaced (cs.length + 1) none front rest
  return (.bracketed isNegated body, rest)

def flagLetters : List Char := ['i', 'm', 's', 'U', 'u', 'R', 'x']

/-- Reads flags up to the mark after them. Each is given once, and those after a hyphen
are switched off. -/
def flags? (isOn : Bool) (change : FlagChange) : List Char → Option (FlagChange × List Char)
  | [] => none
  | '-' :: c :: cs =>
    if isOn && flagLetters.contains c && (change.lookup c).isNone then
      flags? false (change ++ [(c, false)]) cs
    else none
  | c :: cs =>
    if c == ':' || c == ')' then some (change, c :: cs)
    else if flagLetters.contains c && (change.lookup c).isNone then
      flags? isOn (change ++ [(c, isOn)]) cs
    else none

/-- What is known while a pattern is read: whether blanks are skipped, and the names
given to groups. -/
structure Reading where
  isSpaced : Bool
  names : List (List Char)

def Reading.after (r : Reading) (change : FlagChange) : Reading :=
  { r with isSpaced := (change.lookup 'x').getD r.isSpaced }

def isNameChar (c : Char) : Bool :=
  Text.isLetterOrNumber c || ['_', '.', '[', ']'].contains c

/-- Reads the name of a group up to its closing mark. No two groups have the same name. -/
def groupName? (r : Reading) (cs : List Char) : Option (Reading × List Char) := do
  let name := cs.takeWhile (· != '>')
  match name, cs.drop name.length with
  | c :: more, '>' :: rest =>
    guard ((c == '_' || Text.isLetter c) && more.all isNameChar && !r.names.contains name)
    return ({ r with names := name :: r.names }, rest)
  | _, _ => none

inductive Opening where
  | flags (change : FlagChange)
  | group (change : FlagChange)

/-- Reads what stands directly after an opening parenthesis. There are no tests of what
surrounds a match. -/
def opening? (r : Reading) (cs : List Char) : Option (Opening × Reading × List Char) := do
  match skip r.isSpaced cs with
  | '?' :: '<' :: '=' :: _ | '?' :: '<' :: '!' :: _ => none
  | '?' :: 'P' :: '<' :: rest | '?' :: '<' :: rest =>
    let (r, rest) ← groupName? r rest
    return (.group [], r, rest)
  | '?' :: rest =>
    match ← flags? true [] rest with
    | ([], ')' :: _) => none
    | (change, ')' :: rest) => return (.flags change, r, rest)
    | (change, ':' :: rest) => return (.group change, r, rest)
    | _ => none
  | rest => return (.group [], r, rest)

/-- The pattern of finished choices and of the parts of the last one, each with the
newest in front. -/
def close (choices parts : List Pattern) : Pattern :=
  .ofChoices (.ofParts parts.reverse :: choices).reverse

def dropShort : List Char → List Char
  | '?' :: cs => cs
  | cs => cs

/-- Reads a pattern up to a closing parenthesis or the end, after finished choices and parts with
the newest in front. -/
def body? :
    Nat → Reading → List Pattern → List Pattern → List Char →
      Option (Pattern × Reading × List Char)
  | 0, _, _, _, _ => none
  | fuel + 1, r, choices, parts, cs => do
    match skip r.isSpaced cs with
    | [] => return (close choices parts, r, [])
    | ')' :: rest => return (close choices parts, r, ')' :: rest)
    | '|' :: rest => body? fuel r (.ofParts parts.reverse :: choices) [] rest
    | '(' :: rest =>
      match ← opening? r rest with
      | (.flags change, _, rest) =>
        body? fuel (r.after change) choices (.flags change :: parts) rest
      | (.group change, inner, rest) =>
        match ← body? fuel (inner.after change) [] [] rest with
        | (body, inner, ')' :: rest) =>
          body? fuel { inner with isSpaced := r.isSpaced } choices
            (.group change body :: parts) rest
        | _ => none
    | '[' :: rest =>
      let (s, rest) ← set? r.isSpaced rest
      body? fuel r choices (.set s :: parts) rest
    | c :: rest =>
      if c == '*' || c == '+' || c == '?' then
        match parts with
        | [] | .flags _ :: _ => none
        | p :: parts => body? fuel r choices (.repeated p :: parts) (dropShort rest)
      else if c == '\x7b' then none
      else if c == '.' then body? fuel r choices (.dot :: parts) rest
      else if c == '^' || c == '$' then body? fuel r choices (.lineEdge :: parts) rest
      else
        let (p, rest) ← single? r.isSpaced (c :: rest)
        body? fuel r choices (p :: parts) rest

def read? (cs : List Char) : Option Pattern := do
  match ← body? (cs.length + 1) ⟨false, []⟩ [] [] cs with
  | (p, _, []) => return p
  | _ => none

end BranchTrim.Pattern
