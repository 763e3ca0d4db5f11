import BranchTrim.Toml.Scalar
import BranchTrim.Toml.Tree

/-!
Reading values of TOML documents together with their text. Carriage returns between values are not
kept; those inside of quoted texts are.
-/

set_option autoImplicit false

namespace BranchTrim.Toml

/-- Text between values without its carriage returns. -/
def trivia (cs : List Char) : String :=
  String.ofList (cs.filter (· != '\r'))

def comment? (cs : List Char) : Option (List Char) :=
  match cs with
  | '#' :: cs =>
    let rest := cs.dropWhile isTextChar
    if rest.isEmpty ∨ (lineBreak? rest).isSome then some rest else none
  | cs => some cs

def dropTrivia? : Nat → List Char → Option (List Char)
  | 0, cs => some cs
  | fuel + 1, cs => do
    let rest ← comment? (dropBlanks cs)
    match lineBreak? rest with
    | some rest => dropTrivia? fuel rest
    | none => return rest

def trivia? (cs : List Char) : Option (String × List Char) := do
  let rest ← dropTrivia? cs.length cs
  return (trivia (consumed cs rest), rest)

def arrayItems? (item : List Char → Option (Written × List Char)) :
    Nat → List Char → Option ((List Value × String) × List Char)
  | 0, _ => none
  | fuel + 1, cs => do
    let (before, cs) ← trivia? cs
    match cs with
    | ']' :: rest => return (([], before ++ "]"), rest)
    | cs =>
      let ((x, text), rest) ← item cs
      let (after, rest) ← trivia? rest
      match rest with
      | ',' :: rest =>
        let ((xs, texts), rest) ← arrayItems? item fuel rest
        return ((x :: xs, before ++ text ++ after ++ "," ++ texts), rest)
      | ']' :: rest => return (([x], before ++ text ++ after ++ "]"), rest)
      | _ => none

/-- The pairs of an inline table so far: their names with their values, and their notation. -/
structure InlinePairs where
  pairs : List (List String × Value)
  items : Items Written

/-- An inline table with what stands in front of its first key. Its pairs are in the order of its
names, and there is no comma after the last one. -/
def InlinePairs.written (p : InlinePairs) (front : String) : Written :=
  (.table p.pairs,
    "\x7b" ++ front ++ ",".intercalate ((Items.values [] p.items).map pairText) ++ "\x7d")

/-- Reads the pairs of an inline table up to its closing brace. What stands after a last comma goes
to the front. -/
def inlinePairs? (item : List Char → Option (Written × List Char)) :
    Nat → InlinePairs → List Char → Option (Written × List Char)
  | 0, _, _ => none
  | fuel + 1, done, cs => do
    let (before, cs) ← trivia? cs
    match cs with
    | '\x7d' :: rest => return (done.written before, rest)
    | cs =>
      let ((path, key), rest) ← key? maxParts "" cs
      let (afterKey, rest) ← trivia? rest
      let rest ← mark? '=' rest
      let (beforeValue, rest) ← trivia? rest
      let ((value, text), rest) ← item rest
      let (afterValue, rest) ← trivia? rest
      let added := Items.addPair path (key.surround before afterKey)
        (value, beforeValue ++ text ++ afterValue) .top done.items
      let items ← added.toOption
      let done : InlinePairs := ⟨done.pairs ++ [((path ++ [key]).map Key.name, value)], items⟩
      match rest with
      | ',' :: rest => inlinePairs? item fuel done rest
      | '\x7d' :: rest => return (done.written "", rest)
      | _ => none

def simple? (cs : List Char) : Option (Written × List Char) := do
  match cs with
  | '"' :: _ | '\x27' :: _ =>
    let (text, rest) ← quoted? cs
    return ((.string (String.ofList text), String.ofList (consumed cs rest)), rest)
  | cs =>
    let (value, rest) ← scalar? cs
    return ((value, String.ofList (consumed cs rest)), rest)

/-- Reads a value in which arrays and inline tables are nested up to the given depth. -/
def value? : Nat → List Char → Option (Written × List Char)
  | 0, cs => simple? cs
  | depth + 1, cs =>
    match cs with
    | '[' :: cs => do
      let ((items, text), rest) ← arrayItems? (value? depth) (cs.length + 1) cs
      return ((.array items, "[" ++ text), rest)
    | '\x7b' :: cs => inlinePairs? (value? depth) (cs.length + 1) ⟨[], []⟩ cs
    | cs => simple? cs

def maxDepth : Nat := 80

end BranchTrim.Toml
