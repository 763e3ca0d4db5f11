import BranchTrim.Toml.Scalar

/-!
Quoted texts of TOML documents. Basic texts stand in double quotes and know escapes; literal texts
stand in single quotes and do not. Both have a form over several lines in tripled quotes, in which
line breaks stay as they are written. The readers start after the opening quotes and stop after the
closing ones; their first argument bounds the number of steps.
-/

set_option autoImplicit false

namespace BranchTrim.Toml

/-- Whether a character may stand in a quoted text or a comment: no control character
but the tab. -/
def isTextChar (c : Char) : Bool :=
  c == '\t' || (0x20 ≤ c.toNat && c.toNat != 0x7F)

def codePoint? (digits : List Char) : Option Char :=
  let n := Text.ofDigitsIn 16 digits
  if digits.all (Text.isDigitIn 16) ∧ n.isValidChar then some (Char.ofNat n) else none

def escaped? : Char → Option Char
  | 'b' => some '\x08'
  | 't' => some '\t'
  | 'n' => some '\n'
  | 'f' => some '\x0c'
  | 'r' => some '\r'
  | 'e' => some '\x1b'
  | '"' => some '"'
  | '\\' => some '\\'
  | _ => none

def hexEscape? (count : Nat) (cs : List Char) : Option (Char × List Char) :=
  if cs.length < count then none else (codePoint? (cs.take count)).map (·, cs.drop count)

def escape? : List Char → Option (Char × List Char)
  | 'x' :: cs => hexEscape? 2 cs
  | 'u' :: cs => hexEscape? 4 cs
  | 'U' :: cs => hexEscape? 8 cs
  | c :: cs => (escaped? c).map (·, cs)
  | [] => none

def lineBreak? : List Char → Option (List Char)
  | '\n' :: cs => some cs
  | '\r' :: '\n' :: cs => some cs
  | _ => none

/-- The part of a text that was read, given what is left of it. -/
def consumed (cs rest : List Char) : List Char :=
  cs.take (cs.length - rest.length)

def dropBlanks (cs : List Char) : List Char :=
  cs.dropWhile fun c => c == ' ' || c == '\t'

def dropBlankLines : Nat → List Char → List Char
  | 0, cs => cs
  | fuel + 1, cs =>
    match lineBreak? (dropBlanks cs) with
    | some cs => dropBlankLines fuel cs
    | none => dropBlanks cs

def basic? : Nat → List Char → Option (List Char × List Char)
  | 0, _ => none
  | fuel + 1, cs =>
    match cs with
    | [] => none
    | '"' :: cs => some ([], cs)
    | '\\' :: cs => do
      let (c, cs) ← escape? cs
      let (text, rest) ← basic? fuel cs
      return (c :: text, rest)
    | c :: cs => do
      guard (isTextChar c)
      let (text, rest) ← basic? fuel cs
      return (c :: text, rest)

def literal? (cs : List Char) : Option (List Char × List Char) := do
  let text := cs.takeWhile (· != '\x27')
  guard (text.all isTextChar)
  match cs.dropWhile (· != '\x27') with
  | _ :: rest => return (text, rest)
  | [] => none

/-- The end of a text in tripled quotes: three quotes, before which up to two more belong
to the text. -/
def tripleEnd? (quote : Char) (cs : List Char) : Option (List Char × List Char) :=
  let quotes := (cs.takeWhile (· == quote)).length
  if quotes < 3 then none
  else
    let inside := min (quotes - 3) 2
    some (List.replicate inside quote, cs.drop (inside + 3))

/-- Reads a basic text over several lines. A backslash at the end of a line drops the
blanks after it. -/
def multilineBasic? : Nat → List Char → Option (List Char × List Char)
  | 0, _ => none
  | fuel + 1, cs =>
    match tripleEnd? '"' cs with
    | some finish => some finish
    | none =>
      match lineBreak? cs with
      | some after => do
        let (text, rest) ← multilineBasic? fuel after
        return (consumed cs after ++ text, rest)
      | none =>
        match cs with
        | [] => none
        | '\\' :: cs =>
          match lineBreak? (dropBlanks cs) with
          | some cs => multilineBasic? fuel (dropBlankLines cs.length cs)
          | none => do
            let (c, cs) ← escape? cs
            let (text, rest) ← multilineBasic? fuel cs
            return (c :: text, rest)
        | c :: cs => do
          guard (isTextChar c)
          let (text, rest) ← multilineBasic? fuel cs
          return (c :: text, rest)

def multilineLiteral? : Nat → List Char → Option (List Char × List Char)
  | 0, _ => none
  | fuel + 1, cs =>
    match tripleEnd? '\x27' cs with
    | some finish => some finish
    | none =>
      match lineBreak? cs with
      | some after => do
        let (text, rest) ← multilineLiteral? fuel after
        return (consumed cs after ++ text, rest)
      | none =>
        match cs with
        | [] => none
        | c :: cs => do
          guard (isTextChar c)
          let (text, rest) ← multilineLiteral? fuel cs
          return (c :: text, rest)

/-- Drops the line break right after the opening quotes of a text over several lines. -/
def dropFirstBreak (cs : List Char) : List Char :=
  (lineBreak? cs).getD cs

def quoted? (cs : List Char) : Option (List Char × List Char) :=
  match cs with
  | '"' :: '"' :: '"' :: cs => multilineBasic? (cs.length + 1) (dropFirstBreak cs)
  | '"' :: cs => basic? (cs.length + 1) cs
  | '\x27' :: '\x27' :: '\x27' :: cs => multilineLiteral? (cs.length + 1) (dropFirstBreak cs)
  | '\x27' :: cs => literal? cs
  | _ => none

end BranchTrim.Toml
