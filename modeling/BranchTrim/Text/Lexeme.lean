import BranchTrim.Text.Blank
import BranchTrim.Text.ParseError

/-!
Splitting program text into lexemes, that is tokens with their lines. Blank characters and comments
divide lexemes and are dropped; a comment runs from `#` to the end of its line.
-/

set_option autoImplicit false

namespace BranchTrim

/-- A token with the line it starts on. -/
structure Lexeme where
  token : Token
  line : Nat
  deriving DecidableEq, Repr

namespace Lexeme

/-- The characters of names and bare words, all of them ASCII. -/
def isNameChar (c : Char) : Bool :=
  c.isAlphanum || c == '_' || c == '.'

def isNameStart (c : Char) : Bool :=
  c.isAlpha || c == '_'

/-- The lexemes of a text whose first character is on the given line. -/
def scan (line : Nat) (cs : List Char) : Except ParseError (List Lexeme) :=
  match cs with
  | [] => .ok []
  | c :: cs =>
    match Token.ofPunctuation? c with
    | some token => do return ⟨token, line⟩ :: (← scan line cs)
    | none =>
      if c = '#' then scan line (cs.dropWhile (· != '\n'))
      else if c = '%' then do
        let name := String.ofList (cs.takeWhile isNameChar)
        return ⟨.value name, line⟩ :: (← scan line (cs.dropWhile isNameChar))
      else if c = '@' then do
        let name := String.ofList (cs.takeWhile isNameChar)
        return ⟨.global name, line⟩ :: (← scan line (cs.dropWhile isNameChar))
      else if c = '\n' then scan (line + 1) cs
      else if Text.isBlank c then scan line cs
      else if c = '-' || c.isDigit then
        let text := c :: cs.takeWhile Char.isDigit
        match Text.readWord? text with
        | some word => do
          return ⟨.int word, line⟩ :: (← scan line (cs.dropWhile Char.isDigit))
        | none => .error (.onLine line (.invalidInt (String.ofList text)))
      else if isNameStart c then do
        let word := String.ofList (c :: cs.takeWhile isNameChar)
        return ⟨.ident word, line⟩ :: (← scan line (cs.dropWhile isNameChar))
      else .error (.onLine line (.unexpectedChar c))
termination_by cs.length
decreasing_by
  all_goals exact Nat.lt_succ_of_le (List.IsSuffix.length_le (by simp [List.dropWhile_suffix]))

def ofText (text : String) : Except ParseError (List Lexeme) :=
  scan 1 text.toList

end Lexeme

end BranchTrim
