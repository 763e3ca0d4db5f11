import BranchTrim.Range
import BranchTrim.Text.Token

/-!
Why program text is refused, and on which line.
-/

set_option autoImplicit false

namespace BranchTrim

inductive Expectation where
  | func
  | functionName
  | leftParen
  | parameter
  | commaOrRightParen
  | leftBrace
  | rightBrace
  | value
  | leftBracket
  | integer
  | comma
  | rightBracket
  | blockLabel
  | statement
  | equals
  | instruction
  | operand
  | predicate
  | callee
  deriving DecidableEq, Repr

def Expectation.text : Expectation → String
  | func => "`func`"
  | functionName => "a function name"
  | leftParen => "`(`"
  | parameter => "a parameter"
  | commaOrRightParen => "`,` or `)`"
  | leftBrace => "`\x7b`"
  | rightBrace => "`\x7d`"
  | value => "a value"
  | leftBracket => "`[`"
  | integer => "an integer"
  | comma => "`,`"
  | rightBracket => "`]`"
  | blockLabel => "a block label"
  | statement => "a statement"
  | equals => "`=`"
  | instruction => "an instruction"
  | operand => "an operand"
  | predicate => "a comparison predicate"
  | callee => "a callee"

inductive ParseCause where
  | unexpectedChar (char : Char)
  | invalidInt (text : String)
  | expected (what : Expectation) (found : Token)
  | endOfInput (what : Expectation)
  | unknownOpcode (name : String)
  | unknownValue (name : String)
  | unknownBlock (name : String)
  | redefinition (name : String)
  | duplicateBlock (name : String)
  | missingTerminator (name : String)
  | outsideBlock
  | emptyFunction (name : String)
  | notSingleFunction (count : Nat)
  | invalidRange (lo hi : Int64)
  deriving DecidableEq, Repr

def ParseCause.text : ParseCause → String
  | unexpectedChar char => "unexpected character `" ++ char.toString ++ "`"
  | invalidInt text => "invalid integer literal `" ++ text ++ "`"
  | expected what found => "expected " ++ what.text ++ ", found `" ++ found.text ++ "`"
  | endOfInput what => "unexpected end of input, expected " ++ what.text
  | unknownOpcode name => "unknown instruction `" ++ name ++ "`"
  | unknownValue name => "unknown value `%" ++ name ++ "`"
  | unknownBlock name => "unknown block `" ++ name ++ "`"
  | redefinition name => "`%" ++ name ++ "` is defined more than once"
  | duplicateBlock name => "block `" ++ name ++ "` is defined more than once"
  | missingTerminator name => "block `" ++ name ++ "` does not end in a terminator"
  | outsideBlock => "statement is not inside a block"
  | emptyFunction name => "function `@" ++ name ++ "` has no blocks"
  | notSingleFunction count =>
    "expected a single function, found " ++ Text.decimal count
  | invalidRange lo hi =>
    "range " ++ Range.boundsText lo hi ++ " has its lower bound above its upper bound"

/-- A refusal: the cause and, unless it concerns the text as a whole, the line. -/
structure ParseError where
  line? : Option Nat
  cause : ParseCause
  deriving DecidableEq, Repr

namespace ParseError

def onLine (line : Nat) (cause : ParseCause) : ParseError := ⟨some line, cause⟩

def atEnd (what : Expectation) : ParseError := ⟨none, .endOfInput what⟩

def message (e : ParseError) : String :=
  match e.line? with
  | some line => "line " ++ Text.decimal line ++ ": " ++ e.cause.text
  | none => e.cause.text

end ParseError

end BranchTrim
