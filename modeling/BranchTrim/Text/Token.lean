import BranchTrim.Text.Decimal

/-!
Tokens of program text.
-/

set_option autoImplicit false

namespace BranchTrim

inductive Token where
  | ident (word : String)
  | global (name : String)
  | value (name : String)
  | int (word : Int64)
  | colon
  | comma
  | equals
  | leftParen
  | rightParen
  | leftBracket
  | rightBracket
  | leftBrace
  | rightBrace
  deriving DecidableEq, Repr

namespace Token

/-- The spelling of a token. An integer is spelled in its shortest form. -/
def text : Token → String
  | ident word => word
  | global name => "@" ++ name
  | value name => "%" ++ name
  | int word => Text.decimal word.toInt
  | colon => ":"
  | comma => ","
  | equals => "="
  | leftParen => "("
  | rightParen => ")"
  | leftBracket => "["
  | rightBracket => "]"
  | leftBrace => "\x7b"
  | rightBrace => "\x7d"

def ofPunctuation? : Char → Option Token
  | ':' => some colon
  | ',' => some comma
  | '=' => some equals
  | '(' => some leftParen
  | ')' => some rightParen
  | '[' => some leftBracket
  | ']' => some rightBracket
  | '\x7b' => some leftBrace
  | '\x7d' => some rightBrace
  | _ => none

end Token

end BranchTrim
