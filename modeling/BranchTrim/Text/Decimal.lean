/-!
Decimal notation of words. A word is written with the fewest digits, after a minus sign when it is
negative; reading accepts leading zeros and refuses what does not fit into 64 bits.
-/

set_option autoImplicit false

namespace BranchTrim.Text

def decimalChars : Int → List Char
  | .ofNat n => Nat.toDigits 10 n
  | .negSucc n => '-' :: Nat.toDigits 10 (n + 1)

def decimal (n : Int) : String :=
  String.ofList (decimalChars n)

def ofDigits (digits : List Char) : Nat :=
  digits.foldl (fun n c => 10 * n + (c.toNat - '0'.toNat)) 0

/-- The word with a given value, when 64 bits hold it. -/
def word? (n : Int) : Option Int64 :=
  if Int64.minValue.toInt ≤ n ∧ n ≤ Int64.maxValue.toInt then some (Int64.ofInt n) else none

def readDigits? (sign : Int) (digits : List Char) : Option Int64 :=
  if digits ≠ [] ∧ digits.all Char.isDigit then word? (sign * ofDigits digits) else none

/-- Reads a word: an optional minus sign and at least one digit. -/
def readWord? : List Char → Option Int64
  | '-' :: digits => readDigits? (-1) digits
  | digits => readDigits? 1 digits

end BranchTrim.Text
