import BranchTrim.Text.Decimal
import BranchTrim.Text.Digit
import BranchTrim.Toml.Value

/-!
Bare scalars of TOML documents: truth values, numbers, dates and times.
-/

set_option autoImplicit false

namespace BranchTrim.Toml

def isScalarChar (c : Char) : Bool :=
  c.isAlphanum || c == '+' || c == '-' || c == '_' || c == '.' || c == ':'

/-- The digits of a number, which may be divided by single underscores between them. -/
def digits? (isDigit : Char → Bool) (cs : List Char) : Option (List Char) :=
  let groups := cs.splitOn '_'
  if groups.all fun group => !group.isEmpty && group.all isDigit then some groups.flatten else none

/-- The digits of a decimal number without needless zeros in front. -/
def wholeDigits? (cs : List Char) : Option (List Char) :=
  match digits? Char.isDigit cs with
  | some ['0'] => some ['0']
  | some ('0' :: _) => none
  | digits => digits

def sign : List Char → Int × List Char
  | '+' :: cs => (1, cs)
  | '-' :: cs => (-1, cs)
  | cs => (1, cs)

def boundedInteger? (n : Int) : Option Value :=
  (Text.word? n).map fun _ => .integer n

def integer? (cs : List Char) : Option Value :=
  match cs with
  | '0' :: 'x' :: cs => do boundedInteger? (Text.ofDigitsIn 16 (← digits? (Text.isDigitIn 16) cs))
  | '0' :: 'o' :: cs => do boundedInteger? (Text.ofDigitsIn 8 (← digits? (Text.isDigitIn 8) cs))
  | '0' :: 'b' :: cs => do boundedInteger? (Text.ofDigitsIn 2 (← digits? (Text.isDigitIn 2) cs))
  | cs => do
    let (factor, cs) := sign cs
    boundedInteger? (factor * (Text.ofDigits (← wholeDigits? cs)))

/-- Whether `digits · 10 ^ exponent` rounds to a finite double: it lies below `2 ^ 1024 -
2 ^ 970`. -/
def isFinite (digits : Nat) (exponent : Int) : Bool :=
  let bound := Nat.pow 2 1024 - Nat.pow 2 970
  let magnitude := (Nat.toDigits 10 digits).length + exponent
  if digits = 0 ∨ magnitude ≤ 300 then true
  else if magnitude > 310 then false
  else if 0 ≤ exponent then digits * Nat.pow 10 exponent.toNat < bound
  else digits < bound * Nat.pow 10 (-exponent).toNat

def fraction? : List Char → Option (List Char)
  | [] => some []
  | '.' :: cs => digits? Char.isDigit cs
  | _ => none

def exponent? : List Char → Option Int
  | [] => some 0
  | _ :: cs => do
    let (factor, cs) := sign cs
    return factor * Text.ofDigits (← digits? Char.isDigit cs)

/-- Reads a number with a fraction, an exponent or both, or one of the words for infinity and
for no number. -/
def float? (cs : List Char) : Option Value := do
  let (_, unsigned) := sign cs
  if unsigned = "inf".toList ∨ unsigned = "nan".toList then
    return .float (String.ofList cs)
  let isMark := fun (c : Char) => c == 'e' || c == 'E'
  let mantissa := unsigned.takeWhile (!isMark ·)
  let exponentText := unsigned.dropWhile (!isMark ·)
  let fractionText := mantissa.dropWhile (· != '.')
  guard (!exponentText.isEmpty || !fractionText.isEmpty)
  let whole ← wholeDigits? (mantissa.takeWhile (· != '.'))
  let fraction ← fraction? fractionText
  let exponent ← exponent? exponentText
  guard (isFinite (Text.ofDigits (whole ++ fraction)) (exponent - fraction.length))
  return .float (String.ofList cs)

def fixedDigits? (count : Nat) (cs : List Char) : Option (Nat × List Char) :=
  let digits := cs.take count
  if digits.length = count ∧ digits.all Char.isDigit then
    some (Text.ofDigits digits, cs.drop count)
  else none

def mark? (c : Char) : List Char → Option (List Char)
  | d :: cs => if d = c then some cs else none
  | [] => none

def daysIn (year month : Nat) : Nat :=
  if month = 2 then
    if year % 4 = 0 ∧ (year % 100 ≠ 0 ∨ year % 400 = 0) then 29 else 28
  else if month = 4 ∨ month = 6 ∨ month = 9 ∨ month = 11 then 30
  else 31

def date? (cs : List Char) : Option (List Char) := do
  let (year, cs) ← fixedDigits? 4 cs
  let cs ← mark? '-' cs
  let (month, cs) ← fixedDigits? 2 cs
  let cs ← mark? '-' cs
  let (day, cs) ← fixedDigits? 2 cs
  guard (1 ≤ month ∧ month ≤ 12 ∧ 1 ≤ day ∧ day ≤ daysIn year month)
  return cs

def secondFraction? : List Char → Option (List Char)
  | '.' :: cs =>
    if (cs.takeWhile Char.isDigit).isEmpty then none else some (cs.dropWhile Char.isDigit)
  | cs => some cs

def seconds? : List Char → Option (List Char)
  | ':' :: cs => do
    let (second, cs) ← fixedDigits? 2 cs
    guard (second ≤ 60)
    secondFraction? cs
  | cs => some cs

def time? (cs : List Char) : Option (List Char) := do
  let (hour, cs) ← fixedDigits? 2 cs
  let cs ← mark? ':' cs
  let (minute, cs) ← fixedDigits? 2 cs
  guard (hour ≤ 23 ∧ minute ≤ 59)
  seconds? cs

/-- Whether a text is empty or an offset from universal time. -/
def isOffset : List Char → Bool
  | [] => true
  | 'Z' :: cs | 'z' :: cs => cs.isEmpty
  | '+' :: cs | '-' :: cs => Option.isSome do
    let (hour, cs) ← fixedDigits? 2 cs
    let cs ← mark? ':' cs
    let (minute, cs) ← fixedDigits? 2 cs
    guard (cs.isEmpty ∧ hour ≤ 23 ∧ minute ≤ 59)
  | _ => false

def datetime? (cs : List Char) : Option Value := do
  match date? cs with
  | none => guard ((← time? cs).isEmpty)
  | some [] => pure ()
  | some (c :: rest) =>
    guard (c == 'T' || c == 't' || c == ' ')
    guard (isOffset (← time? rest))
  return .datetime (String.ofList cs)

def scalarValue? (cs : List Char) : Option Value :=
  if cs = "true".toList then some (.boolean true)
  else if cs = "false".toList then some (.boolean false)
  else (integer? cs).or ((float? cs).or (datetime? cs))

/-- Splits off a bare scalar. A date and the time after it may be divided by a blank. -/
def splitScalar (cs : List Char) : List Char × List Char :=
  let word := cs.takeWhile isScalarChar
  let rest := cs.dropWhile isScalarChar
  match date? word, rest with
  | some [], ' ' :: c :: more =>
    if c.isDigit then
      (word ++ ' ' :: (c :: more).takeWhile isScalarChar, (c :: more).dropWhile isScalarChar)
    else (word, rest)
  | _, _ => (word, rest)

def scalar? (cs : List Char) : Option (Value × List Char) := do
  let (word, rest) := splitScalar cs
  return (← scalarValue? word, rest)

end BranchTrim.Toml
