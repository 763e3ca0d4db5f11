import BranchTrim.Pattern.Check
import BranchTrim.Prune.Event

/-!
Log filters: directives with commas between them. A directive is a level, or a target with a level;
a target alone lets everything through. In brackets after the target, a directive can ask for the
name of an enclosing span and, in braces, for a field, or for one whose value matches a pattern.
Events stand in no span, and their only field is their message.
-/

set_option autoImplicit false

namespace BranchTrim

inductive DirectiveError where
  | malformed
  | unknownLevel
  | invalidField (cause : PatternError)
  /-- A part of the text would start or end inside of a character. There is no way to go on. -/
  | splitCharacter
  deriving DecidableEq, Repr

namespace DirectiveError

def message : DirectiveError → String
  | malformed | splitCharacter => "invalid filter directive"
  | unknownLevel => "error parsing level filter: expected one of \"off\", \"error\", \"warn\", " ++
      "\"info\", \"debug\", \"trace\", or a number 0-5"
  | invalidField cause => "invalid field filter: " ++ cause.message

end DirectiveError

structure SpanTest where
  span : Option String
  field : Option String
  deriving DecidableEq, Repr

/-- Lets events through from a rank on, or none of them. -/
structure Directive where
  target : Option String
  test : SpanTest
  least : Option Nat
  deriving DecidableEq, Repr

namespace Directive

/-- The number that a text is, after an optional plus sign. -/
def number? (text : List Char) : Option Nat :=
  let digits := match text with
    | '+' :: digits => digits
    | digits => digits
  if !digits.isEmpty && digits.all Char.isDigit then some (Text.ofDigits digits) else none

/-- The least rank that a level lets through, where `some none` lets nothing through. -/
def least? (text : List Char) : Option (Option Nat) :=
  match number? text with
  | some n => [none, some 4, some 3, some 2, some 1, some 0][n]?
  | none =>
    [("off", none), ("error", some 4), ("warn", some 3), ("info", some 2), ("debug", some 1),
      ("trace", some 0)].lookup (String.ofList text).toLower

/-- Whether a text without its sign is a decimal number or a word for one that is not finite. -/
def isUnsignedNumber (text : List Char) : Bool :=
  let fraction := text.dropWhile Char.isDigit
  let (digits, afterDigits) := match fraction with
    | '.' :: rest => (rest.takeWhile Char.isDigit, rest.dropWhile Char.isDigit)
    | rest => ([], rest)
  let isDecimal := (fraction.length < text.length || !digits.isEmpty) && isExponent afterDigits
  isDecimal || ["inf", "infinity", "nan"].contains (String.ofList text).toLower
where
  isExponent : List Char → Bool
  | [] => true
  | c :: rest =>
    let digits := match rest with
      | '+' :: digits | '-' :: digits => digits
      | digits => digits
    (c == 'e' || c == 'E') && !digits.isEmpty && digits.all Char.isDigit

def isNumber : List Char → Bool
  | '+' :: text | '-' :: text => isUnsignedNumber text
  | text => isUnsignedNumber text

/-- Checks what a field is compared with, up to the next equals sign: a number, or a pattern. -/
def checkField (field : List Char) : Except DirectiveError Unit :=
  match field.splitOn '=' with
  | _ :: value :: _ =>
    if isNumber value then .ok () else (Pattern.check value).mapError .invalidField
  | _ => .ok ()

def size (text : List Char) : Nat :=
  text.foldl (fun total c => total + c.utf8Size) 0

/-- The text from a number of bytes on, unless that is inside of a character. -/
def drop? : Nat → List Char → Option (List Char)
  | 0, text => some text
  | _ + 1, [] => none
  | n + 1, c :: text => if c.utf8Size ≤ n + 1 then drop? (n + 1 - c.utf8Size) text else none
termination_by _ text => text.length

/-- A directive as it stands in a filter, with the blanks around it and without. The places in it
are those of the text without blanks, also where parts of the text with blanks are taken. -/
structure Source where
  text : List Char
  trimmed : List Char

/-- A place in the text without blanks: the number of bytes before it, and what comes
from there on. -/
structure Place where
  offset : Nat
  rest : List Char

def Place.find (p : Place) (test : Char → Bool) : Place :=
  ⟨p.offset + size (p.rest.takeWhile (!test ·)), p.rest.dropWhile (!test ·)⟩

namespace Source

def ofText (text : List Char) : Source :=
  let isBlank := Text.isBlank
  ⟨text, ((text.dropWhile isBlank).reverse.dropWhile isBlank).reverse⟩

def suffix (s : Source) (start : Nat) : Except DirectiveError (List Char) :=
  (drop? start s.text).elim (.error .splitCharacter) .ok

def slice (s : Source) (start stop : Nat) : Except DirectiveError (List Char) := do
  let text ← s.suffix start
  let rest ← s.suffix stop
  return text.take (text.length - rest.length)

def level (s : Source) (start : Nat) : Except DirectiveError (Option Nat) := do
  match ← s.suffix start with
  | [] => return some 0
  | text => (least? text).elim (.error .unknownLevel) .ok

/-- Reads what stands after the brackets: nothing, or an equals sign and a level. -/
def afterBrackets (s : Source) (target : Option String) (test : SpanTest) (start : Place) :
    Except DirectiveError Directive := do
  match start.rest with
  | [] => return ⟨target, test, some 0⟩
  | '=' :: _ => return ⟨target, test, ← s.level (start.offset + 1)⟩
  | _ => throw .malformed

def field (s : Source) (target span : Option String) (start : Place) :
    Except DirectiveError Directive := do
  let stop := start.find (· == '\x7d')
  match stop.rest with
  | [] => throw .malformed
  | _ :: rest =>
    if stop.offset = start.offset then throw .malformed
    let field ← s.slice start.offset stop.offset
    checkField field
    match rest with
    | ']' :: rest =>
      s.afterBrackets target ⟨span, some (String.ofList field)⟩ ⟨stop.offset + 2, rest⟩
    | _ => throw .malformed

def span (s : Source) (target : Option String) (start : Place) :
    Except DirectiveError Directive := do
  let stop := start.find fun c => c == ']' || c == '\x7b'
  match stop.rest with
  | [] => throw .malformed
  | c :: rest =>
    let name := String.ofList (← s.slice start.offset stop.offset)
    let next : Place := ⟨stop.offset + 1, rest⟩
    if c == ']' then s.afterBrackets target ⟨some name, none⟩ next
    else s.field target (if name.isEmpty then none else some name) next

def isStart (c : Char) : Bool :=
  Text.isLetterOrNumber c || c == '-' || c == ':' || c == '_'

def directive (s : Source) : Except DirectiveError Directive := do
  match s.trimmed with
  | [] => throw .malformed
  | '[' :: rest => s.span none ⟨1, rest⟩
  | c :: _ =>
    if !isStart c then throw .malformed
    let stop := (Place.mk 0 s.trimmed).find fun c => c == '=' || c == '['
    match stop.rest with
    | [] =>
      match least? s.text with
      | some least => return ⟨none, ⟨none, none⟩, least⟩
      | none => return ⟨some (String.ofList s.text), ⟨none, none⟩, some 0⟩
    | c :: rest =>
      let target := String.ofList (← s.slice 0 stop.offset)
      if c == '=' then return ⟨some target, ⟨none, none⟩, ← s.level (stop.offset + 1)⟩
      else s.span (some target) ⟨stop.offset + 1, rest⟩

end Source

def ofText (text : List Char) : Except DirectiveError Directive :=
  (Source.ofText text).directive

def covers (d : Directive) (target : String) : Bool :=
  d.target.all (fun t => t.toList.isPrefixOf target.toList) && d.test.span.isNone &&
    d.test.field.all (· == "message")

/-- How specific a directive is: by the size of its target first, then by whether it asks
for a field. -/
def weight (d : Directive) : Nat :=
  2 * d.target.elim 0 (·.utf8ByteSize + 1) + d.test.field.elim 0 fun _ => 1

def allows (d : Directive) (level : Level) : Bool :=
  d.least.any (· ≤ level.rank)

end Directive

abbrev Filter := List Directive

namespace Filter

def readings (text : String) : List (String × Except DirectiveError Directive) :=
  ((text.toList.splitOn ',').filter (!·.isEmpty)).map fun part =>
    (String.ofList part, Directive.ofText part)

/-- Reads a filter, without what is no directive. One that is left empty lets a
given level through. -/
def ofText (fallback : Level) (text : String) : Filter :=
  match (readings text).filterMap (·.2.toOption) with
  | [] => [⟨none, ⟨none, none⟩, some fallback.rank⟩]
  | directives => directives

def isFinal (reading : Except DirectiveError Directive) : Bool :=
  match reading with
  | .error .splitCharacter => true
  | _ => false

def isAbandoned (text : String) : Bool :=
  (readings text).any fun (_, reading) => isFinal reading

def complaints (text : String) : List String :=
  ((readings text).takeWhile fun (_, reading) => !isFinal reading).filterMap fun (part, reading) =>
    match reading with
    | .ok _ => none
    | .error e => some ("ignoring `" ++ part ++ "`: " ++ e.message)

/-- The directive that decides about a target: the most specific that covers it, and of
equals the last. -/
def deciding? (filter : Filter) (target : String) : Option Directive :=
  filter.foldl (fun best d =>
    if d.covers target && best.all fun b => b.weight ≤ d.weight then some d else best) none

def shows (filter : Filter) (target : String) (level : Level) : Bool :=
  (filter.deciding? target).any (·.allows level)

end Filter

end BranchTrim
