import BranchTrim.Toml.Key

/-!
The tokens of a TOML text. Every text has tokens, be it a document or not. Comments are left out.
-/

set_option autoImplicit false

namespace BranchTrim.Toml

inductive Token where
  | dot
  | equals
  | comma
  | openBracket
  | closeBracket
  | openBrace
  | closeBrace
  | blank
  | lineBreak
  | word (text : String)
  /-- A text in quotes, with what it would be called as a key. -/
  | quoted (name spelling : String)
  deriving DecidableEq, Repr

namespace Token

def marks : List (Char × Token) :=
  [('.', dot), ('=', equals), (',', comma), ('[', openBracket), (']', closeBracket),
    ('\x7b', openBrace), ('\x7d', closeBrace), ('\n', lineBreak), ('\r', lineBreak)]

def isWordChar (c : Char) : Bool :=
  (marks.lookup c).isNone && !(List.contains [' ', '\t', '#', '"', '\x27'] c)

/-- What follows a text in single quotes, which ends with its line at the latest. -/
def afterLiteral : List Char → List Char
  | [] => []
  | c :: cs => if c == '\x27' then cs else if c == '\n' then c :: cs else afterLiteral cs

/-- What follows a text in double quotes, which ends with its line at the latest. The flag tells
of a backslash. -/
def afterBasic : Bool → List Char → List Char
  | _, [] => []
  | isEscaped, c :: cs =>
    if isEscaped && (c == '\\' || c == '"') then afterBasic false cs
    else if c == '"' then cs
    else if c == '\n' then c :: cs
    else afterBasic (c == '\\') cs

/-- What follows a text over several lines, with up to two more quotes at its end. -/
def afterLong (quote : Char) : Bool → List Char → List Char
  | _, [] => []
  | isEscaped, c :: cs =>
    if isEscaped && (c == '\\' || c == quote) then afterLong quote false cs
    else if c == quote && cs.take 2 == [quote, quote] then
      let more := (cs.drop 2).takeWhile (· == quote)
      cs.drop (2 + min 2 more.length)
    else afterLong quote (quote == '"' && c == '\\') cs

def afterQuoted (quote : Char) (cs : List Char) : List Char :=
  if cs.take 2 == [quote, quote] then afterLong quote false (cs.drop 2)
  else if quote == '"' then afterBasic false cs
  else afterLiteral cs

/-- A text in quotes, called as it would be as a key, or by its spelling. -/
def ofQuoted (cs rest : List Char) : Token :=
  let spelling := String.ofList (consumed cs rest)
  match keyName? cs with
  | some (name, after) => quoted (if after.length == rest.length then name else spelling) spelling
  | none => quoted spelling spelling

def scan : Nat → List Char → List Token
  | 0, _ | _, [] => []
  | fuel + 1, c :: cs =>
    match marks.lookup c with
    | some token =>
      token :: scan fuel (if c == '\r' && cs.head? == some '\n' then cs.drop 1 else cs)
    | none =>
      if c == ' ' || c == '\t' then blank :: scan fuel (dropBlanks cs)
      else if c == '#' then scan fuel (cs.dropWhile fun c => c != '\r' && c != '\n')
      else if c == '"' || c == '\x27' then
        let rest := afterQuoted c cs
        ofQuoted (c :: cs) rest :: scan fuel rest
      else
        word (String.ofList (c :: cs.takeWhile isWordChar)) :: scan fuel (cs.dropWhile isWordChar)

def key? : Token → Option Key
  | word text => some (.ofSpelling text text)
  | quoted name spelling => some (.ofSpelling name spelling)
  | _ => none

end Token

end BranchTrim.Toml
