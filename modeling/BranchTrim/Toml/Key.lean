import BranchTrim.Toml.Quoted

/-!
Keys of TOML documents. A key has parts with dots between them, and every part remembers how
it was written.
-/

set_option autoImplicit false

namespace BranchTrim.Toml

structure Key where
  name : String
  /-- The name as it is written, quotes included. -/
  spelling : String
  /-- The blanks between the dot in front and the part. -/
  afterDot : String
  /-- The blanks between the part and the dot behind. -/
  beforeDot : String
  /-- What stands before the key whose last part this is. -/
  before : String
  /-- What stands after the key whose last part this is. -/
  after : String

def isKeyChar (c : Char) : Bool :=
  c.isAlphanum || c == '_' || c == '-'

namespace Key

/-- A key of one part that needs no quotes, as it stands before an equals sign. -/
def plain (name : String) : Key := ⟨name, name, "", "", "", " "⟩

def ofSpelling (name spelling : String) : Key := ⟨name, spelling, "", "", "", ""⟩

def dotted : List Key → String
  | [] => ""
  | [k] => k.spelling
  | k :: l :: ks => k.spelling ++ k.beforeDot ++ "." ++ l.afterDot ++ dotted (l :: ks)

/-- A key with what stands around it, which the last part remembers. -/
def pathText (ks : List Key) : String :=
  match ks.getLast? with
  | some k => k.before ++ dotted ks ++ k.after
  | none => ""

/-- Notes in the last part what stands around a key. -/
def surround (before after : String) (k : Key) : Key :=
  { k with before, after }

end Key

def keyName? (cs : List Char) : Option (String × List Char) := do
  match cs with
  | '"' :: cs =>
    let (text, rest) ← basic? (cs.length + 1) cs
    return (String.ofList text, rest)
  | '\x27' :: cs =>
    let (text, rest) ← literal? cs
    return (String.ofList text, rest)
  | cs =>
    let text := cs.takeWhile isKeyChar
    guard (!text.isEmpty)
    return (String.ofList text, cs.dropWhile isKeyChar)

def maxParts : Nat := 80

/-- Reads a key of at most the given number of parts, whose first part stands after the given
blanks. The parts before the last one come as a list. Blanks after the key are left. -/
def key? : Nat → String → List Char → Option ((List Key × Key) × List Char)
  | 0, _, _ => none
  | parts + 1, afterDot, cs => do
    let (name, rest) ← keyName? cs
    let spelling := String.ofList (consumed cs rest)
    match dropBlanks rest with
    | '.' :: more =>
      let first : Key :=
        ⟨name, spelling, afterDot, String.ofList (consumed rest ('.' :: more)), "", ""⟩
      let next := dropBlanks more
      let ((path, last), rest) ← key? parts (String.ofList (consumed more next)) next
      return ((first :: path, last), rest)
    | _ => return (([], { Key.ofSpelling name spelling with afterDot }), rest)

end BranchTrim.Toml
