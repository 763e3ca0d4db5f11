import BranchTrim.Toml.Reader

/-!
TOML documents that keep their notation, so that keys can be added without touching comments and
values. Every line with a key or a header is ended by a plain line feed.
-/

set_option autoImplicit false

namespace BranchTrim.Toml

/-- A document: its tables, and the comments and blank lines after the last line with a key
or a header. -/
structure Document where
  items : Items Written
  trailing : String

structure DocumentState where
  items : Items Written
  /-- The key of the last header. -/
  header : List Key
  /-- The number of headers. -/
  headers : Nat

namespace DocumentState

def start : DocumentState := ⟨[], [], 0⟩

def addPair? (s : DocumentState) (path : List Key) (key : Key) (written : Written) :
    Option DocumentState := do
  let added := Items.within false (Items.addPair path key written) s.header .top s.items
  return { s with items := ← added.toOption }

/-- Opens the table of a header, or adds one to its array of tables. -/
def openHeader? (s : DocumentState) (isElement : Bool) (path : List Key) (key : Key)
    (before after : String) : Option DocumentState := do
  let standing := Standing.opened (s.headers + 1) before after
  let opening := if isElement then Items.openElement path key standing .top s.items
    else Items.openTable path key standing .top s.items
  return ⟨← opening.toOption, path ++ [key], s.headers + 1⟩

end DocumentState

/-- Reads the blanks and the comment at the end of a line, up to the line break or the end
of the text. -/
def lineEnd? (cs : List Char) : Option (String × List Char) := do
  let rest ← comment? (dropBlanks cs)
  guard (rest.isEmpty || (lineBreak? rest).isSome)
  return (trivia (consumed cs rest), rest)

def headerKey? (cs : List Char) : Option ((List Key × Key) × List Char) := do
  let start := dropBlanks cs
  let ((path, key), rest) ← key? maxParts "" start
  let after := dropBlanks rest
  return ((path, key.surround (trivia (consumed cs start)) (trivia (consumed rest after))), after)

def headerLine? (s : DocumentState) (before : String) (cs : List Char) :
    Option (DocumentState × List Char) := do
  match cs with
  | '[' :: cs =>
    let ((path, key), rest) ← headerKey? cs
    let (after, rest) ← lineEnd? (← mark? ']' (← mark? ']' rest))
    return (← s.openHeader? true path key before after, rest)
  | cs =>
    let ((path, key), rest) ← headerKey? cs
    let (after, rest) ← lineEnd? (← mark? ']' rest)
    return (← s.openHeader? false path key before after, rest)

def pairLine? (s : DocumentState) (before : String) (cs : List Char) :
    Option (DocumentState × List Char) := do
  let ((path, key), rest) ← key? maxParts "" cs
  let sign := dropBlanks rest
  let key := key.surround before (trivia (consumed rest sign))
  let rest ← mark? '=' sign
  let start := dropBlanks rest
  let ((value, text), after) ← value? maxDepth start
  let (lineEnd, final) ← lineEnd? after
  let written := (value, trivia (consumed rest start) ++ text ++ lineEnd)
  return (← s.addPair? path key written, final)

/-- Reads a line with a header or a key, before which the given text stands. -/
def line? (s : DocumentState) (before : String) (cs : List Char) :
    Option (DocumentState × List Char) :=
  match cs with
  | '[' :: cs => headerLine? s before cs
  | cs => pairLine? s before cs

namespace Document

/-- Reads lines; comments and blank lines have been read from `start` up to the given characters. -/
def lines? : Nat → DocumentState → List Char → List Char → Option Document
  | 0, _, _, _ => none
  | fuel + 1, s, start, cs => do
    let rest ← comment? (dropBlanks cs)
    match lineBreak? rest with
    | some rest => lines? fuel s start rest
    | none =>
      match rest with
      | [] => return ⟨s.items, trivia start⟩
      | rest =>
        let (s, after) ← line? s (trivia (consumed start rest)) rest
        let next := (lineBreak? after).getD []
        lines? fuel s next next

def dropByteOrderMark : List Char → List Char
  | '\uFEFF' :: cs => cs
  | cs => cs

def ofText? (text : String) : Option Document :=
  let cs := dropByteOrderMark text.toList
  lines? (cs.length + 1) .start cs cs

def text (doc : Document) : String :=
  doc.items.text ++ doc.trailing

/-- Whether a name is given at the top of a document, be it to a value or to a table. -/
def has (doc : Document) (name : String) : Bool :=
  (doc.items.get? name).isSome

def value? (doc : Document) (name : String) : Option Value :=
  match doc.items.get? name with
  | some (.value written) => some written.1
  | _ => none

def insert (doc : Document) (name : String) (value : Value) (text : String) : Document :=
  { doc with items := doc.items ++ [(Key.plain name, .value (value, " " ++ text))] }

end Document

end BranchTrim.Toml
