import BranchTrim.Toml.Document
import BranchTrim.Toml.Event

/-!
The outline of a TOML text with faults: its tables and names, without the values. A conflict on the
way is told by the places of what it is about. If it is about a value without a place in the text,
the reading is abandoned, and there is not even a complaint about the text.
-/

set_option autoImplicit false

namespace BranchTrim.Toml

/-- What an outline keeps of a value: whether it has a place in the text. -/
structure Spot where
  isPlaced : Bool

instance : Placed Spot where
  isPlaced := Spot.isPlaced

inductive Scope where
  /-- Into the table of a header. -/
  | table (header : List Key)
  /-- Into a table that the outline has no room for. -/
  | apart (items : Items Spot)

structure Outline where
  items : Items Spot
  scope : Scope

/-- A change, or what was there before if there is a conflict that can be told. -/
def orUnchanged {α : Type} (before : α) : Except Conflict α → Option α
  | .ok after => some after
  | .error .placed => some before
  | .error .placeless => none

namespace Outline

def start : Outline := ⟨[], .table []⟩

def addPair? (o : Outline) (path : List Key) (key : Key) (value : Spot) : Option Outline := do
  match o.scope with
  | .table header =>
    let added := Items.within false (Items.addPair path key value) header .top o.items
    return { o with items := ← orUnchanged o.items added }
  | .apart items =>
    return { o with
      scope := .apart (← orUnchanged items (Items.addPair path key value .top items)) }

/-- Opens the table of a header. One whose name is taken takes its place all the same. -/
def openTable? (o : Outline) (path : List Key) (key : Key) : Option Outline :=
  match Items.openTable path key .top .top o.items with
  | .ok items => some ⟨items, .table (path ++ [key])⟩
  | .error .placeless => none
  | .error .placed =>
    match Items.within false (fun _ items => .ok (items.opened key .top)) path .top o.items with
    | .ok items => some ⟨items, .table (path ++ [key])⟩
    | .error _ => some { o with scope := .apart [] }

def openElement? (o : Outline) (path : List Key) (key : Key) : Option Outline :=
  match Items.openElement path key .top .top o.items with
  | .ok items => some ⟨items, .table (path ++ [key])⟩
  | .error .placeless => none
  | .error .placed => some { o with scope := .apart [] }

/-- The key that begins with a part, and the events after it. The flag tells that a dot was last. -/
def keyFrom (part : Key) : Bool → List Event → (List Key × Key) × List Event
  | false, .blank :: .dot :: es => keyFrom part true es
  | false, .dot :: es => keyFrom part true es
  | true, .blank :: es => keyFrom part true es
  | true, .key next :: es =>
    let ((path, last), es) := keyFrom next false es
    ((part :: path, last), es)
  | _, es => (([], part), es)

/-- The key of a header, which goes up to the next closing event, and the events after it. -/
def headerKey :
    Nat → Option (List Key × Key) → List Event → Option (List Key × Key) × List Event
  | 0, found, es => (found, es)
  | _, found, [] => (found, [])
  | fuel + 1, found, e :: es =>
    match e with
    | .headerClose => (found, es)
    | .key part =>
      let (key, es) := keyFrom part false es
      headerKey fuel (some key) es
    | _ => headerKey fuel found es

mutual

/-- Reads an array after its opening event. All that does not belong there is passed over, and one
that does not close has no place. -/
def array : Nat → List Event → Spot × List Event
  | 0, es => (⟨false⟩, es)
  | _, [] => (⟨false⟩, [])
  | fuel + 1, e :: es =>
    match e with
    | .arrayClose => (⟨true⟩, es)
    | .tableOpen => array fuel (table fuel es).2
    | .arrayOpen => array fuel (array fuel es).2
    | _ => array fuel es

/-- Reads an inline table after its opening event. It breaks off at what does not belong there, and
one that does not close has no place. -/
def table : Nat → List Event → Spot × List Event
  | 0, es => (⟨false⟩, es)
  | _, [] => (⟨false⟩, [])
  | fuel + 1, e :: es =>
    match e with
    | .tableClose => (⟨true⟩, es)
    | .tableOpen => table fuel (table fuel es).2
    | .arrayOpen => table fuel (array fuel es).2
    | .key part => table fuel (keyFrom part false es).2
    | .scalar | .comma | .equals | .blank | .lineEnd | .fault => table fuel es
    | .headerOpen _ | .headerClose | .arrayClose | .dot => (⟨false⟩, es)

end

/-- Reads a value. What stands there in its stead has no place. -/
def value (fuel : Nat) : List Event → Spot × List Event
  | [] => (⟨false⟩, [])
  | .tableOpen :: es => table fuel es
  | .arrayOpen :: es => array fuel es
  | .scalar :: es => (⟨true⟩, es)
  | _ :: es => (⟨false⟩, es)

def dropBlank : List Event → List Event
  | .blank :: es => es
  | es => es

/-- Reads events on top of an outline, unless the reading is abandoned. What follows a key is taken
for its equals sign. -/
def ofEvents? : Nat → Outline → List Event → Option Outline
  | 0, o, _ | _, o, [] => some o
  | fuel + 1, o, e :: es =>
    match e with
    | .headerOpen isElement =>
      let (found, es) := headerKey fuel none es
      match found with
      | none => ofEvents? fuel { o with scope := .apart [] } es
      | some (path, key) => do
        let opened ← if isElement then o.openElement? path key else o.openTable? path key
        ofEvents? fuel opened es
    | .key part =>
      let ((path, key), es) := keyFrom part false es
      match dropBlank es with
      | [] => some o
      | _ :: es => do
        let (value, es) := value fuel (dropBlank es)
        ofEvents? fuel (← o.addPair? path key value) es
    | _ => ofEvents? fuel o es

def ofText? (text : String) : Option Outline :=
  let cs := Document.dropByteOrderMark text.toList
  let tokens := Token.scan cs.length cs
  let events := Event.ofTokens tokens.length tokens
  ofEvents? (events.length + 1) .start events

end Outline

inductive DocumentError where
  | malformed
  | abandoned
  deriving DecidableEq, Repr

def Document.read (text : String) : Except DocumentError Document :=
  match ofText? text with
  | some doc => .ok doc
  | none => .error (if (Outline.ofText? text).isSome then .malformed else .abandoned)

end BranchTrim.Toml
