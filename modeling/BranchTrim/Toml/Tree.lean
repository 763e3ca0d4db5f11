import BranchTrim.Toml.Key
import BranchTrim.Toml.Value

/-!
The tables of a TOML document as a tree that keeps the notation of its leaves.

A table may be opened by a header once. Dotted keys extend only tables that no header has opened,
and the table that takes the value must be one that dotted keys have made. Nothing extends a value.
A header may open a table that longer headers have implied; it then takes the spelling of that
header. In all other cases the spelling of a name is that of its first use.

What goes against these rules is a conflict. One that is about a value can be told only by the place
of that value.
-/

set_option autoImplicit false

namespace BranchTrim.Toml

inductive Standing where
  /-- Only longer keys of headers mention it. -/
  | implied
  /-- Dotted keys made it. -/
  | dotted
  /-- A header opened it: its number among the headers, and what stands before and after it. -/
  | opened (position : Nat) (before after : String)

namespace Standing

def top : Standing := opened 0 "" ""

def isDotted : Standing → Bool
  | dotted => true
  | implied | opened .. => false

def isOpened : Standing → Bool
  | opened .. => true
  | implied | dotted => false

def isImplied : Standing → Bool
  | implied => true
  | dotted | opened .. => false

def position? : Standing → Option Nat
  | opened position .. => some position
  | implied | dotted => none

end Standing

inductive Conflict where
  /-- All that it is about has a place in the text. -/
  | placed
  /-- It is about a value without a place in the text. -/
  | placeless
  deriving DecidableEq, Repr

/-- What is kept of a value tells whether it has a place in the text. -/
class Placed (α : Type) where
  isPlaced : α → Bool

def Conflict.ofValue {α : Type} [Placed α] (value : α) : Conflict :=
  if Placed.isPlaced value then placed else placeless

abbrev Written := Value × String

instance : Placed Written where
  isPlaced _ := true

/-- What a name stands for: a value, a table, or an array of tables. -/
inductive Node (α : Type) where
  | value (value : α)
  | table (standing : Standing) (items : List (Key × Node α))
  | tables (elements : List (Standing × List (Key × Node α)))

abbrev Items (α : Type) := List (Key × Node α)

namespace Items

variable {α : Type}

def get? (items : Items α) (name : String) : Option (Node α) :=
  (List.find? (fun item => item.1.name == name) items).map Prod.snd

def replace (items : Items α) (name : String) (node : Node α) : Items α :=
  items.map fun item => if item.1.name == name then (item.1, node) else item

def erase (items : Items α) (name : String) : Items α :=
  items.filter fun item => item.1.name != name

/-- Opens the table of a name at the end, with what the table of that name holds already. -/
def opened (key : Key) (standing : Standing) (items : Items α) : Items α :=
  let inner := match items.get? key.name with
    | some (.table _ inner) => inner
    | _ => []
  items.erase key.name ++ [(key, .table standing inner)]

variable [Placed α]

/-- Changes the table at a path, unless something on the way is in the way. Tables that are not
there are made. Of an array of tables the last one is meant. -/
def within (byDots : Bool) (change : Standing → Items α → Except Conflict (Items α)) :
    List Key → Standing → Items α → Except Conflict (Items α)
  | [], standing, items => change standing items
  | key :: path, _, items =>
    match items.get? key.name with
    | none => do
      let made := if byDots then Standing.dotted else .implied
      return items ++ [(key, .table made (← within byDots change path made []))]
    | some (.value value) => .error (.ofValue value)
    | some (.table standing inner) =>
      if byDots && standing.isOpened then .error .placed
      else do
        return items.replace key.name
          (.table standing (← within byDots change path standing inner))
    | some (.tables elements) =>
      match elements.getLast? with
      | none => .error .placed
      | some (standing, inner) => do
        let inner ← within byDots change path standing inner
        return items.replace key.name (.tables (elements.dropLast ++ [(standing, inner)]))

def addPair (path : List Key) (key : Key) (value : α) :
    Standing → Items α → Except Conflict (Items α) :=
  within true (fun standing items =>
    if standing.isDotted == path.isEmpty || (items.get? key.name).isSome then .error .placed
    else .ok (items ++ [(key, .value value)])) path

def openTable (path : List Key) (key : Key) (standing : Standing) :
    Standing → Items α → Except Conflict (Items α) :=
  within false (fun _ items =>
    match items.get? key.name with
    | none | some (.table .implied _) => .ok (items.opened key standing)
    | some _ => .error .placed) path

def openElement (path : List Key) (key : Key) (standing : Standing) :
    Standing → Items α → Except Conflict (Items α) :=
  within false (fun _ items =>
    match items.get? key.name with
    | none => .ok (items ++ [(key, .tables [(standing, [])])])
    | some (.tables elements) =>
      .ok (items.replace key.name (.tables (elements ++ [(standing, [])])))
    | some _ => .error .placed) path

end Items

mutual

/-- The values that are written in the same table as a node, with their keys from there on. -/
def Node.values (path : List Key) : Node Written → List (List Key × String)
  | .value written => [(path, written.2)]
  | .table .dotted items => Items.values path items
  | .table _ _ | .tables _ => []

def Items.values (path : List Key) : List (Key × Node Written) → List (List Key × String)
  | [] => []
  | (key, node) :: items => node.values (path ++ [key]) ++ Items.values path items

end

/-- A table as it is written: its path, how it came about, and its values. -/
structure Section where
  path : List Key
  isElement : Bool
  standing : Standing
  values : List (List Key × String)

mutual

def Node.sections (path : List Key) : Node Written → List Section
  | .value _ => []
  | .table .dotted items => Items.sections path items
  | .table standing items =>
    ⟨path, false, standing, Items.values [] items⟩ :: Items.sections path items
  | .tables elements => Node.elementSections path elements

def Items.sections (path : List Key) : List (Key × Node Written) → List Section
  | [] => []
  | (key, node) :: items => node.sections (path ++ [key]) ++ Items.sections path items

def Node.elementSections (path : List Key) :
    List (Standing × List (Key × Node Written)) → List Section
  | [] => []
  | (standing, items) :: elements =>
    ⟨path, true, standing, Items.values [] items⟩ :: Items.sections path items ++
      Node.elementSections path elements

end

def pairText (pair : List Key × String) : String :=
  Key.pathText pair.1 ++ "=" ++ pair.2

namespace Section

def isVisible (s : Section) : Bool :=
  !(s.standing.isImplied && s.values.isEmpty)

/-- The header of a table. One that only longer headers imply stands after an empty line, unless
it comes first. -/
def header (isFirst : Bool) (s : Section) : String :=
  let (before, after) := match s.standing with
    | .opened _ before after => (before, after)
    | .implied | .dotted => (if isFirst then "" else "\n", "")
  let (opening, closing) := if s.isElement then ("[[", "]]") else ("[", "]")
  before ++ opening ++ Key.pathText s.path ++ closing ++ after ++ "\n"

def body (s : Section) : String :=
  String.join (s.values.map fun pair => pairText pair ++ "\n")

/-- Pairs every table with its place; one without a header of its own takes the place of the
table before it. -/
def placed : Nat → List Section → List (Nat × Section)
  | _, [] => []
  | last, s :: sections =>
    let place := s.standing.position?.getD last
    (place, s) :: placed place sections

def inOrder (sections : List Section) : List Section :=
  ((placed 0 sections).mergeSort fun a b => a.1 ≤ b.1).map Prod.snd

def allText : Bool → List Section → String
  | _, [] => ""
  | isFirst, s :: sections =>
    if s.isVisible then s.header isFirst ++ s.body ++ allText false sections
    else allText isFirst sections

end Section

def Items.text (items : Items Written) : String :=
  let top : Section := ⟨[], false, .top, Items.values [] items⟩
  let sections := Section.inOrder (Items.sections [] items)
  top.body ++ Section.allText top.values.isEmpty sections

end BranchTrim.Toml
