import BranchTrim.Toml.Token

/-!
What happens along a TOML text, be it a document or not. A text with faults is read on to its end: a
key or a value that is missing is put in, and what fits nowhere is passed over.
-/

set_option autoImplicit false

namespace BranchTrim.Toml

inductive Event where
  | headerOpen (isElement : Bool)
  | headerClose
  | tableOpen
  | tableClose
  | arrayOpen
  | arrayClose
  | key (key : Key)
  | dot
  | equals
  | scalar
  | comma
  | blank
  | lineEnd
  | fault

inductive Need where
  | key
  | equals
  | value
  | comma
  deriving DecidableEq

namespace Event

abbrev Read := List Event × List Token

def Read.after (events : List Event) (r : Read) : Read :=
  (events ++ r.1, r.2)

def missing : Event := key (.ofSpelling "" "")

def lineRest : List Token → Read
  | [] => ([], [])
  | .lineBreak :: ts => ([lineEnd], ts)
  | .blank :: ts => (lineRest ts).after [blank]
  | _ :: ts => (lineRest ts).after [fault]

/-- Passes over tokens up to a closing one that belongs to no pair of brackets or braces
on the way. -/
def skipTo (closing : Token) : Nat → Nat → List Token → Read
  | _, _, [] => ([], [])
  | brackets, braces, t :: ts =>
    match t with
    | .lineBreak => (skipTo closing brackets braces ts).after [lineEnd]
    | .blank => (skipTo closing brackets braces ts).after [blank]
    | .openBracket => (skipTo closing (brackets + 1) braces ts).after [fault]
    | .openBrace => (skipTo closing brackets (braces + 1) ts).after [fault]
    | .closeBracket =>
      if closing = .closeBracket ∧ brackets = 0 then ([arrayClose], ts)
      else (skipTo closing (brackets - 1) braces ts).after [fault]
    | .closeBrace =>
      if closing = .closeBrace ∧ braces = 0 then ([tableClose], ts)
      else (skipTo closing brackets (braces - 1) ts).after [fault]
    | _ => (skipTo closing brackets braces ts).after [fault]

/-- Reads the parts of a key. The flag tells whether a part has to come before the next dot. -/
def keyParts : Bool → List Token → Read
  | true, [] => ([missing], [])
  | false, [] => ([], [])
  | true, t :: ts =>
    match t with
    | .blank => (keyParts true ts).after [blank]
    | .dot => (keyParts true ts).after [missing, dot]
    | t =>
      match t.key? with
      | some part => (keyParts false ts).after [key part]
      | none => ([missing], t :: ts)
  | false, .dot :: ts => (keyParts true ts).after [dot]
  | false, .blank :: .dot :: ts => (keyParts true ts).after [blank, dot]
  | false, .blank :: ts => ([blank], ts)
  | false, ts => ([], ts)

def optionalBlank : List Token → Read
  | .blank :: ts => ([blank], ts)
  | ts => ([], ts)

/-- Whether a word can be a date, which a time may follow after a blank. -/
def isDate (text : String) : Bool :=
  text.length == 10 && text.toList.all fun c => c.isDigit || c == '-'

def dropScalar : List Token → List Token
  | .dot :: ts | .word _ :: ts => dropScalar ts
  | ts => ts

def afterScalar (first : Token) (ts : List Token) : List Token :=
  match first, ts with
  | .quoted .., ts => ts
  | .word text, .blank :: .word time :: rest =>
    if isDate text && time.toList.head?.any Char.isDigit then dropScalar rest
    else .blank :: .word time :: rest
  | _, ts => dropScalar ts

mutual

def arrayRest : Nat → Bool → List Token → Read
  | 0, _, ts => ([], ts)
  | _, _, [] => ([arrayClose], [])
  | fuel + 1, needsValue, t :: ts =>
    match t with
    | .lineBreak => (arrayRest fuel needsValue ts).after [lineEnd]
    | .blank => (arrayRest fuel needsValue ts).after [blank]
    | .comma => (arrayRest fuel true ts).after [if needsValue then fault else comma]
    | .equals => (arrayRest fuel needsValue ts).after [fault]
    | .closeBracket => ([arrayClose], ts)
    | t =>
      let (events, ts) := valueRest fuel t ts
      (arrayRest fuel false ts).after events

def tableRest : Nat → Need → List Token → Read
  | 0, _, ts => ([], ts)
  | _, _, [] => ([tableClose], [])
  | fuel + 1, need, t :: ts =>
    match t, need with
    | .lineBreak, _ => (tableRest fuel need ts).after [lineEnd]
    | .blank, _ => (tableRest fuel need ts).after [blank]
    | .closeBrace, _ => ([tableClose], ts)
    | .comma, .comma => (tableRest fuel .key ts).after [comma]
    | .comma, _ => (tableRest fuel need ts).after [fault]
    | .equals, .key => (tableRest fuel .value ts).after [missing, equals]
    | .equals, .equals => (tableRest fuel .value ts).after [equals]
    | .equals, _ => (tableRest fuel need ts).after [fault]
    | .closeBracket, .key | .closeBracket, .equals | .closeBracket, .comma =>
      (tableRest fuel need ts).after [fault]
    | .openBrace, .key | .openBrace, .comma =>
      let (events, ts) := skipTo .closeBrace 0 0 ts
      (tableRest fuel need ts).after (fault :: events)
    | .openBracket, .key | .openBracket, .comma =>
      let (events, ts) := skipTo .closeBracket 0 0 ts
      (tableRest fuel need ts).after (fault :: events)
    | t, .key =>
      let (events, ts) := keyParts true (t :: ts)
      (tableRest fuel .equals ts).after events
    | t, .comma =>
      let (events, ts) := keyParts true (t :: ts)
      (tableRest fuel .equals ts).after (comma :: events)
    | t, _ =>
      let (events, ts) := valueRest fuel t ts
      (tableRest fuel .comma ts).after events

/-- Reads a value that begins with a token. An equals sign too many is a fault before the value. -/
def valueRest : Nat → Token → List Token → Read
  | 0, _, ts => ([], ts)
  | fuel + 1, t, ts =>
    match t with
    | .openBracket => (arrayRest fuel true ts).after [arrayOpen]
    | .openBrace => (tableRest fuel .key ts).after [tableOpen]
    | .closeBracket => ([arrayOpen, arrayClose], ts)
    | .closeBrace => ([tableOpen, tableClose], ts)
    | .equals =>
      match ts with
      | [] => ([fault, scalar], [])
      | t :: ts => (valueRest fuel t ts).after [fault]
    | .comma | .lineBreak | .blank => ([scalar], t :: ts)
    | .dot | .word _ | .quoted .. => ([scalar], afterScalar t ts)

end

def afterEquals (ts : List Token) : Read :=
  let (before, ts) := optionalBlank ts
  let (value, ts) := match ts with
    | [] => ([scalar], [])
    | t :: rest => valueRest (2 * ts.length) t rest
  (lineRest ts).after (before ++ value)

def pairLine (ts : List Token) : Read :=
  let (parts, ts) := keyParts true ts
  let (blanks, ts) := optionalBlank ts
  match ts with
  | .equals :: ts => (afterEquals ts).after (parts ++ blanks ++ [equals])
  | ts => (lineRest ts).after (parts ++ blanks)

def headerLine (ts : List Token) : Read :=
  let (isElement, ts) := match ts with
    | .openBracket :: ts => (true, ts)
    | ts => (false, ts)
  let (parts, ts) := keyParts true ts
  let (blanks, ts) := optionalBlank ts
  let (close, ts) := match isElement, ts with
    | false, .closeBracket :: ts | true, .closeBracket :: .closeBracket :: ts => ([headerClose], ts)
    | true, .closeBracket :: ts => ([], ts)
    | _, ts => ([], ts)
  (lineRest ts).after (headerOpen isElement :: parts ++ blanks ++ close)

def line (t : Token) (ts : List Token) : Read :=
  match t with
  | .openBracket => headerLine ts
  | .closeBracket | .comma | .openBrace | .closeBrace => (lineRest ts).after [fault]
  | .equals => (afterEquals ts).after [missing, equals]
  | t => pairLine (t :: ts)

def ofTokens : Nat → List Token → List Event
  | 0, _ | _, [] => []
  | fuel + 1, t :: ts =>
    match t with
    | .blank => blank :: ofTokens fuel ts
    | .lineBreak => lineEnd :: ofTokens fuel ts
    | t =>
      let (events, ts) := line t ts
      events ++ ofTokens fuel ts

end Event

end BranchTrim.Toml
