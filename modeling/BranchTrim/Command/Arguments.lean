/-!
Arguments of the command line. They are read from left to right, and each parameter is given
at most once.
-/

set_option autoImplicit false

namespace BranchTrim

inductive Parameter where
  | input
  | output
  | config
  | statsFile
  | switches
  | initConfig
  | noMerge
  | noSweep
  | verify
  | printAfterAll
  deriving DecidableEq, Repr

namespace Parameter

def ofName? (name : String) : Option Parameter :=
  [("output", output), ("config", config), ("stats-json", statsFile), ("options", switches),
    ("init-config", initConfig), ("no-merge", noMerge), ("no-sweep", noSweep), ("verify", verify),
    ("print-after-all", printAfterAll)].lookup name

def takesValue : Parameter → Bool
  | input | output | config | statsFile | switches => true
  | initConfig | noMerge | noSweep | verify | printAfterAll => false

/-- Whether the next word can be the value of a parameter. Only switches may start with a dash; a
dash alone is a path. -/
def accepts (p : Parameter) (word : String) : Bool :=
  p == switches || word == "-" || word.toList.head? != some '-'

def isValue (p : Parameter) (text : String) : Bool :=
  p == switches || !p.takesValue || !text.isEmpty

end Parameter

inductive Refusal where
  /-- The version is asked for. -/
  | version
  | usage
  deriving DecidableEq, Repr

structure Arguments where
  input : String
  output : Option String
  config : String
  statsFile : Option String
  switches : Option String
  initConfig : Bool
  noMerge : Bool
  noSweep : Bool
  verify : Bool
  printAfterAll : Bool
  deriving DecidableEq, Repr

structure ArgumentState where
  /-- The parameters given so far with their values. -/
  given : List (Parameter × String)
  /-- The parameter whose value comes next. -/
  pending : Option Parameter
  /-- Whether all that follows is input. -/
  ended : Bool

namespace ArgumentState

def start : ArgumentState := ⟨[], none, false⟩

def give (s : ArgumentState) (p : Parameter) (text : String) : Except Refusal ArgumentState :=
  if (s.given.lookup p).isSome || !p.isValue text then .error .usage
  else .ok { s with given := s.given ++ [(p, text)], pending := none }

/-- Reads a long name, with the value after an equals sign if there is one. -/
def long (s : ArgumentState) (body : List Char) : Except Refusal ArgumentState :=
  let name := String.ofList (body.takeWhile (· != '='))
  match body.dropWhile (· != '='), Parameter.ofName? name with
  | [], none => .error (if name = "version" then .version else .usage)
  | _ :: _, none => .error .usage
  | [], some p => if p.takesValue then .ok { s with pending := some p } else s.give p ""
  | _ :: value, some p => if p.takesValue then s.give p (String.ofList value) else .error .usage

/-- Reads a short name, with the value right after it if there is one. -/
def short (s : ArgumentState) : List Char → Except Refusal ArgumentState
  | 'V' :: _ => .error .version
  | ['o'] => .ok { s with pending := some .output }
  | 'o' :: '=' :: value => s.give .output (String.ofList value)
  | 'o' :: value => s.give .output (String.ofList value)
  | _ => .error .usage

def step (s : ArgumentState) (word : String) : Except Refusal ArgumentState :=
  match s.pending with
  | some p => if p.accepts word then s.give p word else .error .usage
  | none =>
    if s.ended then s.give .input word
    else
      match word.toList with
      | ['-', '-'] => .ok { s with ended := true }
      | '-' :: '-' :: body => s.long body
      | '-' :: c :: cs => s.short (c :: cs)
      | _ => s.give .input word

def finish (s : ArgumentState) : Except Refusal Arguments :=
  let isGiven := fun p => (s.given.lookup p).isSome
  match s.pending, s.given.lookup .input with
  | none, some input => .ok {
      input
      output := s.given.lookup .output
      config := (s.given.lookup .config).getD "rangeprune.toml"
      statsFile := s.given.lookup .statsFile
      switches := s.given.lookup .switches
      initConfig := isGiven .initConfig
      noMerge := isGiven .noMerge
      noSweep := isGiven .noSweep
      verify := isGiven .verify
      printAfterAll := isGiven .printAfterAll }
  | _, _ => .error .usage

end ArgumentState

def Arguments.read (words : List String) : Except Refusal Arguments := do
  (← words.foldlM ArgumentState.step .start).finish

end BranchTrim
