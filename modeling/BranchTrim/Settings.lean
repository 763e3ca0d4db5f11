import BranchTrim.Disk
import BranchTrim.Prune.Options
import BranchTrim.Toml.Outline

/-!
Settings kept in a configuration file. A key that the file lacks has its default, and the file can
be completed with the missing keys.
-/

set_option autoImplicit false

namespace BranchTrim

structure Settings where
  /-- The options that have keys of their own. -/
  base : Options
  /-- Switches that are set on top. -/
  switches : String
  /-- Which events are logged. -/
  logFilter : String
  deriving DecidableEq, Repr

inductive SettingsFailure where
  | unreadable (cause : DiskError)
  | malformed
  /-- The file was not even read to its end. -/
  | abandoned
  | unwritable (cause : DiskError)
  | invalid
  deriving DecidableEq, Repr

namespace SettingsFailure

def ofDocument : Toml.DocumentError → SettingsFailure
  | .malformed => malformed
  | .abandoned => abandoned

/-- The wording of a failure for the file at a path. There is none if the file was abandoned. -/
def message? (path : String) : SettingsFailure → Option String
  | unreadable _ => some ("failed to read config file '" ++ path ++ "'")
  | malformed => some ("failed to parse config file '" ++ path ++ "'")
  | abandoned => none
  | unwritable _ => some ("failed to write config file '" ++ path ++ "'")
  | invalid => some ("invalid config file '" ++ path ++ "'")

def cause? : SettingsFailure → Option String
  | unreadable cause | unwritable cause => some cause.message
  | malformed | abandoned | invalid => none

end SettingsFailure

namespace Settings

def default : Settings := ⟨Options.default, "", "info"⟩

/-- The options of the pruner: those with keys of their own, and the switches on top. -/
def options (s : Settings) : Options :=
  s.base.apply s.switches

def booleanKey (name : String) (value : Bool) : String × Toml.Value × String :=
  (name, .boolean value, Toml.booleanText value)

def textKey (name text : String) : String × Toml.Value × String :=
  (name, .string text, Toml.quotedText text)

def keys : List (String × Toml.Value × String) :=
  [booleanKey "merge_blocks" default.base.mergeBlocks,
   booleanKey "sweep_unreachable" default.base.sweepUnreachable,
   booleanKey "verify_each" default.base.verifyEach,
   booleanKey "print_after_all" default.base.printAfterAll,
   textKey "options" default.switches,
   textKey "log_filter" default.logFilter]

def complete (doc : Toml.Document) : Toml.Document :=
  keys.foldl (fun doc (name, value, text) =>
    if doc.has name then doc else doc.insert name value text) doc

def boolean? (doc : Toml.Document) (name : String) : Option Bool :=
  match doc.value? name with
  | some (.boolean value) => some value
  | _ => none

def text? (doc : Toml.Document) (name : String) : Option String :=
  match doc.value? name with
  | some (.string text) => some text
  | _ => none

/-- The settings in a complete document, unless a key has a value of the wrong kind. -/
def ofDocument? (doc : Toml.Document) : Option Settings := do
  let base : Options :=
    ⟨← boolean? doc "merge_blocks", ← boolean? doc "sweep_unreachable",
      ← boolean? doc "verify_each", ← boolean? doc "print_after_all"⟩
  return ⟨base, ← text? doc "options", ← text? doc "log_filter"⟩

/-- The text of a configuration file; a file that is not there is empty. -/
def source : Except DiskError String → Except SettingsFailure String
  | .ok text => .ok text
  | .error .notFound => .ok ""
  | .error cause => .error (.unreadable cause)

def ofText (text : String) : Except SettingsFailure Settings :=
  match (Toml.Document.ofText? text).bind ofDocument? with
  | some settings => .ok settings
  | none => .error .invalid

/-- Loads the settings. On request the completed file is written back, before the kinds of its
values are checked. -/
def load {m : Type → Type} [Monad m] (disk : Disk m) (path : String) (writeBack : Bool) :
    m (Except SettingsFailure Settings) := do
  match source (← disk.read path) with
  | .error failure => return .error failure
  | .ok text =>
    match Toml.Document.read text with
    | .error e => return .error (.ofDocument e)
    | .ok doc =>
      let completed := (complete doc).text
      if writeBack && completed != text then
        match ← disk.write path completed with
        | .error cause => return .error (.unwritable cause)
        | .ok () => return ofText completed
      else return ofText completed

end Settings

end BranchTrim
