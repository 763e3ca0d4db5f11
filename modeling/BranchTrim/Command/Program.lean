import BranchTrim.Command.Arguments
import BranchTrim.Command.Filter
import BranchTrim.Prune.Pipeline
import BranchTrim.Settings
import BranchTrim.Text.Parsed

/-!
The program: it prunes every function of a file and writes them out again, with
statistics on request.
-/

set_option autoImplicit false

namespace BranchTrim

inductive Notice where
  | pruner (event : Event)
  | optionsChosen (options : Options)
  | functionDone (name : String) (stats : Stats)
  | allDone (stats : Stats)

namespace Notice

def level : Notice → Level
  | pruner event => event.level
  | optionsChosen _ => .debug
  | functionDone .. | allDone _ => .info

def target : Notice → String
  | pruner event => event.target
  | optionsChosen _ | functionDone .. | allDone _ => "rangeprune"

def optionsText (o : Options) : String :=
  "PruneOptions \x7b merge_blocks: " ++ Toml.booleanText o.mergeBlocks ++
    ", sweep_unreachable: " ++ Toml.booleanText o.sweepUnreachable ++
    ", verify_each: " ++ Toml.booleanText o.verifyEach ++
    ", print_after_all: " ++ Toml.booleanText o.printAfterAll ++ " \x7d"

def text : Notice → String
  | pruner event => event.text
  | optionsChosen options => "Using " ++ optionsText options
  | functionDone name stats => "@" ++ name ++ ": " ++ stats.summary
  | allDone stats => "Total: " ++ stats.summary

/-- A character as the log shows it: those that steer a terminal are spelt out. -/
def shownChar (c : Char) : String :=
  if c = '\x1b' then "\\x1b"
  else if c = '\x07' then "\\x07"
  else if c = '\x08' then "\\x08"
  else if c = '\x0c' then "\\x0c"
  else if c = '\x7f' then "\\x7f"
  else if 0x80 ≤ c.toNat ∧ c.toNat ≤ 0x9f then
    "\\u\x7b" ++ String.ofList (Nat.toDigits 16 c.toNat) ++ "\x7d"
  else String.singleton c

/-- The line of a notice in the log; its wording may hold line breaks. -/
def line (n : Notice) : String :=
  n.level.word ++ " " ++ n.target ++ ": " ++ String.join (n.text.toList.map shownChar) ++ "\n"

def shown (filter : Filter) (notices : List Notice) : String :=
  String.join ((notices.filter fun n => filter.shows n.target n.level).map line)

end Notice

def failureReport (message : String) (cause? : Option String) : String :=
  "Error: " ++ message ++ "\n" ++
    cause?.elim "" fun cause => "\nCaused by:\n    " ++ cause ++ "\n"

inductive RunFailure where
  | unreadable (path : String) (cause : DiskError)
  | unparsed (path : String) (cause : ParseError)
  | malformed (func : String) (cause : Defect)
  | broken (cause : Fault)
  | outputUnwritable (path : String) (cause : DiskError)
  | statsUnwritable (path : String) (cause : DiskError)

namespace RunFailure

def message : RunFailure → String
  | unreadable path _ => "failed to read input file '" ++ path ++ "'"
  | unparsed path _ => "failed to parse '" ++ path ++ "'"
  | malformed func _ => "`@" ++ func ++ "` is malformed"
  | broken _ => "internal fault"
  | outputUnwritable path _ => "failed to write output file '" ++ path ++ "'"
  | statsUnwritable path _ => "failed to write statistics to '" ++ path ++ "'"

def cause : RunFailure → String
  | unreadable _ e | outputUnwritable _ e | statsUnwritable _ e => e.message
  | unparsed _ e => e.message
  | malformed _ defect => defect.message
  | broken fault => fault.message?.getD "a block is missing"

end RunFailure

def Options.withFlags (o : Options) (args : Arguments) : Options :=
  { mergeBlocks := o.mergeBlocks && !args.noMerge
    sweepUnreachable := o.sweepUnreachable && !args.noSweep
    verifyEach := o.verifyEach || args.verify
    printAfterAll := o.printAfterAll || args.printAfterAll }

namespace Arguments

/-- The options of a run: those of the settings, the flags, and the text of switches on top. -/
def options (args : Arguments) (settings : Settings) : Options :=
  (settings.options.withFlags args).apply (args.switches.getD "")

def optionNotices (args : Arguments) (settings : Settings) : List Notice :=
  (Options.unrecognized settings.switches ++ Options.unrecognized (args.switches.getD "")).map
      (fun text => .pruner (.optionIgnored text)) ++
    [.optionsChosen (args.options settings)]

/-- The text of the filter of a run, that of the environment or else that of the settings, and the
level that counts when it is left empty. -/
def filterText (settings : Settings) : Option String → Level × String
  | some text => (.error, text)
  | none => (.info, settings.logFilter)

end Arguments

structure Pruned where
  text : String
  stats : Stats

namespace Parsed

def pruneOne (options : Options) (p : Parsed) : Except RunFailure (List Notice × Pruned) := do
  p.func.verify.mapError (.malformed p.func.name)
  let o ← (p.func.prune (RangeTable.ofList p.ranges).oracle options).mapError .broken
  let text ← o.func.print.mapError .broken
  return (o.log.map .pruner ++ [.functionDone o.func.name o.stats], ⟨text ++ "\n\n", o.stats⟩)

/-- Prunes functions one after the other, on top of those already done, up to the
first that fails. -/
def pruneAll (options : Options) :
    List Parsed → Pruned → List Notice × Except RunFailure Pruned
  | [], done => ([], .ok done)
  | p :: ps, done =>
    match p.pruneOne options with
    | .error e => ([], .error e)
    | .ok (notices, one) =>
      let (later, result) := pruneAll options ps ⟨done.text ++ one.text, done.stats + one.stats⟩
      (notices ++ later, result)

def pruneText (options : Options) (path text : String) : List Notice × Except RunFailure Pruned :=
  match readAll text with
  | .error e => ([], .error (.unparsed path e))
  | .ok functions =>
    let (notices, result) := pruneAll options functions ⟨"", .zero⟩
    match result with
    | .ok pruned => (notices ++ [.allDone pruned.stats], .ok pruned)
    | .error e => (notices, .error e)

end Parsed

def Stats.json (s : Stats) : String :=
  let line := fun (name : String) (count : Nat) => "  \"" ++ name ++ "\": " ++ Text.decimal count
  "\x7b\n" ++ line "insts_eliminated" s.instsEliminated ++ ",\n" ++
    line "blocks_eliminated" s.blocksEliminated ++ ",\n" ++
    line "blocks_merged" s.blocksMerged ++ ",\n" ++
    line "branches_pruned" s.branchesPruned ++ "\n\x7d"

/-- What a run of the program shows: the exit code, the output, and the log with the report
of a failure. -/
structure Report where
  exitCode : Nat
  output : String
  log : String
  deriving DecidableEq, Repr

namespace Report

/-- The report of a run that breaks off with nothing but the log so far. -/
def abandoned (log : String) : Report := ⟨101, "", log⟩

def ofSettingsFailure (path : String) (e : SettingsFailure) : Report :=
  match e.message? path with
  | some message => ⟨1, "", failureReport message e.cause?⟩
  | none => abandoned ""

end Report

namespace Program

variable {m : Type → Type} [Monad m]

def writeTo (disk : Disk m) (path : Option String) (text : String)
    (failure : String → DiskError → RunFailure) : m (Except RunFailure Unit) := do
  match path with
  | none => return .ok ()
  | some path => return (← disk.write path text).mapError (failure path)

/-- Writes the functions and the statistics where the arguments say, and returns what goes
to the output. -/
def deliver (disk : Disk m) (args : Arguments) (pruned : Pruned) :
    m (String × Except RunFailure Unit) := do
  match ← writeTo disk args.output pruned.text .outputUnwritable with
  | .error e => return ("", .error e)
  | .ok () =>
    let output := if args.output.isSome then "" else pruned.text
    return (output, ← writeTo disk args.statsFile pruned.stats.json .statsUnwritable)

def process (disk : Disk m) (args : Arguments) (options : Options) :
    m (List Notice × String × Except RunFailure Unit) := do
  match ← disk.read args.input with
  | .error e => return ([], "", .error (.unreadable args.input e))
  | .ok text =>
    match Parsed.pruneText options args.input text with
    | (notices, .error e) => return (notices, "", .error e)
    | (notices, .ok pruned) => return (notices, ← deliver disk args pruned)

def runLogged (disk : Disk m) (args : Arguments) (settings : Settings) (fallback : Level)
    (filterText : String) : m Report := do
  let (notices, output, result) ← process disk args (args.options settings)
  let complaints := String.join ((Filter.complaints filterText).map (· ++ "\n"))
  let log := complaints ++ Notice.shown (.ofText fallback filterText)
    (args.optionNotices settings ++ notices)
  match result with
  | .ok () => return ⟨0, output, log⟩
  | .error e => return ⟨1, output, log ++ failureReport e.message (some e.cause)⟩

def runWith (disk : Disk m) (environment : Option String) (args : Arguments) : m Report := do
  match ← Settings.load disk args.config args.initConfig with
  | .error e => return .ofSettingsFailure args.config e
  | .ok settings =>
    let (fallback, filterText) := Arguments.filterText settings environment
    if Filter.isAbandoned filterText then
      return .abandoned (String.join ((Filter.complaints filterText).map (· ++ "\n")))
    else runLogged disk args settings fallback filterText

def run (disk : Disk m) (environment : Option String) (words : List String) : m Report := do
  match Arguments.read words with
  | .error .version => return ⟨0, "rangeprune 0.1.0\n", ""⟩
  | .error .usage => return ⟨2, "", ""⟩
  | .ok args => runWith disk environment args

end Program

end BranchTrim
