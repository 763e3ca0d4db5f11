import BranchTrim.Text.Blank

/-!
Options of the pruner, and the switches that a text can set. A text is made of words: a long switch
such as `--no-merge`, or a dash with the letters of short switches in either case.
-/

set_option autoImplicit false

namespace BranchTrim

structure Options where
  /-- Fold the straight chain that a cut leaves behind. -/
  mergeBlocks : Bool
  /-- Remove what cannot be reached from the entry any more. -/
  sweepUnreachable : Bool
  /-- Check the edges of the function after every stage. -/
  verifyEach : Bool
  /-- Log the function after every stage. -/
  printAfterAll : Bool
  deriving DecidableEq, Repr

/-- A switch in a text of options, or a part of it that is none. -/
inductive Switch where
  | noMerge
  | noSweep
  | verify
  | printAfterAll
  | unrecognized (text : String)
  deriving DecidableEq, Repr

namespace Switch

def ofLong (word : String) : Switch :=
  if word = "--no-merge" then noMerge
  else if word = "--no-sweep" then noSweep
  else if word = "--verify" then verify
  else if word = "--print-after-all" then printAfterAll
  else unrecognized word

def ofLetter (c : Char) : Switch :=
  match c.toLower with
  | 'm' => noMerge
  | 's' => noSweep
  | 'v' => verify
  | 'p' => printAfterAll
  | _ => unrecognized (String.ofList ['-', c])

def ofWord : List Char → List Switch
  | '-' :: '-' :: name => [ofLong (String.ofList ('-' :: '-' :: name))]
  | '-' :: letters => letters.map ofLetter
  | word => [unrecognized (String.ofList word)]

def ofText (text : String) : List Switch :=
  (Text.words text.toList).flatMap ofWord

def unrecognized? : Switch → Option String
  | unrecognized text => some text
  | _ => none

end Switch

namespace Options

/-- Blocks are merged and swept; nothing is checked or logged. -/
def default : Options := ⟨true, true, false, false⟩

/-- Sets a switch. What is no switch has no effect. -/
def set (o : Options) : Switch → Options
  | .noMerge => { o with mergeBlocks := false }
  | .noSweep => { o with sweepUnreachable := false }
  | .verify => { o with verifyEach := true }
  | .printAfterAll => { o with printAfterAll := true }
  | .unrecognized _ => o

def apply (o : Options) (text : String) : Options :=
  (Switch.ofText text).foldl set o

def unrecognized (text : String) : List String :=
  (Switch.ofText text).filterMap Switch.unrecognized?

end Options

end BranchTrim
