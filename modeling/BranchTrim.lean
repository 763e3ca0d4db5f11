import BranchTrim.Command.Arguments
import BranchTrim.Command.Filter
import BranchTrim.Command.Program
import BranchTrim.Disk
import BranchTrim.Flow.Block
import BranchTrim.Flow.Count
import BranchTrim.Flow.Fault
import BranchTrim.Flow.Function
import BranchTrim.Flow.Graph
import BranchTrim.Flow.Reach
import BranchTrim.Main
import BranchTrim.Pattern.Check
import BranchTrim.Pattern.Reader
import BranchTrim.Pattern.Syntax
import BranchTrim.Predicate
import BranchTrim.Prune.Branches
import BranchTrim.Prune.Chain
import BranchTrim.Prune.Cut
import BranchTrim.Prune.Dead
import BranchTrim.Prune.Event
import BranchTrim.Prune.Options
import BranchTrim.Prune.Oracle
import BranchTrim.Prune.Outcome
import BranchTrim.Prune.Pipeline
import BranchTrim.Prune.Stats
import BranchTrim.Prune.Sweep
import BranchTrim.Range
import BranchTrim.Refusal
import BranchTrim.Settings
import BranchTrim.Text.Blank
import BranchTrim.Text.Decimal
import BranchTrim.Text.Digit
import BranchTrim.Text.Draft
import BranchTrim.Text.Draft.Body
import BranchTrim.Text.Draft.Parts
import BranchTrim.Text.Letter
import BranchTrim.Text.Lexeme
import BranchTrim.Text.ParseError
import BranchTrim.Text.Parsed
import BranchTrim.Text.Printer
import BranchTrim.Text.Token
import BranchTrim.Toml.Document
import BranchTrim.Toml.Event
import BranchTrim.Toml.Key
import BranchTrim.Toml.Outline
import BranchTrim.Toml.Quoted
import BranchTrim.Toml.Reader
import BranchTrim.Toml.Scalar
import BranchTrim.Toml.Token
import BranchTrim.Toml.Tree
import BranchTrim.Toml.Value
import BranchTrim.Trace
import BranchTrim.Verdict
import BranchTrim.Proofs.Flow.Edges
import BranchTrim.Proofs.Flow.Edits
import BranchTrim.Proofs.Flow.Reach
import BranchTrim.Proofs.Prune.Moves
import BranchTrim.Proofs.Prune.Steps
import BranchTrim.Proofs.Prune.Sweep
import BranchTrim.Proofs.Text.Printable
import BranchTrim.Proofs.Prune.Pipeline
import BranchTrim.Proofs.Text.Resolved
import BranchTrim.Proofs.History
import BranchTrim.Proofs.Prune.Behaviour
import BranchTrim.Proofs.Prune.Swept
import BranchTrim.Proofs.Prune.Idempotence
import BranchTrim.Proofs.Prune.Course
import BranchTrim.Proofs.Prune.Straightened
import BranchTrim.Proofs.Text.Reprinted
import BranchTrim.Proofs.Text.RoundTrip
import BranchTrim.Proofs.Prune.Accounts
import BranchTrim.Proofs.Command.Output
import BranchTrim.Proofs.Prune.Chains
import BranchTrim.Proofs.Prune.Visits
import BranchTrim.Proofs.Prune.Repeated
import BranchTrim.Proofs.Prune.Leftovers
import BranchTrim.Proofs.Prune.Merging
import BranchTrim.Proofs.Prune.Relevance
import BranchTrim.Proofs.Prune.Removal
import BranchTrim.Proofs.Precision
import BranchTrim.Proofs.Prune.Folding
import BranchTrim.Proofs.Prune.Unreached
import BranchTrim.Proofs.Text.WellFormed
import BranchTrim.Proofs.Flow.Folds
import BranchTrim.Proofs.Text.Pieces
import BranchTrim.Proofs.Text.Relined
import BranchTrim.Proofs.Text.Formatting
import BranchTrim.Proofs.Text.Lines
import BranchTrim.Proofs.Text.Built
import BranchTrim.Proofs.Command.Switches
