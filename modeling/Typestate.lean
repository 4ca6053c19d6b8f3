import Typestate.Analysis
import Typestate.Automaton
import Typestate.Automaton.Action
import Typestate.Automaton.Machine
import Typestate.Automaton.Outcome
import Typestate.Automaton.Pattern
import Typestate.Automaton.Script
import Typestate.Automaton.State
import Typestate.Automaton.Vocabulary
import Typestate.Exploded
import Typestate.Exploded.Build
import Typestate.Exploded.Prune
import Typestate.Exploded.Routes
import Typestate.Exploded.Tree
import Typestate.Expr
import Typestate.Expr.Canonical
import Typestate.Expr.Order
import Typestate.Expr.Render
import Typestate.Fact
import Typestate.Facts
import Typestate.Facts.Assign
import Typestate.Facts.Call
import Typestate.Facts.Flow
import Typestate.Facts.Forest
import Typestate.Facts.Partition
import Typestate.Fault
import Typestate.Fixpoint
import Typestate.Location
import Typestate.Match
import Typestate.Match.Leaks
import Typestate.Match.Possible
import Typestate.Operator
import Typestate.Program
import Typestate.Program.Draft
import Typestate.Report
import Typestate.Report.Witness
import Typestate.Settings
import Typestate.Settings.Document
import Typestate.Settings.Error
import Typestate.Sorted.Map
import Typestate.Sorted.Order
import Typestate.Sorted.Set
import Typestate.Statement
import Typestate.States
import Typestate.States.Context
import Typestate.States.Finding
import Typestate.States.Firing
import Typestate.States.Transfer
import Typestate.States.Workspace
import Typestate.Text.Datum
import Typestate.Text.Distance
import Typestate.Text.Quoted
import Typestate.Text.Template
import Typestate.Word
import Typestate.Yaml.BlockScalar
import Typestate.Yaml.Node
import Typestate.Yaml.Scalar
import Typestate.Proofs.Analysis
import Typestate.Proofs.Calls
import Typestate.Proofs.Facts.Partition
import Typestate.Proofs.Valuation
import Typestate.Proofs.Execution
import Typestate.Proofs.Facts.Entry
import Typestate.Proofs.Facts.Return
import Typestate.Proofs.Facts.Soundness
import Typestate.Proofs.Facts.Survival
import Typestate.Proofs.States.PassThrough
import Typestate.Proofs.Suppression
import Typestate.Proofs.Fixpoint.Descent
import Typestate.Proofs.Facts.Inclusion
import Typestate.Proofs.Fixpoint.Greatest
import Typestate.Proofs.Facts.Monotone
import Typestate.Proofs.Fixpoint.Restriction
import Typestate.Proofs.Exploded.Rounds
import Typestate.Proofs.Limits
import Typestate.Proofs.Fixpoint.Events
import Typestate.Proofs.Recording
import Typestate.Proofs.Fixpoint.Termination
import Typestate.Proofs.Facts.Termination
import Typestate.Proofs.States.Termination
import Typestate.Proofs.Fixpoint.Storing
import Typestate.Proofs.States.Union
import Typestate.Proofs.States.Stored
import Typestate.Proofs.States.Distribution
import Typestate.Proofs.Facts.RoundTrip
import Typestate.Proofs.Facts.Results
import Typestate.Proofs.States.Globals
import Typestate.Proofs.Report.Paths
import Typestate.Proofs.Report.Reachability
import Typestate.Proofs.Attribution
import Typestate.Proofs.Match.Leaks
import Typestate.Proofs.Match.Possible
import Typestate.Proofs.States.Precedence
import Typestate.Proofs.States.Settled
import Typestate.Proofs.States.Aliases
import Typestate.Proofs.Facts.Forest
import Typestate.Proofs.Facts.Closure
import Typestate.Proofs.Facts.Feasibility
import Typestate.Proofs.Facts.Passage
import Typestate.Proofs.Facts.Join
import Typestate.Proofs.Automaton.Reachability
import Typestate.Proofs.States.Semilattice
import Typestate.Proofs.States.Lookup
import Typestate.Proofs.States.Returned
import Typestate.Proofs.Report.Significant
import Typestate.Proofs.Report.Nearest
import Typestate.Proofs.Failing
import Typestate.Proofs.Automaton.References
import Typestate.Proofs.Match.Binding
import Typestate.Proofs.Facts.Labels
import Typestate.Proofs.Text.Template
import Typestate.Proofs.Program.MatchedCalls
import Typestate.Proofs.Report.Headings
import Typestate.Proofs.Expr.Canonical
import Typestate.Proofs.Text.Edits
import Typestate.Proofs.Text.Distance
