import InvariantProver.Data.Cleanup
import InvariantProver.Data.Entries
import InvariantProver.Number.Binary64
import InvariantProver.Number.Fraction
import InvariantProver.Number.Shortest
import InvariantProver.Proofs.Data.Alike
import InvariantProver.Proofs.Data.Checked
import InvariantProver.Proofs.Data.Outcome
import InvariantProver.Proofs.Data.Pairs
import InvariantProver.Proofs.Number.Readable
import InvariantProver.Proofs.Prover.Accounting
import InvariantProver.Proofs.Prover.Agreement
import InvariantProver.Proofs.Prover.Alignment
import InvariantProver.Proofs.Prover.Calls
import InvariantProver.Proofs.Prover.Cancellation
import InvariantProver.Proofs.Prover.Checks
import InvariantProver.Proofs.Prover.Deepening
import InvariantProver.Proofs.Prover.Exactness
import InvariantProver.Proofs.Prover.Finishing
import InvariantProver.Proofs.Prover.Forecast
import InvariantProver.Proofs.Prover.History
import InvariantProver.Proofs.Prover.Independence
import InvariantProver.Proofs.Prover.Inheritance
import InvariantProver.Proofs.Prover.Justification
import InvariantProver.Proofs.Prover.Lasting
import InvariantProver.Proofs.Prover.Likeness
import InvariantProver.Proofs.Prover.Ordering
import InvariantProver.Proofs.Prover.Placing
import InvariantProver.Proofs.Prover.Progress
import InvariantProver.Proofs.Prover.Queries
import InvariantProver.Proofs.Prover.Reasons
import InvariantProver.Proofs.Prover.Refinement
import InvariantProver.Proofs.Prover.Registry
import InvariantProver.Proofs.Prover.Release
import InvariantProver.Proofs.Prover.Rounds
import InvariantProver.Proofs.Prover.Saying
import InvariantProver.Proofs.Prover.Sequential
import InvariantProver.Proofs.Prover.Service
import InvariantProver.Proofs.Prover.Soundness
import InvariantProver.Proofs.Prover.Standalone
import InvariantProver.Proofs.Prover.Streams
import InvariantProver.Proofs.Prover.Strengthening
import InvariantProver.Proofs.Prover.Strikes
import InvariantProver.Proofs.Prover.Supervision
import InvariantProver.Proofs.Prover.Unhindered
import InvariantProver.Proofs.SExpr.Completeness
import InvariantProver.Proofs.SExpr.Faults
import InvariantProver.Proofs.SExpr.Gaps
import InvariantProver.Proofs.SExpr.Layout
import InvariantProver.Proofs.SExpr.Lexemes
import InvariantProver.Proofs.SExpr.Notations
import InvariantProver.Proofs.SExpr.Spelling
import InvariantProver.Proofs.SExpr.Values
import InvariantProver.Proofs.Session.Acts
import InvariantProver.Proofs.Session.Conversation
import InvariantProver.Proofs.Session.Decisive
import InvariantProver.Proofs.Session.Dialogue
import InvariantProver.Proofs.Session.Exchanges
import InvariantProver.Proofs.Session.Exhaustion
import InvariantProver.Proofs.Session.Framing
import InvariantProver.Proofs.Session.Inquiries
import InvariantProver.Proofs.Session.Ledgers
import InvariantProver.Proofs.Session.Links
import InvariantProver.Proofs.Session.Mirrors
import InvariantProver.Proofs.Session.Misuses
import InvariantProver.Proofs.Session.Models
import InvariantProver.Proofs.Session.Obliging
import InvariantProver.Proofs.Session.Oracles
import InvariantProver.Proofs.Session.Piping
import InvariantProver.Proofs.Session.Printer
import InvariantProver.Proofs.Session.Reached
import InvariantProver.Proofs.Session.Recordings
import InvariantProver.Proofs.Session.Refusals
import InvariantProver.Proofs.Session.Responses
import InvariantProver.Proofs.Session.Restoring
import InvariantProver.Proofs.Session.Scoping
import InvariantProver.Proofs.Session.Scripts
import InvariantProver.Proofs.Session.Speaking
import InvariantProver.Proofs.Session.Strikes
import InvariantProver.Proofs.Session.Transcripts
import InvariantProver.Proofs.Session.Turns
import InvariantProver.Proofs.Session.Unknowns
import InvariantProver.Proofs.Session.Willing
import InvariantProver.Proofs.Smt.Expressions
import InvariantProver.Proofs.Smt.Legality
import InvariantProver.Proofs.Smt.Literals
import InvariantProver.Proofs.Smt.Meaning
import InvariantProver.Proofs.Smt.Operators
import InvariantProver.Proofs.Smt.Standard
import InvariantProver.Proofs.Smt.Theory
import InvariantProver.Proofs.Solver.Lines
import InvariantProver.Proofs.Term.Building
import InvariantProver.Proofs.Term.Conjunction
import InvariantProver.Proofs.Term.Connectives
import InvariantProver.Proofs.Term.Constructors
import InvariantProver.Proofs.Term.Equality
import InvariantProver.Proofs.Term.Meaning
import InvariantProver.Proofs.Term.Reading
import InvariantProver.Proofs.Term.Rebuilding
import InvariantProver.Proofs.Term.Replacing
import InvariantProver.Proofs.Term.Shift
import InvariantProver.Proofs.Term.Typing
import InvariantProver.Proofs.Text.Numeral
import InvariantProver.Proofs.Text.Trimming
import InvariantProver.Proofs.TransitionSystem.Acceptance
import InvariantProver.Proofs.TransitionSystem.Declarations
import InvariantProver.Proofs.TransitionSystem.Denotation
import InvariantProver.Proofs.TransitionSystem.Depths
import InvariantProver.Proofs.TransitionSystem.Diagnostics
import InvariantProver.Proofs.TransitionSystem.Elaboration
import InvariantProver.Proofs.TransitionSystem.Elimination
import InvariantProver.Proofs.TransitionSystem.Encoding
import InvariantProver.Proofs.TransitionSystem.Execution
import InvariantProver.Proofs.TransitionSystem.Genuine
import InvariantProver.Proofs.TransitionSystem.Induction
import InvariantProver.Proofs.TransitionSystem.Lexical
import InvariantProver.Proofs.TransitionSystem.Naming
import InvariantProver.Proofs.TransitionSystem.Predicates
import InvariantProver.Proofs.TransitionSystem.Preservation
import InvariantProver.Proofs.TransitionSystem.Replay
import InvariantProver.Proofs.TransitionSystem.Resolution
import InvariantProver.Proofs.TransitionSystem.Rules
import InvariantProver.Proofs.TransitionSystem.Scopes
import InvariantProver.Proofs.TransitionSystem.Shadowing
import InvariantProver.Proofs.TransitionSystem.Symbols
import InvariantProver.Proofs.TransitionSystem.Usage
import InvariantProver.Proofs.TransitionSystem.Walk
import InvariantProver.Prover.Attempt
import InvariantProver.Prover.BaseCase
import InvariantProver.Prover.Config
import InvariantProver.Prover.Engine
import InvariantProver.Prover.InductionStep
import InvariantProver.Prover.Request
import InvariantProver.Prover.Result
import InvariantProver.SExpr.Balance
import InvariantProver.SExpr.Basic
import InvariantProver.SExpr.Reader
import InvariantProver.SExpr.Token
import InvariantProver.SExpr.Value
import InvariantProver.Session.Bare
import InvariantProver.Session.Basic
import InvariantProver.Session.Error
import InvariantProver.Session.Memory
import InvariantProver.Session.Pipe
import InvariantProver.Session.Scripted
import InvariantProver.Session.Timing
import InvariantProver.Smt.Command
import InvariantProver.Smt.Formula
import InvariantProver.Smt.Text
import InvariantProver.Solver.Basic
import InvariantProver.Solver.Peer
import InvariantProver.Solver.Selection
import InvariantProver.Term.Basic
import InvariantProver.Term.Coercion
import InvariantProver.Term.Construction
import InvariantProver.Term.Evaluation
import InvariantProver.Term.Irrational
import InvariantProver.Term.Literal
import InvariantProver.Term.Operator
import InvariantProver.Term.Order
import InvariantProver.Term.Substitution
import InvariantProver.Term.Text
import InvariantProver.Term.Ty
import InvariantProver.Text.Blank
import InvariantProver.Text.Digit
import InvariantProver.Text.Numeral
import InvariantProver.Text.Path
import InvariantProver.Text.Printable
import InvariantProver.Text.Quoted
import InvariantProver.TransitionSystem.Basic
import InvariantProver.TransitionSystem.Building
import InvariantProver.TransitionSystem.Scope
import InvariantProver.TransitionSystem.Script
import InvariantProver.TransitionSystem.Trace
import InvariantProver.TransitionSystem.Unrolling
