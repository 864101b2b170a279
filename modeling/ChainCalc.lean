import ChainCalc.Operator
import ChainCalc.Placeholder
import ChainCalc.Expr.Basic
import ChainCalc.Expr.Printer
import ChainCalc.Expr.Parser
import ChainCalc.Source
import ChainCalc.Text.Blank
import ChainCalc.Text.Quoted
import ChainCalc.Decimal.Layout
import ChainCalc.Decimal.Reading
import ChainCalc.Json.Parser
import ChainCalc.Expr.Regroup
import ChainCalc.Match
import ChainCalc.Captures
import ChainCalc.Pattern
import ChainCalc.Frame
import ChainCalc.Context
import ChainCalc.Arithmetic
import ChainCalc.Evaluation
import ChainCalc.Runtime
import ChainCalc.Compile
import ChainCalc.Standard
import ChainCalc.Server
import ChainCalc.Proofs.Addressing.Compile
import ChainCalc.Proofs.Addressing.Evaluation
import ChainCalc.Proofs.Addressing.Growth
import ChainCalc.Proofs.Addressing.History
import ChainCalc.Proofs.Addressing.Layout
import ChainCalc.Proofs.Addressing.World
import ChainCalc.Proofs.Compile.Acceptance
import ChainCalc.Proofs.Compile.Forms
import ChainCalc.Proofs.Compile.Fresh
import ChainCalc.Proofs.Compile.Outcome
import ChainCalc.Proofs.Compile.Steps
import ChainCalc.Proofs.Compile.Units
import ChainCalc.Proofs.Evaluation.Lockstep
import ChainCalc.Proofs.Evaluation.Schedules
import ChainCalc.Proofs.Evaluation.Steps
import ChainCalc.Proofs.Matching.Chains
import ChainCalc.Proofs.Matching.Steps
import ChainCalc.Proofs.Precedence.Cuts
import ChainCalc.Proofs.Precedence.Meaning
import ChainCalc.Proofs.Precedence.Reading
import ChainCalc.Proofs.Precedence.Tree
import ChainCalc.Proofs.Standard.Chains
import ChainCalc.Proofs.Standard.Entries
import ChainCalc.Proofs.Standard.Factories
import ChainCalc.Proofs.Table
import ChainCalc.Proofs.Workspace.Extends
import ChainCalc.Proofs.Renaming.Anonymous
import ChainCalc.Proofs.Renaming.Compile
import ChainCalc.Proofs.Matching.Instances
import ChainCalc.Proofs.Grammar.Exact
import ChainCalc.Proofs.Grammar.Phrases
import ChainCalc.Proofs.Grammar.Tokens
import ChainCalc.Proofs.Matching.Filling
import ChainCalc.Proofs.Matching.Soundness
import ChainCalc.Proofs.Precedence.Same
import ChainCalc.Proofs.Isolation.Compile
import ChainCalc.Proofs.Isolation.Connections
import ChainCalc.Proofs.Isolation.Engines
import ChainCalc.Proofs.Isolation.Evaluation
import ChainCalc.Proofs.Isolation.Pairing
import ChainCalc.Proofs.Isolation.Workspaces
import ChainCalc.Proofs.Standard.Uniform
import ChainCalc.Proofs.Renaming.Neutral
import ChainCalc.Proofs.Decimal.RoundTrip
import ChainCalc.Proofs.Grammar.Printing
import ChainCalc.Proofs.Grammar.Rereading
import ChainCalc.Proofs.Renaming.Runs
import ChainCalc.Proofs.Evaluation.Halting
import ChainCalc.Proofs.Evaluation.Internal
import ChainCalc.Proofs.Evaluation.Application
import ChainCalc.Proofs.Json.Writing
import ChainCalc.Proofs.Json.Messages
import ChainCalc.Proofs.Redefinition.LateNames
import ChainCalc.Proofs.Redefinition.Sequels
import ChainCalc.Proofs.Compile.Lockstep
import ChainCalc.Proofs.Standard.Unseen
import ChainCalc.Proofs.Inlining.Relation
import ChainCalc.Proofs.Inlining.Evaluation
import ChainCalc.Proofs.Inlining.Compile
import ChainCalc.Proofs.Inlining.Law
import ChainCalc.Proofs.Matching.Offers
import ChainCalc.Proofs.Arithmetic.Integers
import ChainCalc.Proofs.Matching.Weight
import ChainCalc.Proofs.Compile.Ending
import ChainCalc.Proofs.Compile.MatchOrder
import ChainCalc.Proofs.Evaluation.Closures
import ChainCalc.Proofs.Evaluation.Limits
import ChainCalc.Proofs.Evaluation.Traces
import ChainCalc.Proofs.Expr.Parentheses
import ChainCalc.Proofs.Matching.Parentheses
import ChainCalc.Proofs.Matching.Symmetry
import ChainCalc.Proofs.Matching.Vetoes
import ChainCalc.Proofs.Matching.Accounts
import ChainCalc.Proofs.Precedence.Regrouping
import ChainCalc.Proofs.Grammar.Behind
import ChainCalc.Proofs.Grammar.Cutting
import ChainCalc.Proofs.Grammar.Stopping
