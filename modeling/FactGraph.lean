import FactGraph.Json.Reader
import FactGraph.Json.Writer
import FactGraph.Reference
import FactGraph.Catalog
import FactGraph.Specification.Reading
import FactGraph.Specification.Peg
import FactGraph.Specification.Printer
import FactGraph.Specification.Vocabulary
import FactGraph.Specification.Encoding
import FactGraph.Plan.Compile
import FactGraph.Plan.Encoding
import FactGraph.Statement.OfPlan
import FactGraph.Statement.Encoding
import FactGraph.Walk.Derive
import FactGraph.Walk.Encoding
import FactGraph.Distribution.Engine
import FactGraph.Distribution.Encoding
import FactGraph.Settings.Encoding
import FactGraph.CommandLine.Run
import FactGraph.Main
import FactGraph.Proofs.Coverage.Order
import FactGraph.Proofs.Coverage.Visits
import FactGraph.Proofs.Coverage.Uniformity
import FactGraph.Proofs.Grammar.Reads
import FactGraph.Proofs.Grammar.Words
import FactGraph.Proofs.Grammar.Tokens
import FactGraph.Proofs.Grammar.Layout
import FactGraph.Proofs.Grammar.Places
import FactGraph.Proofs.Grammar.Printed
import FactGraph.Proofs.Grammar.Spelled
import FactGraph.Proofs.Grammar.Repetition
import FactGraph.Proofs.Grammar.Peg
import FactGraph.Proofs.Grammar.Settled
import FactGraph.Proofs.Grammar.Follows
import FactGraph.Proofs.Grammar.Characters
import FactGraph.Proofs.Grammar.Recovery
import FactGraph.Proofs.Grammar.Yields
import FactGraph.Proofs.Grammar.Taken
import FactGraph.Proofs.Grammar.Written
import FactGraph.Proofs.Grammar.Recognised
import FactGraph.Proofs.Grammar.Trees
import FactGraph.Proofs.Specification.Accepted
import FactGraph.Proofs.Grammar.Names
import FactGraph.Proofs.Specification.Renaming
import FactGraph.Proofs.Specification.RoundTrip
import FactGraph.Proofs.Specification.Respelled
import FactGraph.Proofs.Specification.Formatting
import FactGraph.Proofs.Specification.Layout
import FactGraph.Proofs.Except
import FactGraph.Proofs.Specification.Scope
import FactGraph.Proofs.Walk.Type
import FactGraph.Proofs.Walk.Continuations
import FactGraph.Proofs.Walk.Meaning
import FactGraph.Proofs.Walk.Obligations
import FactGraph.Proofs.Walk.Renaming
import FactGraph.Proofs.Walk.Roles
import FactGraph.Proofs.Walk.Strays
import FactGraph.Proofs.Walk.Outcome
import FactGraph.Proofs.Distribution.Permission
import FactGraph.Proofs.Distribution.StartObligations
import FactGraph.Proofs.Distribution.Projections
import FactGraph.Proofs.Specification.Meaning
import FactGraph.Proofs.Plan.Meaning
import FactGraph.Proofs.Plan.Growth
import FactGraph.Proofs.Plan.Inputs
import FactGraph.Proofs.Plan.Chains
import FactGraph.Proofs.Catalog.Tables
import FactGraph.Proofs.Catalog.Histories
import FactGraph.Proofs.Rows
import FactGraph.Proofs.Plan.Joined
import FactGraph.Proofs.Plan.Paths
import FactGraph.Proofs.Plan.Projected
import FactGraph.Proofs.Plan.Matches
import FactGraph.Proofs.Plan.Start
import FactGraph.Proofs.Store
import FactGraph.Proofs.Plan.Bound
import FactGraph.Proofs.Plan.Order
import FactGraph.Proofs.Plan.Answers
import FactGraph.Proofs.Distribution.Replacement
import FactGraph.Proofs.Plan.Runs
import FactGraph.Proofs.Plan.Linked
import FactGraph.Proofs.Plan.Layout
import FactGraph.Proofs.Plan.Traversal
import FactGraph.Proofs.Plan.Parameters
import FactGraph.Proofs.Statement.Scope
import FactGraph.Proofs.Statement.Connected
import FactGraph.Proofs.Statement.Rendering
import FactGraph.Proofs.Statement.Mentions
import FactGraph.Proofs.Statement.Closed
import FactGraph.Proofs.Statement.Placeholders
import FactGraph.Proofs.Plan.RoleNumbers
import FactGraph.Proofs.Plan.Blank
import FactGraph.Proofs.Statement.Prepared
import FactGraph.Proofs.Plan.Renaming
import FactGraph.Proofs.Statement.Renaming
import FactGraph.Proofs.Paging
import FactGraph.Proofs.Statement.Evaluation
import FactGraph.Proofs.Statement.Pages
import FactGraph.Proofs.Distribution.RuleSets
import FactGraph.Proofs.Specification.Inference
import FactGraph.Proofs.Specification.WellFormed
import FactGraph.Proofs.Plan.Count
import FactGraph.Proofs.Plan.Abreast
import FactGraph.Proofs.Plan.Selections
import FactGraph.Proofs.Statement.Columns
import FactGraph.Proofs.Json.Laws
import FactGraph.Proofs.Json.RoundTrip
import FactGraph.Proofs.Mirrors
import FactGraph.Proofs.Walk.Alike
import FactGraph.Proofs.Walk.Swaps
import FactGraph.Proofs.Distribution.Swaps
import FactGraph.Proofs.Walk.Prolonged
import FactGraph.Proofs.Distribution.Prefixes
import FactGraph.Proofs.Specification.Contexts
import FactGraph.Proofs.Plan.Contexts
import FactGraph.Proofs.Plan.Unsatisfiable
import FactGraph.Proofs.Plan.Usable
import FactGraph.Proofs.Plan.Views
import FactGraph.Proofs.Plan.Impossible
import FactGraph.Proofs.Specification.Intermediates
import FactGraph.Proofs.Walk.Intermediates
import FactGraph.Proofs.Plan.Additions
import FactGraph.Proofs.Plan.Intermediates
import FactGraph.Proofs.Plan.Refusals
import FactGraph.Proofs.Plan.Histories
import FactGraph.Proofs.Plan.Steps
import FactGraph.Proofs.Statement.Failures
import FactGraph.Proofs.Plan.Enforced
import FactGraph.Proofs.Walk.Flat
import FactGraph.Proofs.Plan.Extensions
import FactGraph.Proofs.Specification.Precedence
