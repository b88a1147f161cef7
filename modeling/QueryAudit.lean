import QueryAudit.Audit
import QueryAudit.Document
import QueryAudit.Files
import QueryAudit.Grammar.Executable
import QueryAudit.Grammar.Reader
import QueryAudit.Grammar.TypeSystem
import QueryAudit.Measure
import QueryAudit.Merge
import QueryAudit.NameTable
import QueryAudit.Number
import QueryAudit.Problem
import QueryAudit.Proofs.Checkers
import QueryAudit.Proofs.Memory
import QueryAudit.Proofs.FragmentCycles
import QueryAudit.Proofs.Resolution
import QueryAudit.Proofs.Schemas
import QueryAudit.Proofs.SuppliedVariables
import QueryAudit.Proofs.Tables
import QueryAudit.Proofs.Values
import QueryAudit.Proofs.Walk
import QueryAudit.Rule.Basic
import QueryAudit.Rule.Checker
import QueryAudit.Rule.Fields
import QueryAudit.Rule.Fragments
import QueryAudit.Rule.Operations
import QueryAudit.Schema.Basic
import QueryAudit.Schema.Build
import QueryAudit.Schema.Scalar
import QueryAudit.Setup.Auditor
import QueryAudit.Suggestion
import QueryAudit.Text
import QueryAudit.Toml
import QueryAudit.Value.Basic
import QueryAudit.Value.Check
import QueryAudit.Value.Json
import QueryAudit.Value.Text
import QueryAudit.Walk
import QueryAudit.Proofs.Merge.Gathering
import QueryAudit.Proofs.Merge.Clash
import QueryAudit.Proofs.Merge.Opening
import QueryAudit.Proofs.Merge.Soundness
import QueryAudit.Proofs.Merge.Termination
import QueryAudit.Proofs.Merge.Completeness
import QueryAudit.Proofs.Merge.Verdict
import QueryAudit.Proofs.Measures
import QueryAudit.Proofs.Independence
import QueryAudit.Proofs.Merge.Runs
import QueryAudit.Proofs.Merge.Economy
import QueryAudit.Proofs.Merge.Reading
import QueryAudit.Proofs.Merge.Symmetry
import QueryAudit.Proofs.Substitution
import QueryAudit.Proofs.Codes
import QueryAudit.Proofs.SimpleCycles
import QueryAudit.Proofs.Reachability
import QueryAudit.Proofs.VariableOccurrences
import QueryAudit.Proofs.Order.Sorting
import QueryAudit.Proofs.Order.Merging
import QueryAudit.Proofs.Order.Audits
import QueryAudit.Proofs.UnusedFragments
import QueryAudit.Proofs.VariablePositions
import QueryAudit.Proofs.Declarations
import QueryAudit.Proofs.Overlaps
import QueryAudit.Proofs.Extensions
import QueryAudit.Proofs.Arguments
import QueryAudit.Proofs.Readers
import QueryAudit.Proofs.Scanning
import QueryAudit.Proofs.Repeatability
import QueryAudit.Proofs.Coercion
import QueryAudit.Proofs.RootFields
import QueryAudit.Proofs.Directives
import QueryAudit.Proofs.Nesting
import QueryAudit.Proofs.EditDistance
import QueryAudit.Proofs.Suggestions
import QueryAudit.Proofs.Matching
import QueryAudit.Proofs.SameValues
import QueryAudit.Proofs.Merge.SameArguments
import QueryAudit.Proofs.Merge.Shapes
