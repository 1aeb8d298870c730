import Mutation.Candidate
import Mutation.CandidateFile
import Mutation.CommandLine
import Mutation.Declarations
import Mutation.Fault
import Mutation.Incoming
import Mutation.Json.Decoder
import Mutation.Json.Reader
import Mutation.Json.Value
import Mutation.Json.Writer
import Mutation.Main
import Mutation.Number.Decimal
import Mutation.Number.Double
import Mutation.Number.Wide
import Mutation.Operator.Argument
import Mutation.Operator.Kind
import Mutation.Operator.Literals
import Mutation.Operator.OnExpr
import Mutation.Operator.OnList
import Mutation.Operator.OnStmt
import Mutation.Operator.Outcome
import Mutation.Operator.Purge
import Mutation.Operator.Reduce
import Mutation.Program
import Mutation.Proofs.Acceptance
import Mutation.Proofs.Agreement
import Mutation.Proofs.Altered
import Mutation.Proofs.Apart
import Mutation.Proofs.ArgumentText
import Mutation.Proofs.Brackets
import Mutation.Proofs.Bystanders
import Mutation.Proofs.Capture
import Mutation.Proofs.Cascade
import Mutation.Proofs.CascadeLimit
import Mutation.Proofs.CaseBodies
import Mutation.Proofs.ChainConjunction
import Mutation.Proofs.Checked
import Mutation.Proofs.CheckedEdit
import Mutation.Proofs.CheckedPurge
import Mutation.Proofs.CheckedScan
import Mutation.Proofs.CheckedSurvey
import Mutation.Proofs.CheckedWalk
import Mutation.Proofs.Coherence
import Mutation.Proofs.Consistency
import Mutation.Proofs.Course
import Mutation.Proofs.DeclarationSwaps
import Mutation.Proofs.Decoding
import Mutation.Proofs.Deletion
import Mutation.Proofs.Depth
import Mutation.Proofs.Difference
import Mutation.Proofs.Edited
import Mutation.Proofs.Expense
import Mutation.Proofs.FirstSlot
import Mutation.Proofs.FreeNames
import Mutation.Proofs.GhostShadows
import Mutation.Proofs.Handback
import Mutation.Proofs.IfChain
import Mutation.Proofs.Insertions
import Mutation.Proofs.Invariant
import Mutation.Proofs.JsonText
import Mutation.Proofs.LegibleForms
import Mutation.Proofs.Lexical
import Mutation.Proofs.Likeness
import Mutation.Proofs.ListWalk
import Mutation.Proofs.LiteralValues
import Mutation.Proofs.Mirror
import Mutation.Proofs.NameCollection
import Mutation.Proofs.NameProposals
import Mutation.Proofs.Nesting
import Mutation.Proofs.NumberText
import Mutation.Proofs.Outline
import Mutation.Proofs.Parts
import Mutation.Proofs.Place
import Mutation.Proofs.Proposed
import Mutation.Proofs.Pruning
import Mutation.Proofs.Reached
import Mutation.Proofs.Records
import Mutation.Proofs.Reduction
import Mutation.Proofs.Referents
import Mutation.Proofs.Remainders
import Mutation.Proofs.Replacement
import Mutation.Proofs.RestrictedScan
import Mutation.Proofs.Rounding
import Mutation.Proofs.ScanFile
import Mutation.Proofs.ScopedScan
import Mutation.Proofs.Scoping
import Mutation.Proofs.Settling
import Mutation.Proofs.Size
import Mutation.Proofs.Slot
import Mutation.Proofs.Specification
import Mutation.Proofs.StaticMethods
import Mutation.Proofs.Swaps
import Mutation.Proofs.Targets
import Mutation.Proofs.TreeJson
import Mutation.Proofs.Typing
import Mutation.Proofs.Unambiguous
import Mutation.Proofs.Undoing
import Mutation.Proofs.Unrepeated
import Mutation.Proofs.WellFormed
import Mutation.Proofs.Whereabouts
import Mutation.Proposal
import Mutation.Report
import Mutation.Response
import Mutation.Scan
import Mutation.Scope
import Mutation.Search
import Mutation.Source.Location
import Mutation.Source.Span
import Mutation.Storage
import Mutation.Text.Blank
import Mutation.Text.Bytes
import Mutation.Text.Hidden
import Mutation.Text.Numeral
import Mutation.Text.Quoted
import Mutation.Tree.Alike
import Mutation.Tree.Build
import Mutation.Tree.Expr
import Mutation.Tree.FromJson
import Mutation.Tree.Literal
import Mutation.Tree.Module
import Mutation.Tree.Names
import Mutation.Tree.Size
import Mutation.Tree.Stmt
import Mutation.Tree.Symbol
import Mutation.Tree.ToJson
import Mutation.Tree.Ty
import Mutation.Walk.Context
import Mutation.Walk.Edit
import Mutation.Walk.Flow
import Mutation.Walk.Revision
import Mutation.Walk.Survey
import Mutation.Walk.Trace
