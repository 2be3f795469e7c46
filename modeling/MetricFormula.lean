import MetricFormula.Command.Arguments
import MetricFormula.Command.Run
import MetricFormula.Directory
import MetricFormula.Expr.Basic
import MetricFormula.Expr.Event
import MetricFormula.Expr.Operator
import MetricFormula.Expr.Parser
import MetricFormula.Expr.Printer
import MetricFormula.Expr.RetireLatency
import MetricFormula.Expr.Simplify
import MetricFormula.Expr.Subtree
import MetricFormula.FileSystem
import MetricFormula.FormulaSet.Basic
import MetricFormula.FormulaSet.CrossReference
import MetricFormula.FormulaSet.ReferenceGraph
import MetricFormula.Json.Basic
import MetricFormula.Json.Number
import MetricFormula.Json.Printer
import MetricFormula.Json.Quoted
import MetricFormula.Json.Reader
import MetricFormula.Json.Record
import MetricFormula.Main
import MetricFormula.Metrics.Catalog
import MetricFormula.Metrics.File
import MetricFormula.Metrics.Fixups
import MetricFormula.Metrics.Report
import MetricFormula.Number.Binary64
import MetricFormula.Number.Decimal
import MetricFormula.Number.Numeral
import MetricFormula.Proofs.Command.Canonicalize
import MetricFormula.Proofs.Command.Metrics
import MetricFormula.Proofs.Directory
import MetricFormula.Proofs.Distinct
import MetricFormula.Proofs.Expr.Equality
import MetricFormula.Proofs.Expr.Evaluation
import MetricFormula.Proofs.Expr.LineBreaks
import MetricFormula.Proofs.Expr.NormalForm
import MetricFormula.Proofs.Expr.Passes
import MetricFormula.Proofs.Expr.Placeholder
import MetricFormula.Proofs.Expr.Position
import MetricFormula.Proofs.Expr.Preservation
import MetricFormula.Proofs.Expr.Replace
import MetricFormula.Proofs.Expr.RetireLatency
import MetricFormula.Proofs.Expr.Simplify
import MetricFormula.Proofs.Expr.Step
import MetricFormula.Proofs.Expr.Substitution
import MetricFormula.Proofs.Expr.Subtree
import MetricFormula.Proofs.Expr.Tokens
import MetricFormula.Proofs.Expr.Uncovered
import MetricFormula.Proofs.Expr.WellFormed
import MetricFormula.Proofs.FileSystem
import MetricFormula.Proofs.FormulaSet.Candidates
import MetricFormula.Proofs.FormulaSet.Cycles
import MetricFormula.Proofs.FormulaSet.Definitions
import MetricFormula.Proofs.FormulaSet.Duplicates
import MetricFormula.Proofs.FormulaSet.Histories
import MetricFormula.Proofs.FormulaSet.Inlining
import MetricFormula.Proofs.FormulaSet.Mentions
import MetricFormula.Proofs.FormulaSet.Paths
import MetricFormula.Proofs.FormulaSet.Produced
import MetricFormula.Proofs.FormulaSet.Queries
import MetricFormula.Proofs.FormulaSet.ReadBack
import MetricFormula.Proofs.FormulaSet.Redexes
import MetricFormula.Proofs.FormulaSet.Rewriting
import MetricFormula.Proofs.FormulaSet.Search
import MetricFormula.Proofs.Grammar.Canonical
import MetricFormula.Proofs.Grammar.Completeness
import MetricFormula.Proofs.Grammar.Discipline
import MetricFormula.Proofs.Grammar.Located
import MetricFormula.Proofs.Grammar.Nesting
import MetricFormula.Proofs.Grammar.NestingLimit
import MetricFormula.Proofs.Grammar.Parentheses
import MetricFormula.Proofs.Grammar.Phrase
import MetricFormula.Proofs.Grammar.Places
import MetricFormula.Proofs.Grammar.Printable
import MetricFormula.Proofs.Grammar.Procedures
import MetricFormula.Proofs.Grammar.Returns
import MetricFormula.Proofs.Grammar.RoundTrip
import MetricFormula.Proofs.Grammar.Soundness
import MetricFormula.Proofs.Grammar.Spacing
import MetricFormula.Proofs.Grammar.Spellings
import MetricFormula.Proofs.Grammar.Stability
import MetricFormula.Proofs.Grammar.State
import MetricFormula.Proofs.Grammar.Unambiguous
import MetricFormula.Proofs.Metrics.CrossReference
import MetricFormula.Proofs.Metrics.Loading
import MetricFormula.Proofs.Metrics.Outcomes
import MetricFormula.Proofs.Metrics.Reports
import MetricFormula.Proofs.Metrics.Reprocessing
import MetricFormula.Proofs.Metrics.Skipped
import MetricFormula.Proofs.Metrics.TakenIn
import MetricFormula.Proofs.Metrics.UnknownEvents
import MetricFormula.Proofs.Number.ReadBack
import MetricFormula.Proofs.Number.Spelling
import MetricFormula.Proofs.Number.Value
import MetricFormula.Proofs.Outcome
import MetricFormula.Proofs.Table
import MetricFormula.Proofs.Text.Place
import MetricFormula.Proofs.Token.Characters
import MetricFormula.Proofs.Token.Completeness
import MetricFormula.Proofs.Token.Faults
import MetricFormula.Proofs.Token.Lexeme
import MetricFormula.Proofs.Token.LineBreaks
import MetricFormula.Proofs.Token.Printed
import MetricFormula.Proofs.Token.Soundness
import MetricFormula.Proofs.Token.Spans
import MetricFormula.Proofs.Token.Spelling
import MetricFormula.Proofs.Token.WellFormed
import MetricFormula.SyntaxError
import MetricFormula.Table
import MetricFormula.Text.Blank
import MetricFormula.Text.Position
import MetricFormula.Text.Replace
import MetricFormula.Token.Basic
import MetricFormula.Token.Lexer
