import Juxta.CommandLine
import Juxta.Decimal.Basic
import Juxta.Decimal.Binary64
import Juxta.Decimal.Layout
import Juxta.Decimal.Numeral
import Juxta.Decimal.Shortest
import Juxta.Environment
import Juxta.Evaluation
import Juxta.Highlight
import Juxta.Main
import Juxta.Name
import Juxta.Node.Basic
import Juxta.Node.Equality
import Juxta.Node.Number
import Juxta.Node.Printer
import Juxta.Parser.Basic
import Juxta.Parser.Grammar
import Juxta.Parser.Source
import Juxta.Parser.Trace
import Juxta.Repl.Command
import Juxta.Repl.Session
import Juxta.Run
import Juxta.Text.Blank
import Juxta.Text.Digit
import Juxta.Text.Newlines
import Juxta.Text.Position
import Juxta.Text.Quoted
import Juxta.Token.Basic
import Juxta.Token.Lexeme
import Juxta.Token.Lexer
import Juxta.Value.Basic
import Juxta.Value.Failure
import Juxta.Value.Operator
import Juxta.Variables
import Juxta.Proofs.Parser.Reading
import Juxta.Proofs.Parser.Logic
import Juxta.Proofs.Parser.Agreement
import Juxta.Proofs.Parser.Lookahead
import Juxta.Proofs.Parser.EarliestError
import Juxta.Proofs.Decimal.Numeral
import Juxta.Proofs.Token.Exchange
import Juxta.Proofs.Token.Tiling
import Juxta.Proofs.Token.Layout
import Juxta.Proofs.Parser.Linearization
import Juxta.Proofs.Evaluation.Logic
import Juxta.Proofs.Evaluation.FailingPath
import Juxta.Proofs.Evaluation.Forgetting
import Juxta.Proofs.Run.Session
import Juxta.Proofs.Parser.Relabeling
import Juxta.Proofs.Parser.Modes
import Juxta.Proofs.Parser.Words
import Juxta.Proofs.Run.Location
import Juxta.Proofs.Evaluation.Ordinary
import Juxta.Proofs.Run.Outcomes
import Juxta.Proofs.Run.Layout
import Juxta.Proofs.Evaluation.Host
import Juxta.Proofs.Parser.EntryPoints
import Juxta.Proofs.Repl.Commands
import Juxta.Proofs.Evaluation.Effects
import Juxta.Proofs.Evaluation.Range
import Juxta.Proofs.Run.Range
import Juxta.Proofs.Contents
import Juxta.Proofs.Token.StringPattern
import Juxta.Proofs.Environment.History
import Juxta.Proofs.Parser.Tracing
import Juxta.Proofs.Run.Diagnostics
import Juxta.Proofs.Evaluation.Quotation
import Juxta.Proofs.Value.Division
import Juxta.Proofs.Decimal.Digits
import Juxta.Proofs.Value.Words
import Juxta.Proofs.Run.Chains
import Juxta.Proofs.Highlight
import Juxta.Proofs.Decimal.Magnitude
import Juxta.Proofs.Decimal.Shortest
import Juxta.Proofs.Decimal.Notation
import Juxta.Proofs.Decimal.Writing
import Juxta.Proofs.Node.Outline
import Juxta.Proofs.Token.Strings
import Juxta.Proofs.Parser.Outline
import Juxta.Proofs.Parser.Separators
import Juxta.Proofs.Run.Grouping
import Juxta.Proofs.Evaluation.Connectives
import Juxta.Proofs.Evaluation.Formulas
import Juxta.Proofs.Token.LongestMatch
import Juxta.Proofs.Text.Position
import Juxta.Proofs.Highlight.Lines
import Juxta.Proofs.Parser.StatementEnds
import Juxta.Proofs.Evaluation.FirstPlace
import Juxta.Proofs.Run.Assignments
import Juxta.Proofs.Repl.Slashes
import Juxta.Proofs.Decimal.Exactness
import Juxta.Proofs.Parser.InStep
import Juxta.Proofs.Parser.Progress
import Juxta.Proofs.Parser.Alternatives
import Juxta.Proofs.Run.Literals
