import ChainCalc.Command.Basic
import ChainCalc.Command.Input
import ChainCalc.Command.Report
import ChainCalc.Decimal.Layout
import ChainCalc.Decimal.Shortest
import ChainCalc.Environment
import ChainCalc.Evaluator
import ChainCalc.Event
import ChainCalc.Main
import ChainCalc.Number
import ChainCalc.Operator
import ChainCalc.ParseError
import ChainCalc.Peek
import ChainCalc.RuntimeError
import ChainCalc.Script
import ChainCalc.Sequence
import ChainCalc.Session
import ChainCalc.Term.Basic
import ChainCalc.Term.Chain
import ChainCalc.Term.Parser
import ChainCalc.Term.Render
import ChainCalc.Text.Blank
import ChainCalc.Text.CodeRange
import ChainCalc.Text.DecimalDigit
import ChainCalc.Text.Letter
import ChainCalc.Text.Line
import ChainCalc.Text.Quoted
import ChainCalc.Token.Basic
import ChainCalc.Token.Lexer
import ChainCalc.Proofs.Grammar
import ChainCalc.Proofs.ChainGrammar
import ChainCalc.Proofs.StatementGrammar
import ChainCalc.Proofs.LongestLexeme
import ChainCalc.Proofs.Spelling
import ChainCalc.Proofs.Canonical
import ChainCalc.Proofs.RoundTrip
import ChainCalc.Proofs.Frame
import ChainCalc.Proofs.StatementEffect
import ChainCalc.Proofs.CallHeight
import ChainCalc.Proofs.FunctionTable
import ChainCalc.Proofs.Safety
import ChainCalc.Proofs.Simulation
import ChainCalc.Proofs.RaisedLimit
import ChainCalc.Proofs.Scoping
import ChainCalc.Proofs.CallCounter
import ChainCalc.Proofs.IndependentStatements
import ChainCalc.Proofs.ScriptComposition
import ChainCalc.Proofs.Relocation
import ChainCalc.Proofs.Indentation
import ChainCalc.Proofs.Interruption
import ChainCalc.Proofs.PeekChoice
import ChainCalc.Proofs.MaximalPeek
import ChainCalc.Proofs.PeekRounds
import ChainCalc.Proofs.Headings
import ChainCalc.Proofs.OutermostChain
import ChainCalc.Proofs.Grouping
import ChainCalc.Proofs.NegativeLiteral
import ChainCalc.Proofs.Tiling
import ChainCalc.Proofs.Refusal
import ChainCalc.Proofs.CorrectPrefix
import ChainCalc.Proofs.Located
import ChainCalc.Proofs.Culprit
import ChainCalc.Proofs.CallTrace
import ChainCalc.Proofs.GreedyPeek
import ChainCalc.Proofs.Layout
import ChainCalc.Proofs.IntegerWords
import ChainCalc.Proofs.OrderPattern
import ChainCalc.Proofs.InputSource
import ChainCalc.Proofs.CommandLine
import ChainCalc.Proofs.PeekOutput
import ChainCalc.Proofs.PrintAll
import ChainCalc.Proofs.CallScope
import ChainCalc.Proofs.DecimalLiteral
import ChainCalc.Proofs.Descent
