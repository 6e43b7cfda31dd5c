import Pseudocod.Text.Blank
import Pseudocod.Text.Lines
import Pseudocod.Location
import Pseudocod.Typeset
import Pseudocod.Token.Kind
import Pseudocod.Token.Basic
import Pseudocod.Token.Lexeme
import Pseudocod.Token.Cursor
import Pseudocod.Token.Stream
import Pseudocod.Expr.Basic
import Pseudocod.Parsed
import Pseudocod.Expr.Parser
import Pseudocod.Expr.Printer
import Pseudocod.Statement.Basic
import Pseudocod.Statement.Parser
import Pseudocod.Statement.Layout
import Pseudocod.SExpr
import Pseudocod.SyntaxError
import Pseudocod.Program
import Pseudocod.Run.Protocol
import Pseudocod.Run.Session
import Pseudocod.Run.Activity
import Pseudocod.Run.Loop
import Pseudocod.Run.Series
import Pseudocod.Run.Recorder
import Pseudocod.Run.Script
import Pseudocod.CommandLine.Basic
import Pseudocod.CommandLine.Folder
import Pseudocod.Main
import Pseudocod.Proofs.Canonical
import Pseudocod.Proofs.Scan.Basic
import Pseudocod.Proofs.Scan.Faithful
import Pseudocod.Proofs.Scan.Prompt
import Pseudocod.Proofs.Scan.Complete
import Pseudocod.Proofs.Scan.Uniform
import Pseudocod.Proofs.Scan.Quoting
import Pseudocod.Proofs.Precedence
import Pseudocod.Proofs.Grammar
import Pseudocod.Proofs.StatementScan
import Pseudocod.Proofs.Acceptance
import Pseudocod.Proofs.EarliestError
import Pseudocod.Proofs.Resumption
import Pseudocod.Proofs.Walk.Basic
import Pseudocod.Proofs.Walk.Readers
import Pseudocod.Proofs.Walk.Bounds
import Pseudocod.Proofs.Messages
import Pseudocod.Proofs.Reports
import Pseudocod.Proofs.Respelling
import Pseudocod.Proofs.Lexical
import Pseudocod.Proofs.Spelling
import Pseudocod.Proofs.TreeWriting
import Pseudocod.Proofs.Tokenization
import Pseudocod.Proofs.Positions
import Pseudocod.Proofs.Relocation
import Pseudocod.Proofs.LineBreaks
import Pseudocod.Proofs.StatementWords
import Pseudocod.Proofs.RenderedText
import Pseudocod.Proofs.RoundTrip
import Pseudocod.Proofs.LineRoles
import Pseudocod.Proofs.Outline
import Pseudocod.Proofs.Composition
import Pseudocod.Proofs.Replacement
import Pseudocod.Proofs.StringTexts
import Pseudocod.Proofs.Reformatting
import Pseudocod.Proofs.PlainSource
import Pseudocod.Proofs.FileErrors
import Pseudocod.Proofs.Settling
import Pseudocod.Proofs.LineByLine
import Pseudocod.Proofs.LeftmostLongest
import Pseudocod.Proofs.Run.Conversation
import Pseudocod.Proofs.Run.CallOrder
import Pseudocod.Proofs.Run.Stopping
import Pseudocod.Proofs.Run.Input
import Pseudocod.Proofs.Run.Output
import Pseudocod.Proofs.Run.Limit
import Pseudocod.Proofs.Run.Lockstep
import Pseudocod.Proofs.Run.Series
import Pseudocod.Proofs.Run.Configuration
import Pseudocod.Proofs.Run.Pace
