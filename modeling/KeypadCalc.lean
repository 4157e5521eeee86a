import KeypadCalc.Binary64
import KeypadCalc.CommandLine
import KeypadCalc.CommandLine.Arguments
import KeypadCalc.CommandLine.Environment
import KeypadCalc.Config
import KeypadCalc.Config.File
import KeypadCalc.Console
import KeypadCalc.Console.Command
import KeypadCalc.Decimal
import KeypadCalc.Decimal.Numeral
import KeypadCalc.Decimal.Shortest
import KeypadCalc.Decimal.Style
import KeypadCalc.Evaluation
import KeypadCalc.Expr.Basic
import KeypadCalc.Expr.Error
import KeypadCalc.Expr.Grammar
import KeypadCalc.Expr.Lexer
import KeypadCalc.Expr.Parser
import KeypadCalc.Expr.Sanitizer
import KeypadCalc.Expr.Token
import KeypadCalc.History
import KeypadCalc.History.Codec
import KeypadCalc.History.Entry
import KeypadCalc.History.Listing
import KeypadCalc.Json.Numeral
import KeypadCalc.Json.Quoted
import KeypadCalc.Json.Skip
import KeypadCalc.Json.Token
import KeypadCalc.Keypad
import KeypadCalc.NumberText
import KeypadCalc.Proofs.Binary64.Arithmetic
import KeypadCalc.Proofs.Binary64.Operations
import KeypadCalc.Proofs.Binary64.Comparing
import KeypadCalc.Proofs.Binary64.Packing
import KeypadCalc.Proofs.Binary64.Rounding
import KeypadCalc.Proofs.Binary64.Shifting
import KeypadCalc.Proofs.Decimal.Nearest
import KeypadCalc.Proofs.Decimal.Shortest
import KeypadCalc.Proofs.Evaluation
import KeypadCalc.Proofs.History
import KeypadCalc.Proofs.History.Codec
import KeypadCalc.Proofs.History.Number
import KeypadCalc.Proofs.Json.Decimal
import KeypadCalc.Proofs.Json.Numeral
import KeypadCalc.Proofs.Json.Quoted
import KeypadCalc.Proofs.Json.Token
import KeypadCalc.Proofs.Lexing
import KeypadCalc.Proofs.Numeral
import KeypadCalc.Proofs.Parsing
import KeypadCalc.Proofs.Percent
import KeypadCalc.Proofs.Percent.Grammar
import KeypadCalc.Proofs.Quantizing
import KeypadCalc.Proofs.Sanitizing
import KeypadCalc.Proofs.Storage
import KeypadCalc.Proofs.Storage.FileTree
import KeypadCalc.Proofs.Tokens
import KeypadCalc.Proofs.Utf8
import KeypadCalc.Session
import KeypadCalc.Storage
import KeypadCalc.Storage.FileTree
import KeypadCalc.Storage.Key
import KeypadCalc.Text.Blank
import KeypadCalc.Text.DecimalDigit
import KeypadCalc.Text.Hex
import KeypadCalc.Text.Utf8
import KeypadCalc.Toml.Document
import KeypadCalc.Toml.Table
import KeypadCalc.Toml.Token
import KeypadCalc.Toml.Value
import KeypadCalc.Main
import KeypadCalc.Proofs.NumberText
import KeypadCalc.Proofs.Session
import KeypadCalc.Proofs.Session.Alphabet
import KeypadCalc.Proofs.Keypad.Dividing
import KeypadCalc.Proofs.Percent.Ending
import KeypadCalc.Proofs.Keypad.Percent
import KeypadCalc.Proofs.History.Readable
import KeypadCalc.Proofs.Keypad.Operators
import KeypadCalc.Proofs.Keypad.Points
import KeypadCalc.Proofs.Keypad.WellFormed
import KeypadCalc.Proofs.Session.Editing
import KeypadCalc.Proofs.Session.Separation
import KeypadCalc.Proofs.Storage.Making
import KeypadCalc.Proofs.Storage.Editing
import KeypadCalc.Proofs.Storage.Draft
import KeypadCalc.Proofs.Storage.Confinement
import KeypadCalc.Proofs.Storage.Mirroring
import KeypadCalc.Proofs.History.Failing
import KeypadCalc.Proofs.Session.ErrorMark
import KeypadCalc.Proofs.Session.Timing
import KeypadCalc.Proofs.Console.Lines
import KeypadCalc.Proofs.Console.Typing
import KeypadCalc.Proofs.Console.Composing
import KeypadCalc.Proofs.CommandLine
import KeypadCalc.Proofs.Parsing.Stages
import KeypadCalc.Proofs.Parsing.FirstError
import KeypadCalc.Proofs.Percent.Numerals
import KeypadCalc.Proofs.Percent.Remainders
import KeypadCalc.Proofs.Binary64.Nearest
import KeypadCalc.Proofs.Binary64.Accuracy
import KeypadCalc.Proofs.Binary64.HalfUp
import KeypadCalc.Proofs.Quantizing.Repeating
import KeypadCalc.Proofs.Session.Repeating
import KeypadCalc.Proofs.NumberText.Places
import KeypadCalc.Proofs.NumberText.Display
import KeypadCalc.Proofs.NumberText.Distinct
import KeypadCalc.Proofs.Quantizing.Preview
import KeypadCalc.Proofs.Sanitizing.Locality
import KeypadCalc.Proofs.Blank
import KeypadCalc.Proofs.Sanitizing.Results
import KeypadCalc.Proofs.Session.Contents
import KeypadCalc.Proofs.Console.Commands
import KeypadCalc.Proofs.Console.Recalling
import KeypadCalc.Proofs.History.Layout
import KeypadCalc.Proofs.Parsing.Spacing
import KeypadCalc.Proofs.Session.Listing
import KeypadCalc.Proofs.Config
import KeypadCalc.Proofs.Lexing.Segments
import KeypadCalc.Proofs.Lexing.Sanitized
import KeypadCalc.Proofs.Parsing.Descent
import KeypadCalc.Proofs.Parsing.Calls
